import OsSim.RunSteps
import Mathlib.Logic.Function.Basic

/-!
# Simulations and interleavings

A step of one system may be answered by several steps of another one, or by none;
so may a run. The steps of components that share nothing interleave in any order,
and what each component does is a run of its own.
-/

namespace OsSim.RunSimulation

open RunSteps

variable {σ τ ι κ : Type*} {next : σ → ι → σ → Prop} {next' : τ → κ → τ → Prop}

/-- Related states stay related: a step of the first system is answered by a run of
the second one over the labels it stands for. -/
def Simulates (next : σ → ι → σ → Prop) (next' : τ → κ → τ → Prop) (labels : ι → List κ)
    (R : σ → τ → Prop) : Prop :=
  ∀ s a s' t, R s t → next s a s' → ∃ t', Run next' t (labels a) t' ∧ R s' t'

/-- A run is answered by a run. -/
theorem Simulates.run {labels : ι → List κ} {R : σ → τ → Prop}
    (hsim : Simulates next next' labels R) {s s' : σ} {as : List ι} (h : Run next s as s') {t : τ}
    (hR : R s t) : ∃ t', Run next' t (as.flatMap labels) t' ∧ R s' t' := by
  induction h generalizing t with
  | nil s => exact ⟨t, .nil t, hR⟩
  | cons hn _ ih =>
    obtain ⟨t₁, hrun, hR₁⟩ := hsim _ _ _ _ hR hn
    obtain ⟨t₂, hrest, hR₂⟩ := ih hR₁
    refine ⟨t₂, ?_, hR₂⟩
    rw [List.flatMap_cons]
    exact hrun.append hrest

/-- A map under which every step becomes a step, or none, takes runs to runs. -/
theorem run_map {f : σ → τ} (I : σ → Prop) (hinv : ∀ s a t, I s → next s a t → I t)
    (hstep : ∀ s a t, I s → next s a t → f t = f s ∨ ∃ b, next' (f s) b (f t)) {s t : σ}
    {as : List ι} (h : Run next s as t) (hs : I s) : ∃ bs, Run next' (f s) bs (f t) := by
  induction h with
  | nil s => exact ⟨[], .nil _⟩
  | cons hn _ ih =>
    obtain ⟨bs, hrun⟩ := ih (hinv _ _ _ hs hn)
    rcases hstep _ _ _ hs hn with heq | ⟨b, hb⟩
    · exact ⟨bs, heq ▸ hrun⟩
    · exact ⟨b :: bs, .cons hb hrun⟩

/-! ## Components -/

section Components

variable {γ : Type*} [DecidableEq γ]

/-- One component takes a step, and the others stay. -/
def Interleaved (next : σ → ι → σ → Prop) (s : γ → σ) (a : γ × ι) (s' : γ → σ) : Prop :=
  ∃ t, next (s a.1) a.2 t ∧ s' = Function.update s a.1 t

/-- The labels of one component, in order. -/
def component (i : γ) (as : List (γ × ι)) : List ι :=
  as.filterMap fun a => if a.1 = i then some a.2 else none

@[simp] theorem component_nil (i : γ) : component i ([] : List (γ × ι)) = [] := rfl

theorem component_cons_self {i : γ} {a : γ × ι} (h : a.1 = i) (as : List (γ × ι)) :
    component i (a :: as) = a.2 :: component i as := by
  unfold component
  rw [List.filterMap_cons, if_pos h]

theorem component_cons_of_ne {i : γ} {a : γ × ι} (h : a.1 ≠ i) (as : List (γ × ι)) :
    component i (a :: as) = component i as := by
  unfold component
  rw [List.filterMap_cons, if_neg h]

/-- What one component does is a run of its own. -/
theorem run_component {s s' : γ → σ} {as : List (γ × ι)} (h : Run (Interleaved next) s as s')
    (i : γ) : Run next (s i) (component i as) (s' i) := by
  induction h with
  | nil s => exact .nil _
  | @cons s t u a as hn _ ih =>
    obtain ⟨v, hv, rfl⟩ := hn
    by_cases hi : a.1 = i
    · subst hi
      rw [Function.update_self] at ih
      rw [component_cons_self rfl]
      exact .cons hv ih
    · rw [Function.update_of_ne (Ne.symm hi)] at ih
      rw [component_cons_of_ne hi]
      exact ih

end Components

/-! ## Runs that inputs determine -/

/-- The state and the input decide the whole label and the next state. -/
def Determined {ν : Type*} (next : σ → ι → σ → Prop) (input : ι → ν) : Prop :=
  ∀ s a b t u, next s a t → next s b u → input a = input b → a = b ∧ t = u

/-- If the state and the input decide the whole label and the next state, the inputs of a
run decide all its labels and its last state. -/
theorem Determined.run_eq {ν : Type*} {input : ι → ν} (hdet : Determined next input) {s t u : σ}
    {as bs : List ι} (h : Run next s as t) (h' : Run next s bs u)
    (hin : as.map input = bs.map input) : as = bs ∧ t = u := by
  induction h generalizing bs u with
  | nil s =>
    obtain rfl := List.map_eq_nil_iff.mp hin.symm
    cases h'
    exact ⟨rfl, rfl⟩
  | cons hn _ ih =>
    cases h' with
    | nil _ => cases hin
    | cons hn' rest' =>
      obtain ⟨hhead, htail⟩ := List.cons.inj hin
      obtain ⟨rfl, rfl⟩ := hdet _ _ _ _ _ hn hn' hhead
      obtain ⟨rfl, rfl⟩ := ih rest' htail
      exact ⟨rfl, rfl⟩

end OsSim.RunSimulation
