import Mathlib.Data.List.Basic
import Mathlib.Tactic.Common

/-!
# Labelled runs

Finite runs of a labelled transition relation, the states they reach, and the
two ways such runs are reasoned about: an invariant that every step keeps, and a
rank that pays for the steps to be counted.
-/

namespace OsSim.RunSteps

variable {σ ι : Type*}

/-- The labels, taken in order, lead from the first state to the last one. -/
inductive Run (next : σ → ι → σ → Prop) : σ → List ι → σ → Prop
  /-- The empty run. -/
  | nil (s : σ) : Run next s [] s
  /-- One step in front of a run. -/
  | cons {s t u : σ} {a : ι} {as : List ι} (h : next s a t) (rest : Run next t as u) :
      Run next s (a :: as) u

/-- Steps restricted to the labels a condition on the state admits. -/
def Guarded (ok : σ → ι → Prop) (next : σ → ι → σ → Prop) (s : σ) (a : ι) (t : σ) : Prop :=
  ok s a ∧ next s a t

/-- Some run from an initial state ends here. -/
def Reachable (init : σ → Prop) (next : σ → ι → σ → Prop) (t : σ) : Prop :=
  ∃ s as, init s ∧ Run next s as t

variable {next : σ → ι → σ → Prop}

/-- Runs compose. -/
theorem Run.append {s t u : σ} {as bs : List ι} (h : Run next s as t)
    (hu : Run next t bs u) : Run next s (as ++ bs) u := by
  induction h with
  | nil s => exact hu
  | cons hstep _ ih => exact .cons hstep (ih hu)

/-- A run extends by one step at its end. -/
theorem Run.snoc {s t u : σ} {a : ι} {as : List ι} (h : Run next s as t)
    (hu : next t a u) : Run next s (as ++ [a]) u :=
  h.append (.cons hu (.nil u))

/-- What every step keeps holds after a run. -/
theorem Run.invariant (I : σ → Prop) (hstep : ∀ s a t, I s → next s a t → I t)
    {s t : σ} {as : List ι} (h : Run next s as t) (hs : I s) : I t := by
  induction h with
  | nil _ => exact hs
  | cons hn _ ih => exact ih (hstep _ _ _ hs hn)

/-- What holds initially and is kept by every step holds of reachable states. -/
theorem Reachable.invariant {init : σ → Prop} (I : σ → Prop) (hinit : ∀ s, init s → I s)
    (hstep : ∀ s a t, I s → next s a t → I t) {t : σ} (h : Reachable init next t) : I t := by
  obtain ⟨s, as, hs, hrun⟩ := h
  exact hrun.invariant I hstep (hinit s hs)

/-- Reachable states are closed under runs. -/
theorem Reachable.run {init : σ → Prop} {s t : σ} {as : List ι}
    (h : Reachable init next s) (hrun : Run next s as t) : Reachable init next t := by
  obtain ⟨s₀, bs, hs, h₀⟩ := h
  exact ⟨s₀, bs ++ as, hs, h₀.append hrun⟩

/-- A weaker condition admits the same run. -/
theorem Run.mono {next' : σ → ι → σ → Prop} (hmono : ∀ s a t, next s a t → next' s a t)
    {s t : σ} {as : List ι} (h : Run next s as t) : Run next' s as t := by
  induction h with
  | nil s => exact .nil s
  | cons hn _ ih => exact .cons (hmono _ _ _ hn) ih

/-- Dropping the condition leaves a run. -/
theorem Run.unguard {ok : σ → ι → Prop} {s t : σ} {as : List ι}
    (h : Run (Guarded ok next) s as t) : Run next s as t :=
  h.mono fun _ _ _ hg => hg.2

/-- A deterministic system has a run for all labels. -/
theorem run_foldl (f : σ → ι → σ) (s : σ) (as : List ι) :
    Run (fun s a t => t = f s a) s as (as.foldl f s) := by
  induction as generalizing s with
  | nil => exact .nil s
  | cons a as ih => exact .cons rfl (ih (f s a))

/-- A rank that no step raises and every counted step lowers bounds the number
of counted steps of any run. -/
theorem Run.countP_add_rank_le (I : σ → Prop) (rank : σ → ℕ) (p : ι → Bool)
    (hstep : ∀ s a t, I s → next s a t → I t ∧ (if p a then 1 else 0) + rank t ≤ rank s)
    {s t : σ} {as : List ι} (h : Run next s as t) (hs : I s) :
    as.countP p + rank t ≤ rank s := by
  induction h with
  | nil s => exact Nat.le_of_eq (Nat.zero_add _)
  | cons hn _ ih =>
    obtain ⟨hi, hr⟩ := hstep _ _ _ hs hn
    have hrest := ih hi
    rw [List.countP_cons]
    omega

/-! ## Lists that steps only take from -/

section Drop

variable {β : Type*} {I : σ → Prop} {l : σ → List β} {n : σ → ι → ℕ}

/-- Steps that take nothing, or from nothing, leave the list as it was. -/
theorem Run.list_eq_of_kept (hstep : ∀ s a t, I s → next s a t → I t ∧ l t = (l s).drop (n s a))
    {s t : σ} {as : List ι} (h : Run (Guarded (fun s a => n s a = 0 ∨ l s = []) next) s as t)
    (hs : I s) : l t = l s := by
  induction h with
  | nil s => rfl
  | cons hn _ ih =>
    obtain ⟨hI, hl⟩ := hstep _ _ _ hs hn.2
    rw [ih hI, hl]
    rcases hn.1 with h0 | h0
    · rw [h0, List.drop_zero]
    · rw [h0, List.drop_nil]

/-- What is left of the list is its end. -/
theorem Run.suffix_of_drop (hstep : ∀ s a t, I s → next s a t → I t ∧ l t = (l s).drop (n s a))
    {s t : σ} {as : List ι} (h : Run next s as t) (hs : I s) : l t <:+ l s := by
  induction h with
  | nil s => exact List.suffix_refl _
  | cons hn _ ih =>
    obtain ⟨hI, hl⟩ := hstep _ _ _ hs hn
    exact (ih hI).trans (hl ▸ List.drop_suffix _ _)

/-- All of it is left exactly if no step has taken anything. -/
theorem Run.perm_iff_of_drop (hstep : ∀ s a t, I s → next s a t → I t ∧ l t = (l s).drop (n s a))
    {s t : σ} {as : List ι} (h : Run next s as t) (hs : I s) :
    (l t).Perm (l s) ↔ Run (Guarded (fun s a => n s a = 0 ∨ l s = []) next) s as t := by
  refine ⟨fun hp => ?_, fun hg => ?_⟩
  · have hlen := hp.length_eq
    clear hp
    induction h with
    | nil s => exact .nil s
    | @cons s t u a as hn rest ih =>
      obtain ⟨hI, hl⟩ := hstep _ _ _ hs hn
      have hrest := (rest.suffix_of_drop hstep hI).length_le
      have hdrop : (l t).length = (l s).length - n s a := by rw [hl, List.length_drop]
      refine .cons ⟨?_, hn⟩ (ih hI (by omega))
      by_cases h0 : (l s).length = 0
      · exact Or.inr (List.length_eq_zero_iff.mp h0)
      · exact Or.inl (by omega)
  · rw [hg.list_eq_of_kept hstep hs]

end Drop

/-! ## Executable runs -/

/-- Execute the labels in order as long as the condition admits them. -/
def execRun (ok : σ → ι → Prop) [∀ s a, Decidable (ok s a)] (step : σ → ι → Option σ) :
    σ → List ι → Option σ
  | s, [] => some s
  | s, a :: as => if ok s a then (step s a).bind fun t => execRun ok step t as else none

/-- What executes is a run, step by step under the condition. -/
theorem run_of_execRun {ok : σ → ι → Prop} [∀ s a, Decidable (ok s a)]
    {step : σ → ι → Option σ} (hn : ∀ s a t, step s a = some t → next s a t)
    {s t : σ} {as : List ι} (h : execRun ok step s as = some t) :
    Run (Guarded ok next) s as t := by
  induction as generalizing s with
  | nil =>
    cases h
    exact .nil _
  | cons a as ih =>
    rw [execRun] at h
    by_cases hok : ok s a
    · rw [if_pos hok, Option.bind_eq_some_iff] at h
      obtain ⟨u, hu, hrest⟩ := h
      exact .cons ⟨hok, hn s a u hu⟩ (ih hrest)
    · rw [if_neg hok] at h
      cases h

/-- An observation of an execution is an observation of the end of a run. -/
theorem exists_run_of_map {β : Type*} (ok : σ → ι → Prop) [∀ s a, Decidable (ok s a)]
    {step : σ → ι → Option σ} (hn : ∀ s a t, step s a = some t → next s a t)
    (s : σ) (as : List ι) (f : σ → β) (b : β) (h : (execRun ok step s as).map f = some b) :
    ∃ t, Run (Guarded ok next) s as t ∧ f t = b := by
  obtain ⟨t, ht, hf⟩ := Option.map_eq_some_iff.mp h
  exact ⟨t, run_of_execRun hn ht, hf⟩

/-- A successful call is recovered from its result. -/
theorem ok_of_toOption {ε α : Type} {x : Except ε α} {a : α} (h : x.toOption = some a) :
    x = .ok a := by
  cases x with
  | error e => cases h
  | ok r => exact congrArg Except.ok (Option.some.inj h)

/-- A successful call is recovered from what is observed of its result. -/
theorem exists_ok_of_map {ε α β : Type} {x : Except ε α} {f : α → β} {b : β}
    (h : x.toOption.map f = some b) : ∃ a, x = .ok a ∧ f a = b := by
  obtain ⟨a, hx, hf⟩ := Option.map_eq_some_iff.mp h
  exact ⟨a, ok_of_toOption hx, hf⟩

/-- In particular from the state it returns. -/
theorem exists_ok_of_map_snd {ε α β : Type} {x : Except ε (α × β)} {b : β}
    (h : x.toOption.map Prod.snd = some b) : ∃ a, x = .ok (a, b) := by
  obtain ⟨⟨a, _⟩, hx, rfl⟩ := exists_ok_of_map h
  exact ⟨a, hx⟩

/-- A condition on what an optional value holds is decided by looking at it. -/
instance decidableForallSome {α : Type*} (o : Option α) (P : α → Prop) [DecidablePred P] :
    Decidable (∀ a, o = some a → P a) :=
  match o with
  | none => isTrue fun _ h => nomatch h
  | some b => decidable_of_iff (P b) ⟨fun h _ he => Option.some.inj he ▸ h, fun h => h b rfl⟩

/-- A computation that returns has returned at every step. -/
theorem ok_of_bind {ε α β : Type} {x : Except ε α} {f : α → Except ε β} {b : β}
    (h : x >>= f = .ok b) : ∃ a, x = .ok a ∧ f a = .ok b := by
  cases x with
  | error e => cases h
  | ok a => exact ⟨a, rfl, h⟩

/-- A computation under a map has a result only from one of its own. -/
theorem ok_of_map {ε α β : Type} {x : Except ε α} {f : α → β} {b : β}
    (h : x.map f = .ok b) : ∃ a, x = .ok a ∧ f a = b := by
  cases x with
  | error e => cases h
  | ok a => exact ⟨a, rfl, Except.ok.inj h⟩

/-- A computation whose continuation never stops for a reason has stopped for it before. -/
theorem error_of_bind {ε α β : Type} {x : Except ε α} {f : α → Except ε β} {e : ε}
    (hf : ∀ a, f a ≠ .error e) (h : x >>= f = .error e) : x = .error e := by
  cases x with
  | ok a => exact absurd h (hf a)
  | error e' =>
    cases h
    rfl

end OsSim.RunSteps
