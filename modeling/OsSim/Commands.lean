import Mathlib.Logic.Relation
import Mathlib.Tactic.Common

/-!
# Commands

A language of loops over any states. Each action and each test is one step, so that the
commands of several threads may be interleaved; what a command does when it runs alone is
its execution, and the rules of its weakest precondition prove that it ends.
-/

namespace OsSim.Commands

variable {σ : Type}

/-- A command over states of type `σ`. -/
inductive Cmd (σ : Type)
  /-- Nothing is left to do. -/
  | skip
  /-- One access. -/
  | act (f : σ → σ)
  /-- One command behind the other. -/
  | seq (c d : Cmd σ)
  /-- A test. -/
  | ite (b : σ → Bool) (c d : Cmd σ)
  /-- A loop. -/
  | loop (b : σ → Bool) (c : Cmd σ)

/-- The next step of a command: what is left to do, and the state behind the step. -/
def Cmd.step : Cmd σ → σ → Option (Cmd σ × σ)
  | .skip, _ => none
  | .act f, s => some (.skip, f s)
  | .seq c d, s =>
    match c.step s with
    | none => some (d, s)
    | some (c', s') => some (.seq c' d, s')
  | .ite b c d, s => some (if b s then c else d, s)
  | .loop b c, s => some (if b s then .seq c (.loop b c) else .skip, s)

/-- A command that runs alone leads from one state to another. -/
inductive Exec : Cmd σ → σ → σ → Prop
  /-- Nothing to do. -/
  | skip (s : σ) : Exec .skip s s
  /-- An access. -/
  | act (f : σ → σ) (s : σ) : Exec (.act f) s (f s)
  /-- Two commands. -/
  | seq {c d : Cmd σ} {s t u : σ} (hc : Exec c s t) (hd : Exec d t u) : Exec (.seq c d) s u
  /-- A test that succeeds. -/
  | iteTrue {b : σ → Bool} {c d : Cmd σ} {s t : σ} (hb : b s = true) (hc : Exec c s t) :
      Exec (.ite b c d) s t
  /-- A test that fails. -/
  | iteFalse {b : σ → Bool} {c d : Cmd σ} {s t : σ} (hb : b s = false) (hd : Exec d s t) :
      Exec (.ite b c d) s t
  /-- One more turn of a loop. -/
  | loopTrue {b : σ → Bool} {c : Cmd σ} {s t u : σ} (hb : b s = true) (hc : Exec c s t)
      (hloop : Exec (.loop b c) t u) : Exec (.loop b c) s u
  /-- The end of a loop. -/
  | loopFalse {b : σ → Bool} {c : Cmd σ} {s : σ} (hb : b s = false) : Exec (.loop b c) s s

/-! ## Steps and executions -/

/-- A command takes steps until nothing is left. -/
theorem step_eq_none {c : Cmd σ} {s : σ} : c.step s = none ↔ c = .skip := by
  refine ⟨fun h => ?_, fun h => h ▸ rfl⟩
  cases c with
  | skip => rfl
  | act f => cases h
  | seq c d =>
    unfold Cmd.step at h
    split at h <;> cases h
  | ite b c d => cases h
  | loop b c => cases h

/-- A step in front of an execution. -/
theorem Exec.of_step {c c' : Cmd σ} {s s' t : σ} (h : c.step s = some (c', s'))
    (he : Exec c' s' t) : Exec c s t := by
  induction c generalizing c' s' t with
  | skip => cases h
  | act f =>
    cases h
    cases he
    exact .act f s
  | seq c d ihc _ =>
    unfold Cmd.step at h
    split at h
    · next hnone =>
      cases h
      obtain rfl := step_eq_none.mp hnone
      exact .seq (.skip _) he
    · next hstep =>
      cases h
      cases he with
      | seq hc hd => exact .seq (ihc hstep hc) hd
  | ite b c d =>
    unfold Cmd.step at h
    cases hb : b s with
    | true =>
      rw [hb] at h
      cases h
      exact .iteTrue hb he
    | false =>
      rw [hb] at h
      cases h
      exact .iteFalse hb he
  | loop b c =>
    unfold Cmd.step at h
    cases hb : b s with
    | true =>
      rw [hb] at h
      cases h
      cases he with
      | seq hc hloop => exact .loopTrue hb hc hloop
    | false =>
      rw [hb] at h
      cases h
      cases he
      exact .loopFalse hb

/-- What a command does when it runs alone is determined. -/
theorem Exec.deterministic {c : Cmd σ} {s t u : σ} (h : Exec c s t) (h' : Exec c s u) :
    t = u := by
  induction h generalizing u with
  | skip s => cases h'; rfl
  | act f s => cases h'; rfl
  | seq _ _ ihc ihd =>
    cases h' with
    | seq hc hd =>
      obtain rfl := ihc hc
      exact ihd hd
  | iteTrue hb _ ih =>
    cases h' with
    | iteTrue _ hc => exact ih hc
    | iteFalse hb' _ => cases hb.symm.trans hb'
  | iteFalse hb _ ih =>
    cases h' with
    | iteTrue hb' _ => cases hb.symm.trans hb'
    | iteFalse _ hd => exact ih hd
  | loopTrue hb _ _ ihc ihloop =>
    cases h' with
    | loopTrue _ hc hloop =>
      obtain rfl := ihc hc
      exact ihloop hloop
    | loopFalse hb' => cases hb.symm.trans hb'
  | loopFalse hb =>
    cases h' with
    | loopTrue hb' _ _ => cases hb.symm.trans hb'
    | loopFalse _ => rfl

/-- A command that runs alone ends after so many steps. -/
inductive EndsIn : ℕ → Cmd σ → σ → σ → Prop
  /-- Nothing is left to do. -/
  | done (s : σ) : EndsIn 0 .skip s s
  /-- One more step. -/
  | next {n : ℕ} {c c' : Cmd σ} {s s' t : σ} (h : c.step s = some (c', s'))
      (hn : EndsIn n c' s' t) : EndsIn (n + 1) c s t

/-- A sequence ends in the steps of its two commands and one between them. -/
theorem EndsIn.seq {m n : ℕ} {c d : Cmd σ} {s t u : σ} (hc : EndsIn m c s t)
    (hd : EndsIn n d t u) : EndsIn (m + (n + 1)) (.seq c d) s u := by
  induction hc with
  | done s =>
    rw [Nat.zero_add]
    exact .next rfl hd
  | @next m c c' s s' t h _ ih =>
    rw [Nat.add_right_comm]
    refine .next ?_ (ih hd)
    unfold Cmd.step
    rw [h]

/-- Every execution ends. -/
theorem Exec.endsIn {c : Cmd σ} {s t : σ} (h : Exec c s t) : ∃ n, EndsIn n c s t := by
  induction h with
  | skip s => exact ⟨0, .done s⟩
  | act f s => exact ⟨1, .next rfl (.done _)⟩
  | seq _ _ ihc ihd =>
    obtain ⟨m, hm⟩ := ihc
    obtain ⟨n, hn⟩ := ihd
    exact ⟨_, hm.seq hn⟩
  | iteTrue hb _ ih =>
    obtain ⟨n, hn⟩ := ih
    exact ⟨n + 1, .next (by unfold Cmd.step; rw [hb]; rfl) hn⟩
  | iteFalse hb _ ih =>
    obtain ⟨n, hn⟩ := ih
    exact ⟨n + 1, .next (by unfold Cmd.step; rw [hb]; rfl) hn⟩
  | loopTrue hb _ _ ihc ihloop =>
    obtain ⟨m, hm⟩ := ihc
    obtain ⟨n, hn⟩ := ihloop
    exact ⟨_, .next (by unfold Cmd.step; rw [hb]; rfl) (hm.seq hn)⟩
  | loopFalse hb => exact ⟨1, .next (by unfold Cmd.step; rw [hb]; rfl) (.done _)⟩

/-! ## Weakest preconditions -/

/-- The command, run alone from the state, ends as `Q` says. -/
def Wp (c : Cmd σ) (Q : σ → Prop) (s : σ) : Prop := ∃ t, Exec c s t ∧ Q t

section Rules

variable {b : σ → Bool} {c d : Cmd σ} {Q R : σ → Prop} {s : σ}

theorem wp_mono (h : Wp c Q s) (hQ : ∀ t, Q t → R t) : Wp c R s :=
  let ⟨t, he, ht⟩ := h
  ⟨t, he, hQ t ht⟩

theorem wp_skip (h : Q s) : Wp .skip Q s := ⟨s, .skip s, h⟩

theorem wp_act {f : σ → σ} (h : Q (f s)) : Wp (.act f) Q s := ⟨f s, .act f s, h⟩

theorem wp_seq (h : Wp c (Wp d Q) s) : Wp (.seq c d) Q s :=
  let ⟨_, hc, u, hd, hu⟩ := h
  ⟨u, .seq hc hd, hu⟩

theorem wp_iteTrue (hb : b s = true) (h : Wp c Q s) : Wp (.ite b c d) Q s :=
  let ⟨t, hc, ht⟩ := h
  ⟨t, .iteTrue hb hc, ht⟩

theorem wp_iteFalse (hb : b s = false) (h : Wp d Q s) : Wp (.ite b c d) Q s :=
  let ⟨t, hd, ht⟩ := h
  ⟨t, .iteFalse hb hd, ht⟩

/-- A test meets a postcondition if each branch does where the condition sends it. -/
theorem wp_ite (hc : b s = true → Wp c Q s) (hd : b s = false → Wp d Q s) :
    Wp (.ite b c d) Q s := by
  cases hb : b s with
  | true => exact wp_iteTrue hb (hc hb)
  | false => exact wp_iteFalse hb (hd hb)

theorem wp_loopTrue (hb : b s = true) (h : Wp c (Wp (.loop b c) Q) s) : Wp (.loop b c) Q s :=
  let ⟨_, hc, u, hloop, hu⟩ := h
  ⟨u, .loopTrue hb hc hloop, hu⟩

theorem wp_loopFalse (hb : b s = false) (h : Q s) : Wp (.loop b c) Q s := ⟨s, .loopFalse hb, h⟩

/-- A loop that keeps `I`, with one turn less to come after each. -/
theorem wp_loop (I : ℕ → σ → Prop) {n : ℕ} (hI : I n s) (hend : ∀ t, I 0 t → b t = false ∧ Q t)
    (hstep : ∀ m t, I (m + 1) t → b t = true ∧ Wp c (I m) t ∨ b t = false ∧ Q t) :
    Wp (.loop b c) Q s := by
  induction n generalizing s with
  | zero => exact wp_loopFalse (hend s hI).1 (hend s hI).2
  | succ n ih =>
    obtain ⟨hb, hc⟩ | ⟨hb, hQ⟩ := hstep n s hI
    · exact wp_loopTrue hb (wp_mono hc fun t ht => ih ht)
    · exact wp_loopFalse hb hQ

/-- A loop that keeps `I` as long as its flag is not set, and is left when it is. -/
theorem wp_loopUntil {f : σ → Bool} (I : ℕ → σ → Prop) {n : ℕ} (hI : I n s)
    (hf : f s = false) (hend : ∀ t, I 0 t → f t = false → b t = false ∧ Q t)
    (hstep : ∀ m t, I (m + 1) t → f t = false →
      b t = true ∧ Wp c (fun u => f u = true ∧ Q u ∨ f u = false ∧ I m u) t) :
    Wp (.loop (fun t => b t && !f t) c) Q s := by
  refine wp_loop (fun m t => f t = true ∧ Q t ∨ f t = false ∧ I m t) (Or.inr ⟨hf, hI⟩) ?_ ?_
  · rintro t (⟨hf, hQ⟩ | ⟨hf, hI⟩)
    · exact ⟨by rw [hf]; exact Bool.and_false _, hQ⟩
    · obtain ⟨hb, hQ⟩ := hend t hI hf
      exact ⟨by rw [hb]; exact Bool.false_and _, hQ⟩
  · rintro m t (⟨hf, hQ⟩ | ⟨hf, hI⟩)
    · exact Or.inr ⟨by rw [hf]; exact Bool.and_false _, hQ⟩
    · obtain ⟨hb, hc⟩ := hstep m t hI hf
      exact Or.inl ⟨by rw [hb, hf]; rfl, hc⟩

/-- What is proved of a command holds of its execution. -/
theorem Wp.of_exec (h : Wp c Q s) {t : σ} (he : Exec c s t) : Q t := by
  obtain ⟨u, hu, hQ⟩ := h
  rwa [he.deterministic hu]

end Rules

end OsSim.Commands
