import OsSim.LockedSections
import Mathlib.Algebra.BigOperators.Group.Finset.Basic
import Mathlib.Algebra.Order.BigOperators.Group.Finset
import Mathlib.Data.Fintype.Basic
import Mathlib.Order.WellFounded

/-!
# Sections under a lock end

Every call that has begun returns, in whatever order the threads take their steps, when the
work of each procedure ends if it runs alone: as long as no call begins, the threads cannot
go on for ever, and they are only stuck when all of them are back from their calls.
-/

namespace OsSim.LockedProgress

open RunSteps Commands LockedSections

variable {V L C R κ : Type} [DecidableEq κ] (P : Procedures V L C R)

/-- A step of a thread in a call. -/
def GoStep (s : Threads V L C R κ) (i : κ) (s' : Threads V L C R κ) : Prop :=
  ThreadStep P s (i, .go) s'

/-- Every call that runs alone on variables that satisfy `J` ends, and leaves variables
that satisfy `J`. -/
def Total (J : V → Prop) : Prop :=
  ∀ v c, J v → ∃ l v', Exec (P.body c) (P.enter c, v) (l, v') ∧ J v'

/-- The thread has to give the outer lock back. -/
def holdsOuter : Phase V L C → Bool
  | .idle => false
  | .atOuter _ => false
  | .atLock c => P.outer c
  | .inside c _ _ => P.outer c
  | .leaving => true

/-! ## The invariant -/

omit [DecidableEq κ] in
/-- Who holds the locks, and that what is left of a work ends. -/
structure LocksInv (s : Threads V L C R κ) : Prop where
  /-- The lock is held by a thread that works. -/
  lock : ∀ i, s.lock = some i → (s.phase i).working = true
  /-- The outer lock is held by a thread that has to give it back. -/
  outer : ∀ i, s.outerLock = some i → holdsOuter P (s.phase i) = true
  /-- A thread that waits for the outer lock is in a call that needs it. -/
  asks : ∀ i c, s.phase i = .atOuter c → P.outer c = true
  /-- What is left of a work ends. -/
  ends : ∀ i c code l, s.phase i = .inside c code l → ∃ n u, EndsIn n code (l, s.vars) u

variable {P}

omit [DecidableEq κ] in
/-- At the start nobody holds a lock and nobody is inside of a call. -/
theorem locksInv_start (v : V) : LocksInv P (Threads.start v : Threads V L C R κ) :=
  ⟨fun _ h => (by cases h), fun _ h => (by cases h), fun _ _ h => (by cases h),
    fun _ _ _ _ h => (by cases h)⟩

/-- A work that goes on ends one step earlier. -/
theorem ends_step {σ : Type} {c c' : Cmd σ} {s s' : σ} (hstep : c.step s = some (c', s'))
    (h : ∃ n u, EndsIn n c s u) : ∃ n u, EndsIn n c' s' u := by
  obtain ⟨n, u, hn⟩ := h
  cases hn with
  | done => cases hstep
  | next hnext hrest =>
    cases hstep.symm.trans hnext
    exact ⟨_, u, hrest⟩

/-- One thread comes to another place; the others stay where they are. -/
theorem LocksInv.move {s s' : Threads V L C R κ} {i : κ} {p : Phase V L C} (h : LocksInv P s)
    (hphase : s'.phase = s.phase)
    (hvars : ∀ j c code l, j ≠ i → s.phase j = .inside c code l → s'.vars = s.vars)
    (hlock : s'.lock = some i → p.working = true)
    (hlocks : ∀ j, j ≠ i → s'.lock = some j → s.lock = some j)
    (houter : s'.outerLock = some i → holdsOuter P p = true)
    (houters : ∀ j, j ≠ i → s'.outerLock = some j → s.outerLock = some j)
    (hasks : ∀ c, p = .atOuter c → P.outer c = true)
    (hends : ∀ c code l, p = .inside c code l → ∃ n u, EndsIn n code (l, s'.vars) u) :
    LocksInv P (s'.setPhase i p) := by
  have hself : (s'.setPhase i p).phase i = p := Function.update_self _ _ _
  have hother : ∀ j, j ≠ i → (s'.setPhase i p).phase j = s.phase j := fun j hj => by
    rw [← hphase]
    exact Function.update_of_ne hj _ _
  constructor
  case lock =>
    intro j hj
    by_cases hji : j = i
    · subst hji
      rw [hself]
      exact hlock hj
    · rw [hother j hji]
      exact h.lock j (hlocks j hji hj)
  case outer =>
    intro j hj
    by_cases hji : j = i
    · subst hji
      rw [hself]
      exact houter hj
    · rw [hother j hji]
      exact h.outer j (houters j hji hj)
  case asks =>
    intro j c hj
    by_cases hji : j = i
    · subst hji
      exact hasks c (hself.symm.trans hj)
    · exact h.asks j c ((hother j hji).symm.trans hj)
  case ends =>
    intro j c code l hj
    by_cases hji : j = i
    · subst hji
      exact hends c code l (hself.symm.trans hj)
    · have hj' : s.phase j = .inside c code l := (hother j hji).symm.trans hj
      have hends' := h.ends j c code l hj'
      rwa [← hvars j c code l hji hj'] at hends'

/-- Every step of a thread keeps the locks in order. -/
theorem LocksInv.step {J : V → Prop} (hP : Total P J) {s s' : Threads V L C R κ} {v : V} {i : κ}
    {a : Action C} (h : LocksInv P s) (hinv : SectionInv P s v) (hJ : J v)
    (hs : Moves P s i a s') : LocksInv P s' := by
  -- a thread that holds a lock is not where it has none
  have hnolock : ∀ p, s.phase i = p → p.working = false → s.lock ≠ some i := by
    intro p hi hp hl
    have hw := h.lock i hl
    rw [hi, hp] at hw
    cases hw
  have hnoouter : ∀ p, s.phase i = p → holdsOuter P p = false → s.outerLock ≠ some i := by
    intro p hi hp ho
    have hw := h.outer i ho
    rw [hi, hp] at hw
    cases hw
  cases hs with
  | @call c hi =>
    refine h.move rfl (fun _ _ _ _ _ _ => rfl) (fun hl => absurd hl (hnolock _ hi rfl))
      (fun _ _ hl => hl) (fun ho => absurd ho (hnoouter _ hi rfl)) (fun _ _ ho => ho) ?_ ?_
    · intro c' hc'
      split at hc'
      · next hc => cases hc'; exact hc
      · cases hc'
    · intro c' code l hc'
      split at hc' <;> cases hc'
  | @outer c hi hfree =>
    exact h.move rfl (fun _ _ _ _ _ _ => rfl) (fun hl => absurd hl (hnolock _ hi rfl))
      (fun _ _ hl => hl) (fun _ => h.asks i c hi)
      (fun j hj ho => absurd (Option.some.inj ho).symm hj) (fun _ hc => by cases hc)
      fun _ _ _ hc => by cases hc
  | @lock c hi hfree =>
    refine h.move rfl (fun _ _ _ _ _ _ => rfl) (fun _ => rfl)
      (fun j hj hl => absurd (Option.some.inj hl).symm hj)
      (fun ho => ?_) (fun _ _ ho => ho) (fun _ hc => by cases hc) fun c' code l hc => ?_
    · have hw := h.outer i ho
      rwa [hi] at hw
    · cases hc
      obtain ⟨l', v', he, -⟩ := hP v c hJ
      rw [← hinv.free hfree] at he
      obtain ⟨n, hn⟩ := he.endsIn
      exact ⟨n, _, hn⟩
  | @access c code code' l l' v' hi hstep =>
    refine h.move rfl (fun j d code₁ l₁ hj hj' => absurd (hinv.eq_of_inside hi hj') hj)
      (fun _ => rfl) (fun _ _ hl => hl) (fun ho => ?_) (fun _ _ ho => ho)
      (fun _ hc => by cases hc) fun c' code₁ l₁ hc => ?_
    · have hw := h.outer i ho
      rwa [hi] at hw
    · cases hc
      exact ends_step hstep (h.ends i c code l hi)
  | @give c l hi =>
    refine h.move rfl (fun _ _ _ _ _ _ => rfl) (fun hl => by cases hl) (fun _ _ hl => by cases hl)
      (fun ho => ?_) (fun _ _ ho => ho) (fun c' hc => ?_) fun c' code l' hc => ?_
    · have hw := h.outer i ho
      rw [hi] at hw
      have hc : P.outer c = true := hw
      rw [if_pos hc]
      rfl
    · split at hc <;> cases hc
    · split at hc <;> cases hc
  | leave hi =>
    exact h.move rfl (fun _ _ _ _ _ _ => rfl) (fun hl => absurd hl (hnolock _ hi rfl))
      (fun _ _ hl => hl) (fun ho => by cases ho) (fun _ _ ho => by cases ho)
      (fun _ hc => by cases hc) fun _ _ _ hc => by cases hc

/-- What every step keeps, for variables that satisfy `J` between two calls. -/
def Sound (P : Procedures V L C R) (J : V → Prop) (s : Threads V L C R κ) : Prop :=
  ∃ v, J v ∧ SectionInv P s v ∧ LocksInv P s

omit [DecidableEq κ] in
/-- A whole call on variables that satisfy `J` leaves variables that satisfy `J`. -/
theorem Total.atomic {J : V → Prop} (hP : Total P J) {v v' : V} {a : κ × C × R} (hJ : J v)
    (h : Atomic P v a v') : J v' := by
  obtain ⟨l, he, -⟩ := h
  obtain ⟨l', v'', he', hJ'⟩ := hP v a.2.1 hJ
  cases he.deterministic he'
  exact hJ'

/-- Every step of a thread keeps locks and works sound. -/
theorem Sound.step {J : V → Prop} (hP : Total P J) {s s' : Threads V L C R κ} {i : κ}
    {a : Action C} (h : Sound P J s) (hs : Moves P s i a s') : Sound P J s' := by
  obtain ⟨v, hJ, hinv, hlocks⟩ := h
  have hlocks' := hlocks.step hP hinv hJ hs
  obtain ⟨hinv', -⟩ | ⟨b, v', hatomic, hinv', -⟩ := hinv.step hs
  · exact ⟨v, hJ, hinv', hlocks'⟩
  · exact ⟨v', hP.atomic hJ hatomic, hinv', hlocks'⟩

/-- Locks and works are sound in every reachable state. -/
theorem sound_of_reachable {J : V → Prop} (hP : Total P J) {v₀ : V} (hJ : J v₀)
    {s : Threads V L C R κ} (h : Reachable (fun s => s = Threads.start v₀) (ThreadStep P) s) :
    Sound P J s := by
  refine h.invariant (Sound P J) (fun s hs => ?_) fun s a s' hi hs =>
    hi.step hP (threadStep_moves hs)
  exact hs ▸ ⟨v₀, hJ, sectionInv_start v₀, locksInv_start v₀⟩

/-! ## Stuck threads -/

/-- Threads that are stuck are back from their calls. -/
theorem idle_of_stuck {J : V → Prop} {s : Threads V L C R κ} (h : Sound P J s)
    (hstuck : ∀ i s', ¬GoStep P s i s') (i : κ) : s.phase i = .idle := by
  obtain ⟨v, -, hinv, hlocks⟩ := h
  have hmoves : ∀ j s', ¬Moves P s j .go s' := fun j s' hs => hstuck j s' hs.threadStep
  have hinside : ∀ j c code l, s.phase j ≠ .inside c code l := by
    intro j c code l hj
    cases hstep : code.step (l, s.vars) with
    | some next => exact hmoves j _ (.access hj hstep)
    | none =>
      obtain rfl := step_eq_none.mp hstep
      exact hmoves j _ (.give hj)
  -- the lock is free, since its holder could go on
  have hlock : s.lock = none := by
    cases hl : s.lock with
    | none => rfl
    | some j =>
      have hw := hlocks.lock j hl
      cases hj : s.phase j with
      | inside c code l => exact absurd hj (hinside j c code l)
      | idle | atOuter | atLock | leaving =>
        rw [hj] at hw
        cases hw
  -- so is the outer lock
  have houter : s.outerLock = none := by
    cases ho : s.outerLock with
    | none => rfl
    | some j =>
      have hw := hlocks.outer j ho
      cases hj : s.phase j with
      | inside c code l => exact absurd hj (hinside j c code l)
      | atLock c => exact absurd (.lock hj hlock) (hmoves j _)
      | leaving => exact absurd (.leave hj) (hmoves j _)
      | idle | atOuter =>
        rw [hj] at hw
        cases hw
  cases hi : s.phase i with
  | idle => rfl
  | atOuter c => exact absurd (.outer hi houter) (hmoves i _)
  | atLock c => exact absurd (.lock hi hlock) (hmoves i _)
  | inside c code l => exact absurd hi (hinside i c code l)
  | leaving => exact absurd (.leave hi) (hmoves i _)

/-! ## Threads that go on -/

/-- The steps that a thread still takes outside of its work. -/
def phaseRest : Phase V L C → ℕ
  | .idle => 0
  | .leaving => 1
  | .inside _ _ _ => 2
  | .atLock _ => 3
  | .atOuter _ => 4

/-- The steps that all threads have left in their calls. -/
def rest [Fintype κ] (s : Threads V L C R κ) : ℕ := ∑ i, phaseRest (s.phase i)

/-- One thread comes to another place. -/
theorem rest_setPhase [Fintype κ] {s s' : Threads V L C R κ} {i : κ} {p : Phase V L C}
    (hphase : s'.phase = s.phase) :
    rest (s'.setPhase i p) + phaseRest (s.phase i) = rest s + phaseRest p := by
  have hself : (s'.setPhase i p).phase i = p := Function.update_self _ _ _
  have hothers : ∑ j ∈ Finset.univ.erase i, phaseRest ((s'.setPhase i p).phase j) =
      ∑ j ∈ Finset.univ.erase i, phaseRest (s.phase j) := by
    refine Finset.sum_congr rfl fun j hj => ?_
    rw [← hphase]
    exact congrArg phaseRest (Function.update_of_ne (Finset.ne_of_mem_erase hj) _ _)
  have hsum := Finset.add_sum_erase Finset.univ (fun j => phaseRest (s.phase j))
    (Finset.mem_univ i)
  have hsum' := Finset.add_sum_erase Finset.univ
    (fun j => phaseRest ((s'.setPhase i p).phase j)) (Finset.mem_univ i)
  rw [hself, hothers] at hsum'
  unfold rest
  omega

/-- A thread that comes to a place with fewer steps left has all threads come nearer to
their ends. -/
theorem rest_lt [Fintype κ] {s s' : Threads V L C R κ} {i : κ} {p : Phase V L C}
    (hphase : s'.phase = s.phase) (hp : phaseRest p < phaseRest (s.phase i)) :
    rest (s'.setPhase i p) < rest s := by
  have hrest := rest_setPhase (i := i) (p := p) hphase
  omega

/-- What is left of the work ends after so many steps. -/
def EndsBy (n : ℕ) (s : Threads V L C R κ) : Prop :=
  ∀ i c code l, s.phase i = .inside c code l → ∃ u, EndsIn n code (l, s.vars) u

omit [DecidableEq κ] in
/-- Some number is right for all threads, as at most one is at work. -/
theorem Sound.endsBy {J : V → Prop} {s : Threads V L C R κ} (h : Sound P J s) :
    ∃ n, EndsBy n s := by
  obtain ⟨v, -, hinv, hlocks⟩ := h
  by_cases hw : ∃ i c code l, s.phase i = .inside c code l
  · obtain ⟨i, c, code, l, hi⟩ := hw
    obtain ⟨n, u, hn⟩ := hlocks.ends i c code l hi
    refine ⟨n, fun j d code' l' hj => ?_⟩
    obtain rfl := hinv.eq_of_inside hi hj
    obtain ⟨rfl, rfl, rfl⟩ := Phase.inside.inj (hi.symm.trans hj)
    exact ⟨u, hn⟩
  · exact ⟨0, fun i c code l hi => absurd ⟨i, c, code, l, hi⟩ hw⟩

/-- A step leaves fewer steps outside of the work, or fewer of the work. -/
theorem go_decreases [Fintype κ] {J : V → Prop} {n : ℕ} {s s' : Threads V L C R κ} {i : κ}
    (h : Sound P J s) (hn : EndsBy n s) (hs : Moves P s i .go s') :
    rest s' < rest s ∨ rest s' = rest s ∧ ∃ m < n, EndsBy m s' := by
  cases hs with
  | outer hi _ => exact Or.inl (rest_lt rfl (hi ▸ Nat.lt_succ_self 3))
  | lock hi _ => exact Or.inl (rest_lt rfl (hi ▸ Nat.lt_succ_self 2))
  | give hi =>
    refine Or.inl (rest_lt rfl ?_)
    rw [hi]
    split
    · exact Nat.lt_succ_self 1
    · exact Nat.zero_lt_two
  | leave hi => exact Or.inl (rest_lt rfl (hi ▸ Nat.zero_lt_one))
  | @access c code code' l l' v' hi hstep =>
    have hrest : rest ({s with vars := v'}.setPhase i (.inside c code' l')) +
        phaseRest (s.phase i) = rest s + 2 := rest_setPhase rfl
    rw [hi] at hrest
    refine Or.inr ⟨Nat.add_right_cancel hrest, ?_⟩
    obtain ⟨u, hu⟩ := hn i c code l hi
    cases hu with
    | done => cases hstep
    | @next m _ _ _ _ _ hnext hends =>
      cases hstep.symm.trans hnext
      refine ⟨m, Nat.lt_succ_self m, fun j d code₁ l₁ hj => ?_⟩
      by_cases hji : j = i
      · subst hji
        obtain ⟨rfl, rfl, rfl⟩ :=
          Phase.inside.inj ((Function.update_self j _ s.phase).symm.trans hj)
        exact ⟨u, hends⟩
      · obtain ⟨v, -, hinv, -⟩ := h
        have hj' := (Function.update_of_ne hji _ s.phase).symm.trans hj
        exact absurd (hinv.eq_of_inside hi hj') hji

/-- As long as no call begins, the threads cannot go on for ever. -/
theorem acc_of_sound [Fintype κ] {J : V → Prop} (hP : Total P J) {s : Threads V L C R κ}
    (h : Sound P J s) : Acc (fun s' s => ∃ i, GoStep P s i s') s := by
  generalize hr : rest s = r
  induction r using Nat.strong_induction_on generalizing s with
  | _ r ihr =>
    obtain ⟨n, hn⟩ := h.endsBy
    induction n using Nat.strong_induction_on generalizing s with
    | _ n ihn =>
      refine .intro s fun s' ⟨i, hs⟩ => ?_
      have hmoves := threadStep_moves hs
      have h' := h.step hP hmoves
      obtain hlt | ⟨heq, m, hm, hends⟩ := go_decreases h hn hmoves
      · exact ihr (rest s') (hr ▸ hlt) h' rfl
      · exact ihn m hm h' (heq.trans hr) hends

/-- The calls that have begun return under any scheduling: without new calls the threads cannot
go on for ever, and when none of them can take a step, none is in a call. -/
def Returns (P : Procedures V L C R) (s : Threads V L C R κ) : Prop :=
  (∀ f : ℕ → Threads V L C R κ, f 0 = s → ¬∀ n, ∃ i, GoStep P (f n) i (f (n + 1))) ∧
    ∀ is t, Run (GoStep P) s is t → (∀ i t', ¬GoStep P t i t') → ∀ i, t.phase i = .idle

/-- Procedures that end when they run alone return. -/
theorem returns_of_reachable [Fintype κ] {J : V → Prop} (hP : Total P J) {v₀ : V} (hJ : J v₀)
    {s : Threads V L C R κ} (h : Reachable (fun s => s = Threads.start v₀) (ThreadStep P) s) :
    Returns P s := by
  have hsound := sound_of_reachable hP hJ h
  refine ⟨fun f hf hchain => ?_, fun is t hrun hstuck i => ?_⟩
  · have hacc := acc_iff_isEmpty_descending_chain.mp (acc_of_sound hP hsound)
    exact hacc.false ⟨f, hf, hchain⟩
  · have hsound' := hrun.invariant (Sound P J)
      (fun s i t hs hstep => hs.step hP (threadStep_moves hstep)) hsound
    exact idle_of_stuck hsound' hstuck i

end OsSim.LockedProgress
