import OsSim.Commands
import OsSim.RunSteps
import Mathlib.Logic.Function.Basic

/-!
# Sections under a lock

Threads that call procedures on shared variables. Each procedure takes a lock, and some take
another one before it, works on the variables step by step and gives the locks back. In
whatever order the threads take their steps, the procedures have the effects and results of
calls that run alone, one behind the other in the order in which they give the lock back.
-/

namespace OsSim.LockedSections

open RunSteps Commands

variable {V L C R κ : Type}

/-- Procedures over variables `V` and local variables `L`, for calls `C` with results `R`. -/
structure Procedures (V L C R : Type) where
  /-- The work under the lock. -/
  body : C → Cmd (L × V)
  /-- The local variables at its start. -/
  enter : C → L
  /-- What is returned, by the local variables at its end. -/
  result : C → L → R
  /-- The procedure takes the outer lock first. -/
  outer : C → Bool

/-- Where a thread is. -/
inductive Phase (V L C : Type)
  /-- Between two calls. -/
  | idle
  /-- Before the outer lock. -/
  | atOuter (call : C)
  /-- Before the lock. -/
  | atLock (call : C)
  /-- Under the lock. -/
  | inside (call : C) (code : Cmd (L × V)) (locals : L)
  /-- Before it gives the outer lock back. -/
  | leaving

/-- The thread works on the variables. -/
def Phase.working : Phase V L C → Bool
  | .inside _ _ _ => true
  | _ => false

/-- The threads, the variables and the two locks. No step reads the last field. -/
structure Threads (V L C R κ : Type) where
  /-- The shared variables. -/
  vars : V
  /-- Who holds the lock. -/
  lock : Option κ
  /-- Who holds the outer lock. -/
  outerLock : Option κ
  /-- The threads. -/
  phase : κ → Phase V L C
  /-- The calls with their results, in the order in which they have given the lock back. -/
  history : List (κ × C × R)

/-- No call has begun. -/
def Threads.start (v : V) : Threads V L C R κ := ⟨v, none, none, fun _ => .idle, []⟩

/-- What a thread does. -/
inductive Action (C : Type)
  /-- Begin a call. -/
  | call (c : C)
  /-- Go on in a call. -/
  | go

variable [DecidableEq κ] (P : Procedures V L C R)

/-- A thread comes to another place. -/
def Threads.setPhase (s : Threads V L C R κ) (i : κ) (p : Phase V L C) : Threads V L C R κ :=
  {s with phase := Function.update s.phase i p}

/-- One step of a thread, if it is not waiting. -/
def threadStep (s : Threads V L C R κ) (i : κ) : Action C → Option (Threads V L C R κ)
  | .call c =>
    match s.phase i with
    | .idle => some (s.setPhase i (if P.outer c then .atOuter c else .atLock c))
    | _ => none
  | .go =>
    match s.phase i with
    | .idle => none
    | .atOuter c =>
      if s.outerLock.isNone then some ({s with outerLock := some i}.setPhase i (.atLock c))
      else none
    | .atLock c =>
      if s.lock.isNone then
        some ({s with lock := some i}.setPhase i (.inside c (P.body c) (P.enter c)))
      else none
    | .inside c code l =>
      match code.step (l, s.vars) with
      | some (code', l', v') => some ({s with vars := v'}.setPhase i (.inside c code' l'))
      | none =>
        some ({s with lock := none, history := s.history ++ [(i, c, P.result c l)]}.setPhase i
          (if P.outer c then .leaving else .idle))
    | .leaving => some ({s with outerLock := none}.setPhase i .idle)

/-- One step of the threads. -/
def ThreadStep (s : Threads V L C R κ) (a : κ × Action C) (s' : Threads V L C R κ) : Prop :=
  threadStep P s a.1 a.2 = some s'

/-- A call that runs alone, with its result. -/
def Atomic (v : V) (a : κ × C × R) (v' : V) : Prop :=
  ∃ l, Exec (P.body a.2.1) (P.enter a.2.1, v) (l, v') ∧ P.result a.2.1 l = a.2.2

/-- What a step of a thread can be. -/
inductive Moves (s : Threads V L C R κ) (i : κ) : Action C → Threads V L C R κ → Prop
  /-- The thread begins a call. -/
  | call {c : C} (h : s.phase i = .idle) :
      Moves s i (.call c) (s.setPhase i (if P.outer c then .atOuter c else .atLock c))
  /-- The thread takes the outer lock. -/
  | outer {c : C} (h : s.phase i = .atOuter c) (hfree : s.outerLock = none) :
      Moves s i .go ({s with outerLock := some i}.setPhase i (.atLock c))
  /-- The thread takes the lock. -/
  | lock {c : C} (h : s.phase i = .atLock c) (hfree : s.lock = none) :
      Moves s i .go ({s with lock := some i}.setPhase i (.inside c (P.body c) (P.enter c)))
  /-- The thread works on the variables. -/
  | access {c : C} {code code' : Cmd (L × V)} {l l' : L} {v' : V}
      (h : s.phase i = .inside c code l) (hstep : code.step (l, s.vars) = some (code', l', v')) :
      Moves s i .go ({s with vars := v'}.setPhase i (.inside c code' l'))
  /-- The thread gives the lock back. -/
  | give {c : C} {l : L} (h : s.phase i = .inside c .skip l) :
      Moves s i .go
        ({s with lock := none, history := s.history ++ [(i, c, P.result c l)]}.setPhase i
          (if P.outer c then .leaving else .idle))
  /-- The thread gives the outer lock back. -/
  | leave (h : s.phase i = .leaving) :
      Moves s i .go ({s with outerLock := none}.setPhase i .idle)

variable {P}

/-- Every step of a thread is one of its moves. -/
theorem threadStep_moves {s s' : Threads V L C R κ} {i : κ} {a : Action C}
    (hs : threadStep P s i a = some s') : Moves P s i a s' := by
  cases a with
  | call c =>
    dsimp only [threadStep] at hs
    split at hs
    · next h =>
      cases hs
      exact .call h
    · cases hs
  | go =>
    dsimp only [threadStep] at hs
    split at hs
    · cases hs
    · next c h =>
      split at hs
      · next hfree =>
        cases hs
        exact .outer h (Option.isNone_iff_eq_none.mp hfree)
      · cases hs
    · next c h =>
      split at hs
      · next hfree =>
        cases hs
        exact .lock h (Option.isNone_iff_eq_none.mp hfree)
      · cases hs
    · next c code l h =>
      split at hs
      · next hstep =>
        cases hs
        exact .access h hstep
      · next hnone =>
        cases hs
        obtain rfl := step_eq_none.mp hnone
        exact .give h
    · next h =>
      cases hs
      exact .leave h

/-- Every move of a thread is its step. -/
theorem Moves.threadStep {s s' : Threads V L C R κ} {i : κ} {a : Action C}
    (hs : Moves P s i a s') : threadStep P s i a = some s' := by
  cases hs with
  | call h => dsimp only [LockedSections.threadStep]; rw [h]
  | outer h hfree => dsimp only [LockedSections.threadStep]; rw [h, hfree]; rfl
  | lock h hfree => dsimp only [LockedSections.threadStep]; rw [h, hfree]; rfl
  | access h hstep => dsimp only [LockedSections.threadStep]; rw [h]; dsimp only; rw [hstep]
  | give h => dsimp only [LockedSections.threadStep]; rw [h]; rfl
  | leave h => dsimp only [LockedSections.threadStep]; rw [h]

/-! ## The invariant -/

variable (P) in
/-- What every step keeps; `v` is what the calls of the history have left. -/
structure SectionInv (s : Threads V L C R κ) (v : V) : Prop where
  /-- A thread that works on the variables holds the lock. -/
  owner : ∀ i c code l, s.phase i = .inside c code l → s.lock = some i
  /-- Nobody else has changed the variables. -/
  free : s.lock = none → s.vars = v
  /-- What is left of its work is what is left of a call that runs alone. -/
  work : ∀ i c code l, s.phase i = .inside c code l → ∀ l' v',
    Exec code (l, s.vars) (l', v') → Exec (P.body c) (P.enter c, v) (l', v')

/-- A step of a thread outside of its work that leaves the lock and the variables alone. -/
theorem SectionInv.move {s s' : Threads V L C R κ} {v : V} {i : κ} {p : Phase V L C}
    (h : SectionInv P s v) (hphase : s'.phase = Function.update s.phase i p)
    (hp : p.working = false) (hlock : s'.lock = s.lock)
    (hvars : s'.vars = s.vars) : SectionInv P s' v := by
  have hback : ∀ j c code l, s'.phase j = .inside c code l → s.phase j = .inside c code l := by
    intro j c code l hj
    rw [hphase] at hj
    by_cases hji : j = i
    · subst hji
      rw [Function.update_self] at hj
      rw [hj] at hp
      cases hp
    · rwa [Function.update_of_ne hji] at hj
  refine ⟨fun j c code l hj => ?_, ?_, fun j c code l hj => ?_⟩
  · rw [hlock]
    exact h.owner j c code l (hback j c code l hj)
  · rw [hlock, hvars]
    exact h.free
  · rw [hvars]
    exact h.work j c code l (hback j c code l hj)

omit [DecidableEq κ] in
/-- Nobody works on the variables when the lock is free. -/
theorem SectionInv.not_inside {s : Threads V L C R κ} {v : V} (h : SectionInv P s v)
    (hlock : s.lock = none) (i : κ) (c : C) (code : Cmd (L × V)) (l : L) :
    s.phase i ≠ .inside c code l := fun hi => by
  have howner := h.owner i c code l hi
  rw [hlock] at howner
  cases howner

omit [DecidableEq κ] in
/-- At most one thread works on the variables. -/
theorem SectionInv.eq_of_inside {s : Threads V L C R κ} {v : V} (h : SectionInv P s v) {i j : κ}
    {c d : C} {code code' : Cmd (L × V)} {l l' : L} (hi : s.phase i = .inside c code l)
    (hj : s.phase j = .inside d code' l') : j = i :=
  Option.some.inj ((h.owner j d code' l' hj).symm.trans (h.owner i c code l hi))

/-- A thread takes the lock: its work is a whole call. -/
theorem SectionInv.take {s : Threads V L C R κ} {v : V} (h : SectionInv P s v)
    (hlock : s.lock = none) (i : κ) (c : C) :
    SectionInv P ({s with lock := some i}.setPhase i (.inside c (P.body c) (P.enter c))) v where
  owner j d code l hj := by
    by_cases hji : j = i
    · rw [hji]
      rfl
    · have hj' := (Function.update_of_ne hji _ s.phase).symm.trans hj
      exact absurd hj' (h.not_inside hlock j d code l)
  free hnone := by cases hnone
  work j d code l hj l' v' he := by
    by_cases hji : j = i
    · subst hji
      obtain ⟨rfl, rfl, rfl⟩ := Phase.inside.inj ((Function.update_self j _ s.phase).symm.trans hj)
      change Exec (P.body c) (P.enter c, s.vars) (l', v') at he
      rwa [h.free hlock] at he
    · have hj' := (Function.update_of_ne hji _ s.phase).symm.trans hj
      exact absurd hj' (h.not_inside hlock j d code l)

/-- A thread works on the variables: the call has the same end. -/
theorem SectionInv.access {s : Threads V L C R κ} {v v' : V} (h : SectionInv P s v) {i : κ} {c : C}
    {code code' : Cmd (L × V)} {l l' : L} (hi : s.phase i = .inside c code l)
    (hstep : code.step (l, s.vars) = some (code', l', v')) :
    SectionInv P ({s with vars := v'}.setPhase i (.inside c code' l')) v where
  owner j d code₁ l₁ hj := by
    by_cases hji : j = i
    · rw [hji]
      exact h.owner i c code l hi
    · exact h.owner j d code₁ l₁ ((Function.update_of_ne hji _ s.phase).symm.trans hj)
  free hnone := by
    have howner := h.owner i c code l hi
    change s.lock = none at hnone
    rw [hnone] at howner
    cases howner
  work j d code₁ l₁ hj l₂ v₂ he := by
    by_cases hji : j = i
    · subst hji
      obtain ⟨rfl, rfl, rfl⟩ := Phase.inside.inj ((Function.update_self j _ s.phase).symm.trans hj)
      exact h.work j c code l hi l₂ v₂ (.of_step hstep he)
    · have hj' := (Function.update_of_ne hji _ s.phase).symm.trans hj
      exact absurd (h.eq_of_inside hi hj') hji

/-- A thread gives the lock back: the variables are as a whole call has left them. -/
theorem SectionInv.give {s : Threads V L C R κ} {v : V} (h : SectionInv P s v) {i : κ} {c : C}
    {l : L} (hi : s.phase i = .inside c .skip l) {p : Phase V L C}
    (hp : p.working = false) (history : List (κ × C × R)) :
    SectionInv P ({s with lock := none, history := history}.setPhase i p) s.vars ∧
      Atomic P v (i, c, P.result c l) s.vars := by
  refine ⟨⟨fun j d code l' hj => ?_, fun _ => rfl, fun j d code l' hj => ?_⟩,
    l, h.work i c .skip l hi l s.vars (.skip _), rfl⟩
  all_goals
    by_cases hji : j = i
    · subst hji
      rw [(Function.update_self j _ s.phase).symm.trans hj] at hp
      cases hp
    · have hj' := (Function.update_of_ne hji _ s.phase).symm.trans hj
      exact absurd (h.eq_of_inside hi hj') hji

/-- A step keeps the variables at what whole calls have left, and brings at most one call
into the history. -/
theorem SectionInv.step {s s' : Threads V L C R κ} {v : V} {i : κ} {a : Action C}
    (h : SectionInv P s v) (hs : Moves P s i a s') :
    SectionInv P s' v ∧ s'.history = s.history ∨
      ∃ b v', Atomic P v b v' ∧ SectionInv P s' v' ∧ s'.history = s.history ++ [b] := by
  cases hs with
  | call _ => exact Or.inl ⟨h.move rfl (by split <;> rfl) rfl rfl, rfl⟩
  | outer _ _ => exact Or.inl ⟨h.move rfl rfl rfl rfl, rfl⟩
  | lock _ hfree => exact Or.inl ⟨h.take hfree i _, rfl⟩
  | access hi hstep => exact Or.inl ⟨h.access hi hstep, rfl⟩
  | @give c l hi =>
    obtain ⟨hinv, hatomic⟩ := h.give hi
      (p := if P.outer c then .leaving else .idle) (by split <;> rfl) _
    exact Or.inr ⟨_, s.vars, hatomic, hinv, rfl⟩
  | leave _ => exact Or.inl ⟨h.move rfl rfl rfl rfl, rfl⟩

/-- The calls in the history, taken one by one, lead to variables on which the threads now
work. -/
def Serial (P : Procedures V L C R) (v₀ : V) (s : Threads V L C R κ) : Prop :=
  ∃ v, Run (Atomic P) v₀ s.history v ∧ SectionInv P s v

omit [DecidableEq κ] in
/-- At the start nobody works on the variables, and they are the initial ones. -/
theorem sectionInv_start (v₀ : V) : SectionInv P (Threads.start v₀ : Threads V L C R κ) v₀ :=
  ⟨fun _ _ _ _ h => (by cases h), fun _ => rfl, fun _ _ _ _ h => (by cases h)⟩

/-- Every step keeps the variables as the calls in the history, taken one by one, leave
them. -/
theorem serial_step {v₀ : V} {s s' : Threads V L C R κ} {a : κ × Action C} (h : Serial P v₀ s)
    (hs : ThreadStep P s a s') : Serial P v₀ s' := by
  obtain ⟨v, hrun, hinv⟩ := h
  obtain ⟨hinv', hhistory⟩ | ⟨b, v', hatomic, hinv', hhistory⟩ := hinv.step (threadStep_moves hs)
  · exact ⟨v, hhistory ▸ hrun, hinv'⟩
  · exact ⟨v', hhistory ▸ hrun.snoc hatomic, hinv'⟩

/-- The calls have the effects and results of calls that run alone, one behind the other. -/
theorem serial_of_reachable {v₀ : V} {s : Threads V L C R κ}
    (h : Reachable (fun s => s = Threads.start v₀) (ThreadStep P) s) : Serial P v₀ s :=
  h.invariant (Serial P v₀) (fun _ hs => hs ▸ ⟨v₀, .nil v₀, sectionInv_start v₀⟩) fun _ _ _ hi hs =>
    serial_step hi hs

end OsSim.LockedSections
