import Mathlib.Logic.Function.Basic

/-!
# Blocks under a mutex with a condition variable

Two shapes of a block between `pthread_mutex_lock` and `pthread_mutex_unlock`: one
waits in a loop until a condition holds, and one makes a condition true and signals
it. Every call and every access in between is a step of its own.
-/

namespace OsSim.MutexBlocks

variable {ω : Type*}

/-- Where a thread is in a block that waits. -/
inductive WaitPhase
  /-- Before `pthread_mutex_lock`. -/
  | enter
  /-- Before a test of the condition. -/
  | test
  /-- Asleep in `pthread_cond_wait`, which has given the mutex back. -/
  | asleep
  /-- Woken in `pthread_cond_wait`, which has not got the mutex yet. -/
  | woken
  /-- Behind the loop. -/
  | body
  /-- Before `pthread_mutex_unlock`. -/
  | leave
  deriving DecidableEq

/-- Where a thread is in a block that signals. -/
inductive SetPhase
  /-- Before `pthread_mutex_lock`. -/
  | enter
  /-- Before the assignment. -/
  | body
  /-- Before `pthread_cond_signal`. -/
  | signal
  /-- Before `pthread_mutex_unlock`. -/
  | leave
  deriving DecidableEq

/-- The thread has the mutex. -/
def WaitPhase.holds : WaitPhase → Bool
  | .test | .body | .leave => true
  | .enter | .asleep | .woken => false

/-- The thread has the mutex. -/
def SetPhase.holds : SetPhase → Bool
  | .body | .signal | .leave => true
  | .enter => false

/-- `pthread_mutex_lock` on a mutex with this owner; none while another thread has it. -/
def acquire (me : ω) : Option ω → Option (Option ω)
  | none => some (some me)
  | some _ => none

/-- The next step of a waiting block, with the phase and the owner of the mutex behind
it; no phase is the end of the block, and no step a wait. -/
def WaitPhase.next (me : ω) (condition : Bool) (owner : Option ω) :
    WaitPhase → Option (Option WaitPhase × Option ω)
  | .enter | .woken => (acquire me owner).map fun owner => (some .test, owner)
  | .test => some (if condition then (some .body, owner) else (some .asleep, none))
  | .asleep => none
  | .body => some (some .leave, owner)
  | .leave => some (none, none)

/-- The next step of a signalling block. -/
def SetPhase.next (me : ω) (owner : Option ω) : SetPhase → Option (Option SetPhase × Option ω)
  | .enter => (acquire me owner).map fun owner => (some .body, owner)
  | .body => some (some .signal, owner)
  | .signal => some (some .leave, owner)
  | .leave => some (none, none)

/-- What `pthread_cond_signal` or a spurious wakeup does to the thread that waits. -/
def WaitPhase.wake : WaitPhase → WaitPhase
  | .asleep => .woken
  | phase => phase

/-- A thread that may be in the block and may be woken. -/
def wakeIf (p : Prop) [Decidable p] (phase : Option WaitPhase) : Option WaitPhase :=
  if p then phase.map WaitPhase.wake else phase

/-- A wakeup gives nobody the mutex. -/
@[simp] theorem any_holds_wakeIf (p : Prop) [Decidable p] (phase : Option WaitPhase) :
    (wakeIf p phase).any WaitPhase.holds = phase.any WaitPhase.holds := by
  unfold wakeIf
  split
  · rcases phase with _ | phase
    · rfl
    · cases phase <;> rfl
  · rfl

/-- A spurious wakeup leads nobody out of the waiting loop. -/
@[simp] theorem wakeIf_eq_body {p : Prop} [Decidable p] {phase : Option WaitPhase} :
    wakeIf p phase = some .body ↔ phase = some .body := by
  unfold wakeIf
  split
  · rcases phase with _ | phase
    · rfl
    · cases phase <;> simp [WaitPhase.wake]
  · rfl

/-- Who is still asleep has been asleep before, and was not woken. -/
theorem wakeIf_eq_asleep {p : Prop} [Decidable p] {phase : Option WaitPhase} :
    wakeIf p phase = some .asleep ↔ ¬p ∧ phase = some .asleep := by
  unfold wakeIf
  split
  · next hp =>
    rcases phase with _ | phase
    · simp
    · cases phase <;> simp [WaitPhase.wake, hp]
  · next hp => simp [hp]

/-! ## Who has the mutex -/

/-- A thread has the mutex in the phases that say so. -/
def Owns (me : ω) (owner : Option ω) (holds : Bool) : Prop := owner = some me ↔ holds = true

/-- Only a free mutex is acquired. -/
theorem acquire_eq_some {me : ω} {owner owner' : Option ω} :
    acquire me owner = some owner' ↔ owner = none ∧ owner' = some me := by
  cases owner <;> simp [acquire, eq_comm]

/-- The steps of a waiting block, one for each phase. -/
theorem WaitPhase.next_cases {me : ω} {condition : Bool} {owner : Option ω} {phase : WaitPhase}
    {r : Option WaitPhase × Option ω} (h : phase.next me condition owner = some r) :
    ((phase = .enter ∨ phase = .woken) ∧ owner = none ∧ r = (some .test, some me)) ∨
    (phase = .test ∧ condition = true ∧ r = (some .body, owner)) ∨
    (phase = .test ∧ condition = false ∧ r = (some .asleep, none)) ∨
    (phase = .body ∧ r = (some .leave, owner)) ∨ (phase = .leave ∧ r = (none, none)) := by
  cases phase with
  | enter =>
    obtain ⟨owner', hacq, rfl⟩ := Option.map_eq_some_iff.mp h
    obtain ⟨hfree, rfl⟩ := acquire_eq_some.mp hacq
    exact Or.inl ⟨Or.inl rfl, hfree, rfl⟩
  | woken =>
    obtain ⟨owner', hacq, rfl⟩ := Option.map_eq_some_iff.mp h
    obtain ⟨hfree, rfl⟩ := acquire_eq_some.mp hacq
    exact Or.inl ⟨Or.inr rfl, hfree, rfl⟩
  | test =>
    obtain rfl := Option.some.inj h
    cases condition with
    | false => exact Or.inr (Or.inr (Or.inl ⟨rfl, rfl, rfl⟩))
    | true => exact Or.inr (Or.inl ⟨rfl, rfl, rfl⟩)
  | asleep => cases h
  | body =>
    obtain rfl := Option.some.inj h
    exact Or.inr (Or.inr (Or.inr (Or.inl ⟨rfl, rfl⟩)))
  | leave =>
    obtain rfl := Option.some.inj h
    exact Or.inr (Or.inr (Or.inr (Or.inr ⟨rfl, rfl⟩)))

/-- The steps of a signalling block. -/
theorem SetPhase.next_cases {me : ω} {owner : Option ω} {phase : SetPhase}
    {r : Option SetPhase × Option ω} (h : phase.next me owner = some r) :
    (phase = .enter ∧ owner = none ∧ r = (some .body, some me)) ∨
    (phase = .body ∧ r = (some .signal, owner)) ∨ (phase = .signal ∧ r = (some .leave, owner)) ∨
    (phase = .leave ∧ r = (none, none)) := by
  cases phase with
  | enter =>
    obtain ⟨owner', hacq, rfl⟩ := Option.map_eq_some_iff.mp h
    obtain ⟨hfree, rfl⟩ := acquire_eq_some.mp hacq
    exact Or.inl ⟨rfl, hfree, rfl⟩
  | body =>
    obtain rfl := Option.some.inj h
    exact Or.inr (Or.inl ⟨rfl, rfl⟩)
  | signal =>
    obtain rfl := Option.some.inj h
    exact Or.inr (Or.inr (Or.inl ⟨rfl, rfl⟩))
  | leave =>
    obtain rfl := Option.some.inj h
    exact Or.inr (Or.inr (Or.inr ⟨rfl, rfl⟩))

/-- The thread keeps track of its mutex. -/
theorem WaitPhase.next_owns {me : ω} {condition : Bool} {owner : Option ω} {phase : WaitPhase}
    {r : Option WaitPhase × Option ω} (h : phase.next me condition owner = some r)
    (ho : Owns me owner phase.holds) : Owns me r.2 (r.1.any WaitPhase.holds) := by
  unfold Owns at *
  obtain ⟨_, _, rfl⟩ | ⟨rfl, _, rfl⟩ | ⟨rfl, _, rfl⟩ | ⟨rfl, rfl⟩ | ⟨rfl, rfl⟩ := next_cases h
  · simp [holds]
  · simpa [holds] using ho
  · simp [holds]
  · simpa [holds] using ho
  · simp

/-- Through a signalling block a thread owns the lock exactly while its place says so. -/
theorem SetPhase.next_owns {me : ω} {owner : Option ω} {phase : SetPhase}
    {r : Option SetPhase × Option ω} (h : phase.next me owner = some r)
    (ho : Owns me owner phase.holds) : Owns me r.2 (r.1.any SetPhase.holds) := by
  unfold Owns at *
  obtain ⟨rfl, _, rfl⟩ | ⟨rfl, rfl⟩ | ⟨rfl, rfl⟩ | ⟨rfl, rfl⟩ := next_cases h
  · simp [holds]
  · simpa [holds] using ho
  · simpa [holds] using ho
  · simp

/-- A thread takes the mutex from nobody else, and gives back its own only. -/
theorem WaitPhase.next_frame {me other : ω} (hne : other ≠ me) {condition : Bool}
    {owner : Option ω} {phase : WaitPhase} {r : Option WaitPhase × Option ω}
    (h : phase.next me condition owner = some r) (ho : Owns me owner phase.holds) {holds : Bool}
    (hother : Owns other owner holds) : Owns other r.2 holds := by
  unfold Owns at *
  obtain ⟨_, rfl, rfl⟩ | ⟨rfl, _, rfl⟩ | ⟨rfl, _, rfl⟩ | ⟨rfl, rfl⟩ | ⟨rfl, rfl⟩ := next_cases h
  · simpa [hne.symm] using hother
  · exact hother
  · obtain rfl := ho.mpr rfl
    simpa [hne.symm] using hother
  · exact hother
  · obtain rfl := ho.mpr rfl
    simpa [hne.symm] using hother

/-- A step in a signalling block leaves the owner right for every other thread. -/
theorem SetPhase.next_frame {me other : ω} (hne : other ≠ me) {owner : Option ω}
    {phase : SetPhase} {r : Option SetPhase × Option ω} (h : phase.next me owner = some r)
    (ho : Owns me owner phase.holds) {holds : Bool} (hother : Owns other owner holds) :
    Owns other r.2 holds := by
  unfold Owns at *
  obtain ⟨rfl, rfl, rfl⟩ | ⟨rfl, rfl⟩ | ⟨rfl, rfl⟩ | ⟨rfl, rfl⟩ := next_cases h
  · simpa [hne.symm] using hother
  · exact hother
  · exact hother
  · obtain rfl := ho.mpr rfl
    simpa [hne.symm] using hother

/-- A thread that is not asleep goes on, unless it waits for a mutex that another thread
has. -/
theorem WaitPhase.isSome_next (me : ω) (condition : Bool) {owner : Option ω} {phase : WaitPhase}
    (hawake : phase ≠ .asleep) (hfree : phase.holds = false → owner = none) :
    (phase.next me condition owner).isSome = true := by
  cases phase with
  | enter => rw [hfree rfl]; rfl
  | woken => rw [hfree rfl]; rfl
  | asleep => exact absurd rfl hawake
  | test => rfl
  | body => rfl
  | leave => rfl

/-- A thread in a signalling block can go on unless it waits for the lock. -/
theorem SetPhase.isSome_next (me : ω) {owner : Option ω} {phase : SetPhase}
    (hfree : phase.holds = false → owner = none) : (phase.next me owner).isSome = true := by
  cases phase with
  | enter => rw [hfree rfl]; rfl
  | body => rfl
  | signal => rfl
  | leave => rfl

end OsSim.MutexBlocks
