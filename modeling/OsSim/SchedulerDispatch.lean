import OsSim.SchedulerStarvation

/-!
# Which process is dispatched

The scan of `get_mlq_proc` starts at `current_prio` and goes round once. No
queue it meets has used up its slots, so it stops at the first nonempty one, and
only a queue that the current round has already passed can be overlooked in
favour of a lower priority.
-/

namespace OsSim.SchedulerDispatch

open SchedulerQueue SchedulerMlq SchedulerStarvation RunSteps

variable {α : Type*} {pid prio : α → BitVec 32}

/-- Queue `p` is the first nonempty one in cyclic order from position `i`. -/
structure FirstFrom (s : Sched α) (i p : Fin 140) : Prop where
  /-- Queue `p` has a process. -/
  nonempty : (s.mlqReadyQueue p).toList ≠ []
  /-- The queues on the way to it have none. -/
  before : ∀ j : Fin 140, j - i < p - i → (s.mlqReadyQueue j).toList = []

/-- The first nonempty queue from the next position is the first one from an empty queue. -/
theorem FirstFrom.back {s : Sched α} {i p : Fin 140} (h : FirstFrom s (i + 1) p)
    (hi : (s.mlqReadyQueue i).toList = []) : FirstFrom s i p := by
  have hip : i ≠ p := fun he => h.nonempty (he ▸ hi)
  have hp := val_sub_succ hip
  refine ⟨h.nonempty, fun j hj => ?_⟩
  by_cases hij : i = j
  · rw [← hij]
    exact hi
  · have hj' := val_sub_succ hij
    rw [Fin.lt_def] at hj
    exact h.before j (by rw [Fin.lt_def]; omega)

/-- A scan finds the first nonempty queue among those it meets, and no process
only if all of them are empty. -/
theorem scan_first (n : ℕ) (i : Fin 140) {s : Sched α} (hs : ∀ i, s.currentSlot i < slot i) :
    ((scan n i s).1 = none ∧ (scan n i s).2.mlqReadyQueue = s.mlqReadyQueue ∧
      ∀ j : Fin 140, (j - i : Fin 140) < n → (s.mlqReadyQueue j).toList = []) ∨
    ∃ a p, (scan n i s).1 = some a ∧ FirstFrom s i p ∧ Dispatched s (scan n i s).2 a p := by
  induction n generalizing i s with
  | zero => exact Or.inl ⟨rfl, rfl, fun j hj => absurd hj (Nat.not_lt_zero _)⟩
  | succ n ih =>
    rcases scan_succ n i s with ⟨a, q, hl, _, he⟩ | ⟨hskip, he⟩
    · rw [he]
      refine Or.inr ⟨a, i, rfl, ⟨?_, fun j hj => ?_⟩, ?_, fun j hj => ?_,
        dispatch_runningList s i a q⟩
      · rw [hl]
        exact List.cons_ne_nil _ _
      · rw [Fin.sub_self] at hj
        exact absurd hj (Nat.not_lt_zero _)
      · dsimp only
        rw [dispatch_mlqReadyQueue, Function.update_self]
        exact hl
      · dsimp only
        rw [dispatch_mlqReadyQueue, Function.update_of_ne hj]
    · -- no quota is used up, so the queue at `i` is empty
      have hempty := hskip.resolve_right (Nat.not_le.mpr (hs i))
      have hqueues := wrap_mlqReadyQueue s (i + 1)
      rw [he]
      rcases ih (i + 1) (wrap_slots hs (i + 1)) with ⟨h1, h2, h3⟩ | ⟨a, p, h1, hf, hd⟩
      · rw [hqueues] at h2 h3
        refine Or.inl ⟨h1, h2, fun j hj => ?_⟩
        by_cases hij : i = j
        · rw [← hij]
          exact hempty
        · have hnear := val_sub_succ hij
          exact h3 j (by omega)
      · obtain ⟨hn, hb⟩ := hf
        obtain ⟨hh, ho, hr⟩ := hd
        rw [hqueues] at hn hh ho
        simp only [hqueues] at hb
        rw [wrap_runningList] at hr
        exact Or.inr ⟨a, p, h1, FirstFrom.back ⟨hn, hb⟩ hempty, hh, ho, hr⟩

/-- `get_proc` finds the first nonempty queue from `current_prio`. -/
theorem getMlqProc_first {s : Sched α} (hs : ∀ i, s.currentSlot i < slot i) :
    ((getMlqProc s).1 = none ∧ (getMlqProc s).2.mlqReadyQueue = s.mlqReadyQueue ∧
      ∀ i, (s.mlqReadyQueue i).toList = []) ∨
    ∃ a p, (getMlqProc s).1 = some a ∧ FirstFrom s s.currentPrio p ∧
      Dispatched s (getMlqProc s).2 a p := by
  refine (scan_first maxPrio s.currentPrio hs).imp_left fun ⟨h1, h2, h3⟩ => ?_
  exact ⟨h1, h2, fun i => h3 i (Fin.isLt _)⟩

/-! ## No ready process is overlooked -/

/-- In every reachable state `get_proc` returns nothing only when nothing is
ready, and otherwise the head of the first nonempty queue from `current_prio`. -/
theorem getMlqProc_work_conserving {s : Sched α}
    (h : Reachable (fun s => s = initScheduler) (CallStep pid prio) s) :
    (s.currentPrio : ℕ) < maxPrio ∧ (∀ i, s.currentSlot i < slot i) ∧
      ((getMlqProc s).1 = none ↔ ∀ i, (s.mlqReadyQueue i).toList = []) ∧
      ((getMlqProc s).1 = none → (getMlqProc s).2.mlqReadyQueue = s.mlqReadyQueue) ∧
      ∀ a, (getMlqProc s).1 = some a →
        ∃ p, FirstFrom s s.currentPrio p ∧ Dispatched s (getMlqProc s).2 a p := by
  have hs := (slotInv_of_reachable h).slots
  refine ⟨s.currentPrio.isLt, hs, ?_⟩
  rcases getMlqProc_first hs with ⟨h1, h2, h3⟩ | ⟨a, p, h1, hf, hd⟩
  · refine ⟨⟨fun _ => h3, fun _ => h1⟩, fun _ => h2, fun a ha => ?_⟩
    rw [h1] at ha
    cases ha
  · rw [h1]
    have hne : ¬some a = none := Option.some_ne_none a
    refine ⟨⟨fun h => absurd h hne, fun h => absurd (h p) hf.nonempty⟩, fun h => absurd h hne, ?_⟩
    rintro b ⟨⟩
    exact ⟨p, hf, hd⟩

/-- Queues 139 and 0 have a process each, and the two slots of queue 138 are used up. -/
def roundPassed : Sched ℕ :=
  let s := addMlqProc byNumber initScheduler 138
  let s := putMlqProc byNumber byNumber (getMlqProc s).2 138
  addMlqProc byNumber (addMlqProc byNumber (getMlqProc s).2 139) 0

set_option maxRecDepth 4000 in
/-- A scheduler reaches the state in which the round has passed queue 0. -/
theorem roundPassed_reachable :
    Reachable (fun s => s = initScheduler) (CallStep byNumber byNumber) roundPassed :=
  ⟨initScheduler, [.add 138, .get (some 138), .put 138, .get (some 138), .add 139, .add 0], rfl,
    .cons rfl (.cons rfl (.cons rfl (.cons rfl (.cons rfl (.cons rfl (.nil _))))))⟩

set_option maxRecDepth 4000 in
/-- The process of priority 139 is dispatched once the round has passed queue 0. -/
theorem roundPassed_get :
    getMlqProc roundPassed = (some 139, (getMlqProc roundPassed).2) := rfl

set_option maxRecDepth 4000 in
/-- With two queues that have a process, the one dispatched is the head of the first of them
from `current_prio`. -/
theorem getMlqProc_work_conserving_roundPassed :
    Reachable (fun s => s = initScheduler) (CallStep byNumber byNumber) roundPassed ∧
      (roundPassed.mlqReadyQueue 0).toList = [0] ∧
      (roundPassed.mlqReadyQueue 139).toList = [139] ∧
      (getMlqProc roundPassed).1 = some 139 ∧
      ∃ p, FirstFrom roundPassed roundPassed.currentPrio p ∧
        Dispatched roundPassed (getMlqProc roundPassed).2 139 p := by
  obtain ⟨-, -, -, -, hdispatch⟩ := getMlqProc_work_conserving roundPassed_reachable
  have hget : (getMlqProc roundPassed).1 = some 139 := congrArg Prod.fst roundPassed_get
  exact ⟨roundPassed_reachable, rfl, rfl, hget, hdispatch 139 hget⟩

/-! ## Higher priorities first -/

/-- Queue `q` has a process and slots left in the current round. -/
def Eligible (s : Sched α) (q : Fin 140) : Prop :=
  (s.mlqReadyQueue q).toList ≠ [] ∧ s.currentSlot q < slot q

/-- The first queue from position `i` is behind a nonempty one of higher priority
only when that one lies before `i` and itself does not. -/
theorem FirstFrom.lt_iff {s : Sched α} {i p q : Fin 140} (h : FirstFrom s i p)
    (hq : (s.mlqReadyQueue q).toList ≠ []) : q < p ↔ q < i ∧ i ≤ p := by
  have hfirst : ¬ q - i < p - i := fun hlt => hq (h.before q hlt)
  have hi := i.isLt
  have hp := p.isLt
  have hq := q.isLt
  rw [Fin.lt_def, Fin.val_sub, Fin.val_sub] at hfirst
  simp only [Fin.lt_def, Fin.le_def]
  omega

/-- The queues of higher priority that a dispatch overlooks are those the round
has passed: they lie before `current_prio`, and the dispatched process does not. -/
theorem getMlqProc_overlooked {s s' : Sched α} {a : α}
    (h : Reachable (fun s => s = initScheduler) (CallStep pid prio) s)
    (hget : getMlqProc s = (some a, s')) (q : Fin 140) :
    ((q : ℕ) < (prio a).toNat ∧ Eligible s q) ↔
      (q < s.currentPrio ∧ (s.currentPrio : ℕ) ≤ (prio a).toNat ∧ Eligible s q) := by
  have hI := slotInv_of_reachable h
  rcases getMlqProc_first hI.slots with ⟨h1, _⟩ | ⟨b, p, h1, hf, hd⟩
  · rw [hget] at h1
    exact nomatch h1
  · rw [hget] at h1 hd
    cases h1
    have hp : (prio a).toNat = p := hI.members p a (by rw [hd.head]; exact List.mem_cons_self)
    rw [hp]
    constructor
    · rintro ⟨hlt, hq⟩
      obtain ⟨hqi, hip⟩ := (hf.lt_iff hq.1).mp hlt
      exact ⟨hqi, hip, hq⟩
    · rintro ⟨hqi, hip, hq⟩
      exact ⟨(hf.lt_iff hq.1).mpr ⟨hqi, hip⟩, hq⟩

set_option maxRecDepth 4000 in
/-- Priority 0 is ready and has all its slots once the round has passed its queue. -/
theorem roundPassed_eligible : Eligible roundPassed 0 := by
  have hlist : (roundPassed.mlqReadyQueue 0).toList = [0] := rfl
  have hslot : roundPassed.currentSlot 0 < slot 0 := by decide
  refine ⟨?_, hslot⟩
  rw [hlist]
  exact List.cons_ne_nil _ _

/-- A ready process of priority 0 with slots left is overlooked for one of priority 139. -/
theorem priority_not_first : ¬ ∀ (s s' : Sched ℕ) (a : ℕ),
    Reachable (fun s => s = initScheduler) (CallStep byNumber byNumber) s →
      getMlqProc s = (some a, s') →
        ∀ q : Fin 140, (q : ℕ) < (byNumber a).toNat → ¬ Eligible s q := by
  intro h
  exact h _ _ _ roundPassed_reachable roundPassed_get 0 (by decide) roundPassed_eligible

/-- The queue that is overlooked is one that the round has passed. -/
theorem getMlqProc_overlooked_zero : ∃ (s s' : Sched ℕ) (a : ℕ),
    Reachable (fun s => s = initScheduler) (CallStep byNumber byNumber) s ∧
      getMlqProc s = (some a, s') ∧
        (((0 : Fin 140) : ℕ) < (byNumber a).toNat ∧ Eligible s 0 ↔
          0 < s.currentPrio ∧ (s.currentPrio : ℕ) ≤ (byNumber a).toNat ∧ Eligible s 0) :=
  ⟨_, _, _, roundPassed_reachable, roundPassed_get,
    getMlqProc_overlooked roundPassed_reachable roundPassed_get 0⟩

end OsSim.SchedulerDispatch
