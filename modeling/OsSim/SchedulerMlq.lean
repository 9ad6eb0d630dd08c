import OsSim.SchedulerQueue
import Mathlib.Data.Fin.Basic
import Mathlib.Data.List.FinRange

/-!
# Multilevel queue scheduler

One ready queue for each of the 140 priorities, the list of dispatched
processes, and the dispatch scan with its slot counters. Each operation runs
under the scheduler's lock and is one atomic function here. A process is any
type with a pid and a priority.
-/

namespace OsSim.SchedulerMlq

open SchedulerQueue

variable {α : Type*}

/-- `MAX_PRIO`. -/
def maxPrio : ℕ := 140

/-- `slot[prio]`, as `init_scheduler` fills it. -/
def slot (prio : Fin 140) : ℕ := maxPrio - prio

/-- The static variables of the scheduler. An index outside a table cannot be
built. -/
structure Sched (α : Type*) where
  /-- `running_list`. -/
  runningList : Queue α
  /-- `mlq_ready_queue`. -/
  mlqReadyQueue : Fin 140 → Queue α
  /-- `current_slot`. -/
  currentSlot : Fin 140 → ℕ
  /-- `current_prio`. -/
  currentPrio : Fin 140

/-- `init_scheduler`. -/
def initScheduler : Sched α := ⟨Queue.init, fun _ => Queue.init, fun _ => 0, 0⟩

/-- The dispatch of `proc`, which has just left queue `prio` as `q`. -/
def dispatch (s : Sched α) (prio : Fin 140) (proc : α) (q : Queue α) : Sched α :=
  let s := {s with
    mlqReadyQueue := Function.update s.mlqReadyQueue prio q
    currentSlot := Function.update s.currentSlot prio (s.currentSlot prio + 1)
    runningList := enqueue s.runningList proc}
  if slot prio ≤ s.currentSlot prio then
    {s with currentSlot := Function.update s.currentSlot prio 0, currentPrio := prio + 1}
  else s

/-- The counters when the scan has moved on to `prio`: a new round starts at 0. -/
def wrap (s : Sched α) (prio : Fin 140) : Sched α :=
  if prio = 0 then {s with currentSlot := fun _ => 0, currentPrio := 0} else s

/-- The loop of `get_mlq_proc`, for the attempts left. -/
def scan : ℕ → Fin 140 → Sched α → Option α × Sched α
  | 0, _, s => (none, s)
  | n + 1, prio, s =>
    if empty (s.mlqReadyQueue prio) = false ∧ s.currentSlot prio < slot prio then
      match dequeue (s.mlqReadyQueue prio) with
      | (some proc, q) => (some proc, dispatch s prio proc q)
      | (none, _) => scan n (prio + 1) (wrap s (prio + 1))
    else scan n (prio + 1) (wrap s (prio + 1))

/-- `get_mlq_proc`. -/
def getMlqProc (s : Sched α) : Option α × Sched α := scan maxPrio s.currentPrio s

variable (pid prio : α → BitVec 32)

/-- The comparison `pid == proc->pid`. -/
def samePid (x : BitVec 32) (a : α) : Bool := pid a = x

/-- `finish_proc`. -/
def finishProc (s : Sched α) (proc : α) : Sched α :=
  {s with runningList := (purgequeue s.runningList (samePid pid (pid proc))).2}

/-- Insertion into the ready queue of the process's priority; an invalid priority
is skipped. -/
def enqueueReady (s : Sched α) (proc : α) : Sched α :=
  if h : (prio proc).toNat < 140 then
    let i : Fin 140 := ⟨(prio proc).toNat, h⟩
    {s with mlqReadyQueue := Function.update s.mlqReadyQueue i (enqueue (s.mlqReadyQueue i) proc)}
  else s

/-- `put_mlq_proc`. -/
def putMlqProc (s : Sched α) (proc : α) : Sched α :=
  enqueueReady prio (finishProc pid s proc) proc

/-- `add_mlq_proc`. -/
def addMlqProc (s : Sched α) (proc : α) : Sched α := enqueueReady prio s proc

/-- `find_process_by_pid`: the running list first, then the ready queues in
order of priority. -/
def findProcessByPid (s : Sched α) (x : BitVec 32) : Option α :=
  match findProc s.runningList (samePid pid x) with
  | some proc => some proc
  | none => (List.finRange 140).findSome? fun i => findProc (s.mlqReadyQueue i) (samePid pid x)

/-! ## What the scan does to queues and lists -/

@[simp] theorem dispatch_runningList (s : Sched α) (i : Fin 140) (a : α) (q : Queue α) :
    (dispatch s i a q).runningList = enqueue s.runningList a := by
  dsimp only [dispatch]
  split <;> rfl

@[simp] theorem dispatch_mlqReadyQueue (s : Sched α) (i : Fin 140) (a : α) (q : Queue α) :
    (dispatch s i a q).mlqReadyQueue = Function.update s.mlqReadyQueue i q := by
  dsimp only [dispatch]
  split <;> rfl

/-- A dispatch uses one slot of its queue; the last one resets the counter and
moves the scan on. -/
theorem dispatch_counters (s : Sched α) (i : Fin 140) (a : α) (q : Queue α) :
    (slot i ≤ s.currentSlot i + 1 ∧
      (dispatch s i a q).currentSlot = Function.update s.currentSlot i 0 ∧
      (dispatch s i a q).currentPrio = i + 1) ∨
    (s.currentSlot i + 1 < slot i ∧
      (dispatch s i a q).currentSlot = Function.update s.currentSlot i (s.currentSlot i + 1) ∧
      (dispatch s i a q).currentPrio = s.currentPrio) := by
  dsimp only [dispatch]
  split
  · next h =>
    rw [Function.update_self] at h
    exact Or.inl ⟨h, Function.update_idem _ _ _, rfl⟩
  · next h =>
    rw [Function.update_self] at h
    exact Or.inr ⟨Nat.not_le.mp h, rfl, rfl⟩

@[simp] theorem wrap_runningList (s : Sched α) (i : Fin 140) :
    (wrap s i).runningList = s.runningList := by
  unfold wrap
  split <;> rfl

@[simp] theorem wrap_mlqReadyQueue (s : Sched α) (i : Fin 140) :
    (wrap s i).mlqReadyQueue = s.mlqReadyQueue := by
  unfold wrap
  split <;> rfl

/-- One attempt of the scan: it dispatches the head of the queue, or moves on. -/
theorem scan_succ (n : ℕ) (i : Fin 140) (s : Sched α) :
    (∃ a q, (s.mlqReadyQueue i).toList = a :: q.toList ∧ s.currentSlot i < slot i ∧
      scan (n + 1) i s = (some a, dispatch s i a q)) ∨
    (((s.mlqReadyQueue i).toList = [] ∨ slot i ≤ s.currentSlot i) ∧
      scan (n + 1) i s = scan n (i + 1) (wrap s (i + 1))) := by
  rw [scan]
  by_cases h : empty (s.mlqReadyQueue i) = false ∧ s.currentSlot i < slot i
  · obtain ⟨hhead, htail⟩ := dequeue_spec (s.mlqReadyQueue i)
    have hne : (s.mlqReadyQueue i).toList ≠ [] := fun he => by
      rw [empty_eq_true.mpr he] at h
      exact Bool.noConfusion h.1
    obtain ⟨a, rest, hl⟩ := List.exists_cons_of_ne_nil hne
    rw [hl] at hhead htail
    rw [if_pos h]
    cases hd : dequeue (s.mlqReadyQueue i) with
    | mk o q =>
      rw [hd] at hhead htail
      cases hhead
      exact Or.inl ⟨a, q, by rw [hl, htail, List.tail_cons], h.2, rfl⟩
  · rw [if_neg h]
    refine Or.inr ⟨?_, rfl⟩
    rcases Bool.eq_false_or_eq_true (empty (s.mlqReadyQueue i)) with he | he
    · exact Or.inl (empty_eq_true.mp he)
    · exact Or.inr (Nat.not_lt.mp fun hlt => h ⟨he, hlt⟩)

/-- What a dispatched process moves from and to. -/
structure Dispatched (s s' : Sched α) (a : α) (i : Fin 140) : Prop where
  /-- The process was the head of queue `i`. -/
  head : (s.mlqReadyQueue i).toList = a :: (s'.mlqReadyQueue i).toList
  /-- The other queues stay. -/
  others : ∀ j ≠ i, s'.mlqReadyQueue j = s.mlqReadyQueue j
  /-- The process is entered into the running list. -/
  running : s'.runningList = enqueue s.runningList a

/-- A scan changes no queue, or dispatches the head of one of them. -/
theorem scan_lists (n : ℕ) (i : Fin 140) (s : Sched α) :
    ((scan n i s).1 = none ∧ (scan n i s).2.runningList = s.runningList ∧
      (scan n i s).2.mlqReadyQueue = s.mlqReadyQueue) ∨
    ∃ a j, (scan n i s).1 = some a ∧ Dispatched s (scan n i s).2 a j := by
  induction n generalizing i s with
  | zero => exact Or.inl ⟨rfl, rfl, rfl⟩
  | succ n ih =>
    rcases scan_succ n i s with ⟨a, q, hl, _, hs⟩ | ⟨_, hs⟩
    · rw [hs]
      refine Or.inr ⟨a, i, rfl, ?_, fun j hj => ?_, dispatch_runningList s i a q⟩
      · dsimp only
        rw [dispatch_mlqReadyQueue, Function.update_self]
        exact hl
      · dsimp only
        rw [dispatch_mlqReadyQueue, Function.update_of_ne hj]
    · rw [hs]
      rcases ih (i + 1) (wrap s (i + 1)) with ⟨h1, h2, h3⟩ | ⟨a, j, h1, hd⟩
      · exact Or.inl ⟨h1, h2.trans (wrap_runningList s _), h3.trans (wrap_mlqReadyQueue s _)⟩
      · obtain ⟨hh, ho, hr⟩ := hd
        rw [wrap_mlqReadyQueue] at hh ho
        rw [wrap_runningList] at hr
        exact Or.inr ⟨a, j, h1, hh, ho, hr⟩

/-- `get_proc` changes no queue, or dispatches the head of one of them. -/
theorem getMlqProc_lists (s : Sched α) :
    ((getMlqProc s).1 = none ∧ (getMlqProc s).2.runningList = s.runningList ∧
      (getMlqProc s).2.mlqReadyQueue = s.mlqReadyQueue) ∨
    ∃ a j, (getMlqProc s).1 = some a ∧ Dispatched s (getMlqProc s).2 a j :=
  scan_lists maxPrio s.currentPrio s

/-! ## Insertion and removal -/

/-- The members of the running list once a process has been purged from it. -/
theorem finishProc_runningList (s : Sched α) (a : α) :
    (finishProc pid s a).runningList.toList =
      s.runningList.toList.eraseP (samePid pid (pid a)) :=
  toList_purgequeue _ _

/-- Insertion reaches the queue of the process's priority only. -/
theorem enqueueReady_spec (s : Sched α) {a : α} {i : Fin 140} (hi : (prio a).toNat = i) :
    (enqueueReady prio s a).runningList = s.runningList ∧
      (enqueueReady prio s a).mlqReadyQueue =
        Function.update s.mlqReadyQueue i (enqueue (s.mlqReadyQueue i) a) := by
  have hlt : (prio a).toNat < 140 := hi ▸ i.isLt
  have hix : (⟨(prio a).toNat, hlt⟩ : Fin 140) = i := Fin.ext hi
  unfold enqueueReady
  rw [dif_pos hlt]
  dsimp only
  rw [hix]
  exact ⟨rfl, rfl⟩

variable {prio}

/-- Insertion changes no counter. -/
theorem enqueueReady_counters (s : Sched α) (a : α) :
    (enqueueReady prio s a).currentSlot = s.currentSlot ∧
      (enqueueReady prio s a).currentPrio = s.currentPrio := by
  unfold enqueueReady
  split <;> exact ⟨rfl, rfl⟩

end OsSim.SchedulerMlq
