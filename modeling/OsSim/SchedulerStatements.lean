import OsSim.LockedSections
import OsSim.SchedulerMlq

/-!
# The scheduler, statement by statement

The functions of `queue.c` and `sched.c` as commands on the static variables of the
scheduler, cell by cell: each statement and each test is a step of its own, between which
other threads take theirs. A `return` or `goto` out of a loop sets a flag that its test reads.
-/

namespace OsSim.SchedulerStatements

open Commands LockedSections SchedulerQueue SchedulerMlq

variable {α : Type}

/-! ## Variables -/

/-- The queues of the scheduler. -/
inductive QueueId
  /-- `running_list`. -/
  | running
  /-- `mlq_ready_queue[prio]`. -/
  | ready (prio : Fin 140)
  deriving DecidableEq

/-- `struct queue_t`, whatever its cells and its size are. -/
structure QueueVars (α : Type) where
  /-- The cells of `proc`. -/
  proc : ℕ → Option α
  /-- `size`. -/
  size : ℕ

/-- The subscript of a table of 140 entries. -/
def subscript (prio : ℕ) : Fin 140 := ⟨prio % maxPrio, Nat.mod_lt _ (by decide)⟩

/-- The static variables of `sched.c`. -/
structure Vars (α : Type) where
  /-- The queues. -/
  queue : QueueId → QueueVars α
  /-- `current_slot`. -/
  currentSlot : Fin 140 → ℕ
  /-- `current_prio`. -/
  currentPrio : ℕ

/-- The local variables of the functions of `sched.c` and of those of `queue.c` they call. -/
structure Locals (α : Type) where
  /-- `proc` of `get_mlq_proc` and `find_process_by_pid`. -/
  proc : Option α
  /-- `prio` of `get_mlq_proc`. -/
  prio : ℕ
  /-- `prio` of `find_process_by_pid`. -/
  level : ℕ
  /-- `attempts`. -/
  attempts : ℕ
  /-- `i`. -/
  i : ℕ
  /-- A loop of `sched.c` has been left. -/
  left : Bool
  /-- `i` of `purgequeue`. -/
  k : ℕ
  /-- `i` of `dequeue`, `j` of `purgequeue`. -/
  j : ℕ
  /-- `selected_proc`, `found_proc`. -/
  selected : Option α
  /-- The search of `purgequeue` has found its process. -/
  found : Bool

/-- The local variables when a function is called. -/
def Locals.init : Locals α := ⟨none, 0, 0, 0, 0, false, 0, 0, none, false⟩

/-- Commands of one thread. -/
abbrev Code (α : Type) := Cmd (Locals α × Vars α)

/-- An assignment to local variables, which may read shared ones. -/
def setLocals (f : Locals α → Vars α → Locals α) : Code α := .act fun s => (f s.1 s.2, s.2)

/-- An assignment to a shared variable. -/
def setVars (f : Locals α → Vars α → Vars α) : Code α := .act fun s => (s.1, f s.1 s.2)

/-- The shared variables with another queue under this name. -/
def Vars.setQueue (v : Vars α) (id : QueueId) (q : QueueVars α) : Vars α :=
  {v with queue := Function.update v.queue id q}

/-- `q->proc[k] = a`. -/
def setCell (q : QueueVars α) (k : ℕ) (a : Option α) : QueueVars α :=
  {q with proc := Function.update q.proc k a}

/-- An assignment to a queue. -/
def setQueue (id : Locals α → QueueId) (f : Locals α → QueueVars α → QueueVars α) : Code α :=
  setVars fun l v => v.setQueue (id l) (f l (v.queue (id l)))

/-- A test of a queue. -/
def onQueue (id : Locals α → QueueId) (b : Locals α → QueueVars α → Bool) :
    Locals α × Vars α → Bool :=
  fun s => b s.1 (s.2.queue (id s.1))

/-! ## `queue.c` -/

/-- `enqueue`, for a process that is not `NULL`. -/
def enqueueCode (id : Locals α → QueueId) (proc : Locals α → Option α) : Code α :=
  .ite (onQueue id fun _ q => maxQueueSize ≤ q.size) .skip
    (.seq (setQueue id fun l q => setCell q q.size (proc l))
      (setQueue id fun _ q => {q with size := q.size + 1}))

/-- The shift loop of `dequeue` and `purgequeue`, and `q->size--`. -/
def shiftCode (id : Locals α → QueueId) : Code α :=
  .seq
    (.loop (onQueue id fun l q => l.j < q.size - 1)
      (.seq (setQueue id fun l q => setCell q l.j (q.proc (l.j + 1)))
        (setLocals fun l _ => {l with j := l.j + 1})))
    (setQueue id fun _ q => {q with size := q.size - 1})

/-- `dequeue`, with its result in `selected`. -/
def dequeueCode (id : Locals α → QueueId) : Code α :=
  .ite (onQueue id fun _ q => q.size = 0) (setLocals fun l _ => {l with selected := none})
    (.seq (setLocals fun l v => {l with selected := (v.queue (id l)).proc 0})
      (.seq (setLocals fun l _ => {l with j := 0}) (shiftCode id)))

/-- `purgequeue`, for a process that is not `NULL`. -/
def purgequeueCode (id : Locals α → QueueId) (same : α → Bool) : Code α :=
  .ite (onQueue id fun _ q => q.size = 0) .skip
    (.seq (setLocals fun l _ => {l with k := 0, found := false})
      (.seq
        (.loop (onQueue id fun l q => l.k < q.size && !l.found)
          (.ite (onQueue id fun l q => (q.proc l.k).any same)
            (setLocals fun l _ => {l with found := true})
            (setLocals fun l _ => {l with k := l.k + 1})))
        (.ite (fun s => s.1.found)
          (.seq (setLocals fun l v => {l with selected := (v.queue (id l)).proc l.k})
            (.seq (setLocals fun l _ => {l with j := l.k}) (shiftCode id)))
          .skip)))

/-! ## `sched.c` -/

/-- The queue of the running processes. -/
def runningList (_ : Locals α) : QueueId := .running

variable (pid prio : α → BitVec 32)

/-- Insertion into the ready queue of the priority, in `put_mlq_proc` and `add_mlq_proc`. -/
def enqueueReadyCode (proc : α) : Code α :=
  .ite (fun _ => (prio proc).toNat < maxPrio)
    (enqueueCode (fun _ => .ready (subscript (prio proc).toNat)) fun _ => some proc) .skip

/-- `finish_proc`, under `queue_lock`. -/
def finishProcCode (proc : α) : Code α := purgequeueCode runningList (samePid pid (pid proc))

/-- `put_mlq_proc`, under `queue_lock`. -/
def putMlqProcCode (proc : α) : Code α :=
  .seq (purgequeueCode runningList (samePid pid (pid proc))) (enqueueReadyCode prio proc)

/-- `add_mlq_proc`, under `queue_lock`. -/
def addMlqProcCode (proc : α) : Code α := enqueueReadyCode prio proc

/-- `mlq_ready_queue[prio]` of `get_mlq_proc`. -/
def readyQueue (l : Locals α) : QueueId := .ready (subscript l.prio)

/-- An assignment to `current_slot[prio]`. -/
def setSlot (f : ℕ → ℕ) : Code α :=
  setVars fun l v =>
    let i := subscript l.prio
    {v with currentSlot := Function.update v.currentSlot i (f (v.currentSlot i))}

/-- A comparison of `current_slot[prio]` with `slot[prio]`. -/
def onSlot (b : ℕ → ℕ → Bool) : Locals α × Vars α → Bool :=
  fun s => b (s.2.currentSlot (subscript s.1.prio)) (slot (subscript s.1.prio))

/-- What `get_mlq_proc` does with a process that `dequeue` has returned. -/
def dispatchCode : Code α :=
  .seq (setSlot fun n => n + 1)
    (.seq (enqueueCode runningList fun l => l.proc)
      (.seq
        (.ite (onSlot fun n quota => quota ≤ n)
          (.seq (setSlot fun _ => 0)
            (setVars fun l v => {v with currentPrio := (l.prio + 1) % maxPrio}))
          .skip)
        (setLocals fun l _ => {l with left := true})))

/-- The end of a turn of its loop, with the start of a new round. -/
def advanceCode : Code α :=
  .seq (setLocals fun l _ => {l with prio := (l.prio + 1) % maxPrio})
    (.seq (setLocals fun l _ => {l with attempts := l.attempts + 1})
      (.ite (fun s => s.1.prio = 0)
        (.seq (setLocals fun l _ => {l with i := 0})
          (.seq
            (.loop (fun s => s.1.i < maxPrio)
              (.seq (setVars fun l v => {v with
                  currentSlot := fun p => if (p : ℕ) = l.i then 0 else v.currentSlot p})
                (setLocals fun l _ => {l with i := l.i + 1})))
            (setVars fun _ v => {v with currentPrio := 0})))
        .skip))

/-- One turn of its loop. -/
def attemptCode : Code α :=
  .seq
    (.ite (onQueue readyQueue fun _ q => q.size ≠ 0)
      (.ite (onSlot fun n quota => n < quota)
        (.seq (dequeueCode readyQueue)
          (.seq (setLocals fun l _ => {l with proc := l.selected})
            (.ite (fun s => s.1.proc.isSome) dispatchCode .skip)))
        .skip)
      .skip)
    (.ite (fun s => s.1.left) .skip advanceCode)

/-- `get_mlq_proc`, under `queue_lock`. -/
def getMlqProcCode : Code α :=
  .seq (setLocals fun l _ => {l with proc := none})
    (.seq (setLocals fun l v => {l with prio := v.currentPrio})
      (.seq (setLocals fun l _ => {l with attempts := 0, left := false})
        (.loop (fun s => s.1.attempts < maxPrio && !s.1.left) attemptCode)))

/-- The search of `find_process_by_pid` in one queue. -/
def searchCode (id : Locals α → QueueId) (x : BitVec 32) : Code α :=
  .seq (setLocals fun l _ => {l with i := 0})
    (.loop (onQueue id fun l q => l.i < q.size && !l.left)
      (.ite (onQueue id fun l q => (q.proc l.i).any (samePid pid x))
        (setLocals fun l v => {l with proc := (v.queue (id l)).proc l.i, left := true})
        (setLocals fun l _ => {l with i := l.i + 1})))

/-- `mlq_ready_queue[prio]` of `find_process_by_pid`. -/
def levelQueue (l : Locals α) : QueueId := .ready (subscript l.level)

/-- `find_process_by_pid`, under `queue_lock`. -/
def findProcessByPidCode (x : BitVec 32) : Code α :=
  .seq (setLocals fun l _ => {l with proc := none, left := false})
    (.seq (searchCode pid runningList x)
      (.seq (setLocals fun l _ => {l with level := 0})
        (.loop (fun s => s.1.level < maxPrio && !s.1.left)
          (.seq (searchCode pid levelQueue x)
            (.ite (fun s => s.1.left) .skip
              (setLocals fun l _ => {l with level := l.level + 1}))))))

/-- The calls of the scheduler. -/
inductive Call (α : Type)
  /-- `finish_proc`. -/
  | finish (proc : α)
  /-- `get_mlq_proc`. -/
  | get
  /-- `put_mlq_proc`. -/
  | put (proc : α)
  /-- `add_mlq_proc`. -/
  | add (proc : α)
  /-- `find_process_by_pid`. -/
  | find (pid : BitVec 32)

/-- The functions, with `queue_lock` and, for `get_mlq_proc`, `dispatch_lock`. -/
def procedures : Procedures (Vars α) (Locals α) (Call α) (Option α) where
  body
    | .finish proc => finishProcCode pid proc
    | .get => getMlqProcCode
    | .put proc => putMlqProcCode pid prio proc
    | .add proc => addMlqProcCode prio proc
    | .find x => findProcessByPidCode pid x
  enter _ := Locals.init
  result
    | .get, l => l.proc
    | .find _, l => l.proc
    | _, _ => none
  outer
    | .get => true
    | _ => false

end OsSim.SchedulerStatements
