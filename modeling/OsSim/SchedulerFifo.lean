import OsSim.SchedulerStarvation

/-!
# First in, first out

A queue with its array and shift loops is the list of its members: over any calls it
returns what the list operations return and its cells are the list. So every ready queue
of the scheduler dispatches its processes in the order in which it has accepted them.
-/

namespace OsSim.SchedulerFifo

open SchedulerQueue SchedulerMlq SchedulerStarvation RunSteps

variable {α : Type*}

/-! ## Queues and lists -/

/-- A queue of size 0, whatever its cells hold. -/
def sizeZero (cells : ℕ → Option α) : Queue α :=
  ⟨cells, 0, Nat.zero_le _, fun _ h => absurd h (Nat.not_lt_zero _)⟩

/-- The calls on a queue; an argument may be `NULL`. -/
inductive QueueCall (α : Type*)
  /-- `enqueue`. -/
  | enqueue (proc : Option α)
  /-- `dequeue`. -/
  | dequeue
  /-- `purgequeue`. -/
  | purgequeue (proc : Option α)

/-- A call on the array: the pointer it returns, and the queue. -/
def callQueue (pid : α → BitVec 32) (q : Queue α) : QueueCall α → Option α × Queue α
  | .enqueue none => (none, q)
  | .enqueue (some proc) => (none, enqueue q proc)
  | .dequeue => dequeue q
  | .purgequeue none => (none, q)
  | .purgequeue (some proc) => purgequeue q (samePid pid (pid proc))

/-- The list operation a call stands for. -/
def callList (pid : α → BitVec 32) (l : List α) : QueueCall α → Option α × List α
  | .enqueue none => (none, l)
  | .enqueue (some proc) => (none, if l.length < maxQueueSize then l ++ [proc] else l)
  | .dequeue => (l.head?, l.tail)
  | .purgequeue none => (none, l)
  | .purgequeue (some proc) =>
    (l.find? (samePid pid (pid proc)), l.eraseP (samePid pid (pid proc)))

/-- The answers to some calls, and what is left behind them. -/
def runCalls {σ : Type*} (call : σ → QueueCall α → Option α × σ) :
    σ → List (QueueCall α) → List (Option α) × σ
  | s, [] => ([], s)
  | s, c :: calls =>
    let r := runCalls call (call s c).2 calls
    ((call s c).1 :: r.1, r.2)

/-- The cells of a filled range are its contents. -/
theorem getElem?_contents {cells : ℕ → Option α} {i n : ℕ}
    (h : ∀ k < n, (cells (i + k)).isSome) (k : ℕ) :
    (contents cells i n)[k]? = if k < n then cells (i + k) else none := by
  induction n generalizing i k with
  | zero => rfl
  | succ n ih =>
    obtain ⟨a, ha, hnext⟩ := filled_uncons h
    rw [contents, ha, Option.toList_some, List.singleton_append]
    cases k with
    | zero => rw [List.getElem?_cons_zero, if_pos (Nat.succ_pos n), Nat.add_zero, ha]
    | succ k =>
      rw [List.getElem?_cons_succ, ih hnext, Nat.add_assoc, Nat.add_comm 1 k]
      simp only [Nat.succ_lt_succ_iff]

/-- The members of a queue are the cells below its size. -/
theorem getElem?_toList (q : Queue α) (k : ℕ) :
    q.toList[k]? = if k < q.size then q.proc k else none := by
  unfold Queue.toList
  rw [getElem?_contents q.filled_range, Nat.zero_add]

/-- `purgequeue` returns what a search finds. -/
theorem purgequeue_fst (q : Queue α) (p : α → Bool) : (purgequeue q p).1 = findProc q p := by
  unfold purgequeue findProc
  cases findFrom p q.proc 0 q.size <;> rfl

/-- A call does to the members what its list operation does. -/
theorem callQueue_refines (pid : α → BitVec 32) (q : Queue α) (call : QueueCall α) :
    (callQueue pid q call).1 = (callList pid q.toList call).1 ∧
      (callQueue pid q call).2.toList = (callList pid q.toList call).2 := by
  cases call with
  | enqueue proc =>
    cases proc with
    | none => exact ⟨rfl, rfl⟩
    | some proc =>
      dsimp only [callQueue, callList]
      rw [toList_enqueue, Queue.length_toList]
      exact ⟨rfl, rfl⟩
  | dequeue => exact dequeue_spec q
  | purgequeue proc =>
    cases proc with
    | none => exact ⟨rfl, rfl⟩
    | some proc =>
      dsimp only [callQueue, callList]
      rw [purgequeue_fst, findProc_eq, toList_purgequeue]
      exact ⟨rfl, rfl⟩

/-- Any calls on a queue return what they return on the list of its members. -/
theorem runCalls_refines (pid : α → BitVec 32) (q : Queue α) (calls : List (QueueCall α)) :
    (runCalls (callQueue pid) q calls).1 = (runCalls (callList pid) q.toList calls).1 ∧
      (runCalls (callQueue pid) q calls).2.toList =
        (runCalls (callList pid) q.toList calls).2 := by
  induction calls generalizing q with
  | nil => exact ⟨rfl, rfl⟩
  | cons c calls ih =>
    obtain ⟨hret, hlist⟩ := callQueue_refines pid q c
    obtain ⟨hrets, hlists⟩ := ih (callQueue pid q c).2
    rw [hlist] at hrets hlists
    exact ⟨congrArg₂ List.cons hret hrets, hlists⟩

/-- Over some calls on a queue of size 0, the array is the list. -/
structure ArrayIsList (pid : α → BitVec 32) (cells : ℕ → Option α) (calls : List (QueueCall α)) :
    Prop where
  /-- Both return the same pointers. -/
  answers : (runCalls (callQueue pid) (sizeZero cells) calls).1 = (runCalls (callList pid) [] calls).1
  /-- The cells below the size are the list. -/
  members : ∀ k, (runCalls (callList pid) [] calls).2[k]? =
    if k < (runCalls (callQueue pid) (sizeZero cells) calls).2.size then
      (runCalls (callQueue pid) (sizeZero cells) calls).2.proc k else none

/-- Over all calls the array of a queue is a list. -/
theorem arrayIsList (pid : α → BitVec 32) (cells : ℕ → Option α) (calls : List (QueueCall α)) :
    ArrayIsList pid cells calls := by
  obtain ⟨hret, hlist⟩ := runCalls_refines pid (sizeZero cells) calls
  have hnil : (sizeZero cells).toList = [] := rfl
  rw [hnil] at hret hlist
  refine ⟨hret, fun k => ?_⟩
  rw [← hlist, getElem?_toList]

/-! ## Ready queues over a run -/

variable (pid prio : α → BitVec 32)

/-- The scheduler behind a call. -/
def afterCall (s : Sched α) : SchedCall α → Sched α
  | .add a => addMlqProc prio s a
  | .get _ => (getMlqProc s).2
  | .put a => putMlqProc pid prio s a
  | .finish a => finishProc pid s a

/-- What a call adds to ready queue `p`: nothing if the queue is full. -/
def acceptedInto (p : Fin 140) (s : Sched α) : SchedCall α → List α
  | .add a | .put a =>
    if (prio a).toNat = p ∧ (s.mlqReadyQueue p).size < maxQueueSize then [a] else []
  | .get _ | .finish _ => []

/-- What a call dispatches from ready queue `p`, which then has a member less. -/
def dispatchedFrom (p : Fin 140) (s : Sched α) : SchedCall α → List α
  | .get (some a) =>
    if ((getMlqProc s).2.mlqReadyQueue p).size < (s.mlqReadyQueue p).size then [a] else []
  | _ => []

/-- Everything that some calls accept into ready queue `p`, in order. -/
def accepted (p : Fin 140) : Sched α → List (SchedCall α) → List α
  | _, [] => []
  | s, c :: calls => acceptedInto prio p s c ++ accepted p (afterCall pid prio s c) calls

/-- Everything that some calls dispatch from ready queue `p`, in order. -/
def dispatched (p : Fin 140) : Sched α → List (SchedCall α) → List α
  | _, [] => []
  | s, c :: calls => dispatchedFrom p s c ++ dispatched p (afterCall pid prio s c) calls

variable {pid prio}

/-- A step leads to this state. -/
theorem eq_afterCall {s s' : Sched α} {call : SchedCall α} (h : CallStep pid prio s call s') :
    s' = afterCall pid prio s call := by
  cases call with
  | get result => exact (congrArg Prod.snd h).symm
  | add a | put a | finish a => exact h

/-- Insertion appends what is accepted. -/
theorem toList_enqueueReady (s : Sched α) (a : α) (p : Fin 140) :
    ((enqueueReady prio s a).mlqReadyQueue p).toList = (s.mlqReadyQueue p).toList ++
      if (prio a).toNat = p ∧ (s.mlqReadyQueue p).size < maxQueueSize then [a] else [] := by
  by_cases hlt : (prio a).toNat < 140
  · obtain ⟨_, hq⟩ := enqueueReady_spec prio s (a := a) (i := ⟨(prio a).toNat, hlt⟩) rfl
    rw [hq]
    by_cases hp : (prio a).toNat = p
    · have he : (⟨(prio a).toNat, hlt⟩ : Fin 140) = p := Fin.ext hp
      rw [he, Function.update_self, toList_enqueue]
      simp only [hp, true_and]
      split <;> simp only [List.append_nil]
    · have hne : p ≠ ⟨(prio a).toNat, hlt⟩ := fun he => hp (congrArg Fin.val he).symm
      rw [Function.update_of_ne hne, if_neg fun h => hp h.1, List.append_nil]
  · have hp : ¬(prio a).toNat = p := fun he => hlt (he ▸ p.isLt)
    unfold enqueueReady
    rw [dif_neg hlt, if_neg fun h => hp h.1, List.append_nil]

/-- One call: what it accepts joins the queue at its end, and what it dispatches has left
it at its head. -/
theorem queue_step {s s' : Sched α} {call : SchedCall α} (h : CallStep pid prio s call s')
    (p : Fin 140) : (s.mlqReadyQueue p).toList ++ acceptedInto prio p s call =
      dispatchedFrom p s call ++ (s'.mlqReadyQueue p).toList := by
  cases call with
  | add a =>
    cases h
    exact (toList_enqueueReady s a p).symm
  | put a =>
    cases h
    exact (toList_enqueueReady (finishProc pid s a) a p).symm
  | finish a =>
    cases h
    exact List.append_nil _
  | get result =>
    have hs : (getMlqProc s).2 = s' := congrArg Prod.snd h
    have hr : (getMlqProc s).1 = result := congrArg Prod.fst h
    dsimp only [acceptedInto]
    rw [List.append_nil]
    obtain ⟨hnone, _, hq⟩ | ⟨a, i, ha, hd⟩ := getMlqProc_lists s
    · rw [← hr, hnone, ← hs, hq]
      rfl
    · rw [← hr, ha]
      dsimp only [dispatchedFrom]
      rw [hs] at hd ⊢
      by_cases hp : p = i
      · have hlen := congrArg List.length hd.head
        rw [List.length_cons, Queue.length_toList, Queue.length_toList] at hlen
        rw [hp, if_pos (by omega)]
        exact hd.head
      · rw [hd.others p hp, if_neg (Nat.lt_irrefl _)]
        rfl

/-- A run: the members at its start and what it accepts are what it dispatches and the
members at its end. -/
theorem queue_run {s s' : Sched α} {calls : List (SchedCall α)}
    (h : Run (CallStep pid prio) s calls s') (p : Fin 140) :
    (s.mlqReadyQueue p).toList ++ accepted pid prio p s calls =
      dispatched pid prio p s calls ++ (s'.mlqReadyQueue p).toList := by
  induction h with
  | nil s => rw [accepted, dispatched, List.append_nil, List.nil_append]
  | cons hstep _ ih =>
    have hfirst := queue_step hstep p
    rw [eq_afterCall hstep] at hfirst ih
    rw [accepted, dispatched, ← List.append_assoc, hfirst, List.append_assoc, ih,
      List.append_assoc]

/-- Queues are lists over any calls; and in every run of the scheduler each ready queue has
dispatched its processes in the order in which it accepted them, so that those it still has
are the last ones. -/
theorem perLevel_fifo (cells : ℕ → Option α) (qcalls : List (QueueCall α)) {s : Sched α}
    {calls : List (SchedCall α)} (h : Run (CallStep pid prio) initScheduler calls s) :
    ArrayIsList pid cells qcalls ∧ ∀ p, accepted pid prio p initScheduler calls =
      dispatched pid prio p initScheduler calls ++ (s.mlqReadyQueue p).toList := by
  refine ⟨arrayIsList pid cells qcalls, fun p => ?_⟩
  have hrun := queue_run h p
  have hempty : ((initScheduler : Sched α).mlqReadyQueue p).toList = [] := rfl
  rw [hempty, List.nil_append] at hrun
  exact hrun

/-- All processes have one priority. -/
def onePrio (_ : ℕ) : BitVec 32 := 3

/-- Three processes of one priority, the first one dispatched; and a queue that is purged. -/
theorem perLevel_fifo_threeProcesses : ∃ s : Sched ℕ,
    Run (CallStep byNumber onePrio) initScheduler [.add 7, .add 5, .get (some 7), .add 6] s ∧
      ArrayIsList byNumber (fun _ => some 9)
        [.enqueue (some 7), .enqueue (some 5), .purgequeue (some 7)] ∧
      ∀ p, accepted byNumber onePrio p initScheduler [.add 7, .add 5, .get (some 7), .add 6] =
        dispatched byNumber onePrio p initScheduler [.add 7, .add 5, .get (some 7), .add 6] ++
          (s.mlqReadyQueue p).toList := by
  have hrun : Run (CallStep byNumber onePrio) initScheduler
      [.add 7, .add 5, .get (some 7), .add 6] _ :=
    .cons rfl (.cons rfl (.cons rfl (.cons rfl (.nil _))))
  exact ⟨_, hrun, perLevel_fifo (fun _ => some 9) _ hrun⟩

end OsSim.SchedulerFifo
