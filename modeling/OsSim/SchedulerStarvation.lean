import OsSim.SchedulerMlq
import OsSim.RunSteps
import Mathlib.Algebra.BigOperators.Fin
import Mathlib.Algebra.Order.BigOperators.Group.Finset

/-!
# No starvation

How many processes can be dispatched while a nonempty ready queue waits: the
rank adds up the slots that are left on the way of the scan to that queue.
Every dispatch from another queue uses up one of them, and a new round of the
scan, which refills the slots, only starts behind the waiting queue.
-/

namespace OsSim.SchedulerStarvation

open SchedulerQueue SchedulerMlq RunSteps

variable {α : Type*} {pid prio : α → BitVec 32}

/-- The scheduler calls, with the result of `get_proc`. -/
inductive SchedCall (α : Type*)
  /-- `add_proc`. -/
  | add (a : α)
  /-- `get_proc`. -/
  | get (result : Option α)
  /-- `put_proc`. -/
  | put (a : α)
  /-- `finish_proc`. -/
  | finish (a : α)

/-- One call, by whomever and with whatever argument. -/
def CallStep (pid prio : α → BitVec 32) (s : Sched α) (call : SchedCall α) (s' : Sched α) : Prop :=
  match call with
  | .add a => s' = addMlqProc prio s a
  | .get result => getMlqProc s = (result, s')
  | .put a => s' = putMlqProc pid prio s a
  | .finish a => s' = finishProc pid s a

/-- Queue `p` is not empty and the call dispatches no process of priority `p`. -/
def Waits (prio : α → BitVec 32) (p : Fin 140) (s : Sched α) (call : SchedCall α) : Prop :=
  (s.mlqReadyQueue p).toList ≠ [] ∧ ∀ a, call = .get (some a) → (prio a).toNat ≠ p

/-- A `get_proc` that returns a process. -/
def isDispatch : SchedCall α → Bool
  | .get (some _) => true
  | _ => false

/-! ## The invariant -/

/-- No queue has used up its slots, and every ready process is in the queue of
its priority. -/
structure SlotInv (prio : α → BitVec 32) (s : Sched α) : Prop where
  /-- Used-up slots are reset at once. -/
  slots : ∀ i, s.currentSlot i < slot i
  /-- Queues are sorted by priority. -/
  members : ∀ (i : Fin 140), ∀ a ∈ (s.mlqReadyQueue i).toList, (prio a).toNat = i

theorem slot_pos (i : Fin 140) : 0 < slot i := by
  unfold slot maxPrio
  omega

/-- A dispatch leaves every queue below its quota. -/
theorem dispatch_slots {s : Sched α} (h : ∀ i, s.currentSlot i < slot i) (i : Fin 140) (a : α)
    (q : Queue α) : ∀ j, (dispatch s i a q).currentSlot j < slot j := by
  intro j
  obtain ⟨_, hc, _⟩ | ⟨hlt, hc, _⟩ := dispatch_counters s i a q
  · rw [hc]
    by_cases hj : j = i
    · rw [hj, Function.update_self]
      exact slot_pos i
    · rw [Function.update_of_ne hj]
      exact h j
  · rw [hc]
    by_cases hj : j = i
    · rw [hj, Function.update_self]
      exact hlt
    · rw [Function.update_of_ne hj]
      exact h j

/-- The start of a new round keeps every counter below its quota. -/
theorem wrap_slots {s : Sched α} (h : ∀ i, s.currentSlot i < slot i) (i : Fin 140) :
    ∀ j, (wrap s i).currentSlot j < slot j := by
  unfold wrap
  split
  · exact slot_pos
  · exact h

/-- A whole scan keeps every counter below its quota. -/
theorem scan_slots (n : ℕ) (i : Fin 140) {s : Sched α} (h : ∀ i, s.currentSlot i < slot i) :
    ∀ j, (scan n i s).2.currentSlot j < slot j := by
  induction n generalizing i s with
  | zero => exact h
  | succ n ih =>
    rcases scan_succ n i s with ⟨a, q, _, _, hs⟩ | ⟨_, hs⟩
    · rw [hs]
      exact dispatch_slots h i a q
    · rw [hs]
      exact ih (i + 1) (wrap_slots h _)

/-- Insertion changes no counter and sorts by priority. -/
theorem SlotInv.enqueueReady {s : Sched α} (h : SlotInv prio s) (a : α) :
    SlotInv prio (enqueueReady prio s a) := by
  unfold SchedulerMlq.enqueueReady
  split
  · next hlt =>
    refine ⟨h.slots, fun j b hb => ?_⟩
    dsimp only at hb
    by_cases hj : j = ⟨(prio a).toNat, hlt⟩
    · rw [hj, Function.update_self, toList_enqueue] at hb
      split at hb
      · rcases List.mem_append.mp hb with hb | hb
        · rw [hj]
          exact h.members _ b hb
        · rw [List.mem_singleton.mp hb, hj]
      · rw [hj]
        exact h.members _ b hb
    · rw [Function.update_of_ne hj] at hb
      exact h.members j b hb
  · exact h

/-- Every call keeps the invariant. -/
theorem slotInv_step {s s' : Sched α} {call : SchedCall α} (h : SlotInv prio s)
    (hstep : CallStep pid prio s call s') : SlotInv prio s' := by
  cases call with
  | add a =>
    cases hstep
    exact h.enqueueReady a
  | put a =>
    cases hstep
    have hf : SlotInv prio (finishProc pid s a) := ⟨h.slots, h.members⟩
    exact hf.enqueueReady a
  | finish a =>
    cases hstep
    exact ⟨h.slots, h.members⟩
  | get result =>
    have hs : s' = (getMlqProc s).2 := (congrArg Prod.snd hstep).symm
    rw [hs]
    refine ⟨scan_slots _ _ h.slots, fun i b hb => ?_⟩
    obtain ⟨_, _, hq⟩ | ⟨a, j, _, hd⟩ := getMlqProc_lists s
    · rw [hq] at hb
      exact h.members i b hb
    · by_cases hi : i = j
      · subst hi
        exact h.members i b (by rw [hd.head]; exact List.mem_cons_of_mem _ hb)
      · rw [hd.others i hi] at hb
        exact h.members i b hb

/-- The invariant holds in every reachable state. -/
theorem slotInv_of_reachable {s : Sched α}
    (h : Reachable (fun s => s = initScheduler) (CallStep pid prio) s) : SlotInv prio s := by
  refine h.invariant (SlotInv prio) ?_ fun _ _ _ hI hs => slotInv_step hI hs
  rintro s rfl
  exact ⟨slot_pos, fun i a ha => nomatch ha⟩

/-! ## The rank -/

/-- The slots of queue `q` that can still be used before the scan reaches queue
`p`. Ahead of `p` in this round they are the remaining ones; if the round has
passed `p`, the queues before `p` will have been refilled. -/
def rankAt (p : Fin 140) (s : Sched α) (q : Fin 140) : ℕ :=
  if s.currentPrio ≤ p then
    if s.currentPrio ≤ q ∧ q < p then slot q - s.currentSlot q else 0
  else if s.currentPrio ≤ q then slot q - s.currentSlot q
  else if q < p then slot q else 0

/-- All slots that can still be used before the scan reaches queue `p`. -/
def rank (p : Fin 140) (s : Sched α) : ℕ := ∑ q, rankAt p s q

/-- The rank never exceeds the slots of the other queues. -/
theorem rank_le (p : Fin 140) (s : Sched α) : rank p s ≤ ∑ q ∈ Finset.univ.erase p, slot q := by
  have hp : rankAt p s p = 0 := by
    unfold rankAt
    split
    · rw [if_neg fun h => lt_irrefl p h.2]
    · rw [if_neg (lt_irrefl p)]
  have hq : ∀ q, rankAt p s q ≤ slot q := by
    intro q
    unfold rankAt
    split <;> split <;> (try split) <;> omega
  unfold rank
  rw [← Finset.add_sum_erase _ _ (Finset.mem_univ p), hp, Nat.zero_add]
  exact Finset.sum_le_sum fun q _ => hq q

/-- The position `i` of a scan on its way to queue `p`: in this round ahead of `p`,
or past the current queue of a round that has passed `p`. -/
def OnTheWay (p : Fin 140) (s : Sched α) (i : Fin 140) : Prop :=
  s.currentPrio ≤ i ∧ (i ≤ p ∨ p < s.currentPrio)

/-- The value of the next position. -/
theorem val_succ (i : Fin 140) : ((i + 1 : Fin 140) : ℕ) = if (i : ℕ) = 139 then 0 else i + 1 := by
  rw [Fin.val_add]
  change (i.val + 1) % 140 = _
  split <;> omega

/-- A dispatch from a queue on the way uses up one of the slots. -/
theorem rank_dispatch {p i : Fin 140} {s : Sched α} (hs : ∀ i, s.currentSlot i < slot i)
    (hw : OnTheWay p s i) (hi : i ≠ p) (a : α) (q : Queue α) :
    rank p (dispatch s i a q) < rank p s := by
  have hsi := hs i
  have hip : (i : ℕ) ≠ p := fun h => hi (Fin.ext h)
  have hnext := val_succ i
  obtain ⟨hci, hor⟩ := hw
  have hterm : ∀ j, rankAt p (dispatch s i a q) j ≤ rankAt p s j ∧
      (j = i → rankAt p (dispatch s i a q) j < rankAt p s j) := by
    intro j
    have hsj := hs j
    have hj139 := j.isLt
    obtain ⟨_, hc, hp⟩ | ⟨hlt, hc, hp⟩ := dispatch_counters s i a q
    · -- the quota is used up: the scan goes on behind `i`
      unfold rankAt
      rw [hc, hp]
      by_cases hj : j = i
      · subst hj
        rw [Function.update_self]
        simp only [Fin.le_def, Fin.lt_def, hnext] at *
        split_ifs <;> omega
      · have hji : (j : ℕ) ≠ i := fun h => hj (Fin.ext h)
        rw [Function.update_of_ne hj]
        simp only [Fin.le_def, Fin.lt_def, hnext] at *
        refine ⟨?_, fun h => absurd h hj⟩
        split_ifs <;> omega
    · unfold rankAt
      rw [hc, hp]
      by_cases hj : j = i
      · subst hj
        rw [Function.update_self]
        simp only [Fin.le_def, Fin.lt_def] at *
        split_ifs <;> omega
      · rw [Function.update_of_ne hj]
        exact ⟨le_refl _, fun h => absurd h hj⟩
  unfold rank
  exact Finset.sum_lt_sum (fun j _ => (hterm j).1) ⟨i, Finset.mem_univ i, (hterm i).2 rfl⟩

/-- A round that has passed queue `p` and starts again has paid for the refill. -/
theorem rank_restart {p : Fin 140} {s : Sched α} (h : p < s.currentPrio) :
    rank p (wrap s 0) ≤ rank p s := by
  unfold wrap
  rw [if_pos rfl]
  unfold rank
  refine Finset.sum_le_sum fun q _ => ?_
  dsimp only [rankAt]
  simp only [Fin.le_def, Fin.lt_def, Fin.val_zero] at *
  split_ifs <;> omega

/-- One position further the scan is still on its way, and no slot has come back. -/
theorem OnTheWay.next {p i : Fin 140} {s : Sched α} (hw : OnTheWay p s i) (hi : i ≠ p) :
    OnTheWay p (wrap s (i + 1)) (i + 1) ∧ rank p (wrap s (i + 1)) ≤ rank p s := by
  have hip : (i : ℕ) ≠ p := fun h => hi (Fin.ext h)
  have hp := p.isLt
  have hnext := val_succ i
  obtain ⟨hci, hor⟩ := hw
  simp only [Fin.le_def, Fin.lt_def] at hci hor
  by_cases hlast : (i : ℕ) = 139
  · -- a new round starts, and this one has passed `p`
    have hzero : i + 1 = 0 := Fin.ext (by rw [hnext, if_pos hlast])
    have hpass : p < s.currentPrio := by
      rw [Fin.lt_def]
      omega
    rw [hzero]
    refine ⟨?_, rank_restart hpass⟩
    unfold wrap
    rw [if_pos rfl]
    exact ⟨le_refl _, Or.inl (Fin.zero_le p)⟩
  · rw [if_neg hlast] at hnext
    have hne : i + 1 ≠ 0 := fun h => by
      have hv : ((i + 1 : Fin 140) : ℕ) = 0 := congrArg Fin.val h
      omega
    have hwrap : wrap s (i + 1) = s := by
      unfold wrap
      rw [if_neg hne]
    rw [hwrap]
    refine ⟨⟨?_, ?_⟩, le_refl _⟩
    · rw [Fin.le_def]
      omega
    · simp only [Fin.le_def, Fin.lt_def]
      omega

/-- One position further queue `p` is one position nearer. -/
theorem val_sub_succ {p i : Fin 140} (hi : i ≠ p) :
    ((p - (i + 1) : Fin 140) : ℕ) + 1 = (p - i : Fin 140) := by
  have hip : (i : ℕ) ≠ p := fun h => hi (Fin.ext h)
  have hi' := i.isLt
  have hp := p.isLt
  rw [Fin.val_sub, Fin.val_sub, val_succ]
  split <;> omega

/-- A scan on its way to the nonempty queue `p` dispatches: the head of `p`, or a
process of another queue, which lowers the rank. -/
theorem scan_rank {n : ℕ} {p i : Fin 140} {s : Sched α} (hs : ∀ i, s.currentSlot i < slot i)
    (hp : (s.mlqReadyQueue p).toList ≠ []) (hw : OnTheWay p s i) (hn : (p - i : Fin 140) < n) :
    ∃ a, (scan n i s).1 = some a ∧
      ((∃ rest, (s.mlqReadyQueue p).toList = a :: rest) ∨ rank p (scan n i s).2 < rank p s) := by
  induction n generalizing i s with
  | zero => exact absurd hn (Nat.not_lt_zero _)
  | succ n ih =>
    rcases scan_succ n i s with ⟨a, q, hl, _, he⟩ | ⟨hskip, he⟩
    · rw [he]
      refine ⟨a, rfl, ?_⟩
      by_cases hi : i = p
      · subst hi
        exact Or.inl ⟨_, hl⟩
      · exact Or.inr (rank_dispatch hs hw hi a q)
    · -- the queue at `i` is empty, so it is not `p`
      have hempty := hskip.resolve_right (Nat.not_le.mpr (hs i))
      have hi : i ≠ p := fun h => hp (h ▸ hempty)
      have hnear := val_sub_succ hi
      have hqueues := wrap_mlqReadyQueue s (i + 1)
      obtain ⟨hway, hle⟩ := hw.next hi
      obtain ⟨a, ha, hres⟩ := ih (wrap_slots hs (i + 1)) (by rw [hqueues]; exact hp) hway
        (by omega)
      rw [hqueues] at hres
      rw [he]
      exact ⟨a, ha, hres.imp_right fun h => h.trans_le hle⟩

/-- A dispatch while queue `p` waits lowers the rank. -/
theorem rank_get {p : Fin 140} {s s' : Sched α} {result : Option α} (hI : SlotInv prio s)
    (hw : Waits prio p s (.get result)) (h : getMlqProc s = (result, s')) :
    rank p s' < rank p s := by
  have hway : OnTheWay p s s.currentPrio := ⟨le_refl _, le_or_gt _ _⟩
  obtain ⟨a, ha, hres⟩ := scan_rank hI.slots hw.1 hway (n := maxPrio) (Fin.isLt _)
  change (getMlqProc s).1 = some a at ha
  change _ ∨ rank p (getMlqProc s).2 < rank p s at hres
  rw [h] at ha hres
  rcases hres with ⟨rest, hl⟩ | hlt
  · exact absurd (hI.members p a (by rw [hl]; exact List.mem_cons_self)) (hw.2 a (congrArg _ ha))
  · exact hlt

/-- While queue `p` waits, at most the slots of the other queues are dispatched. -/
theorem dispatches_le_slots {p : Fin 140} {s s' : Sched α} {calls : List (SchedCall α)}
    (hreach : Reachable (fun s => s = initScheduler) (CallStep pid prio) s)
    (h : Run (Guarded (Waits prio p) (CallStep pid prio)) s calls s') :
    calls.countP isDispatch ≤ ∑ q ∈ Finset.univ.erase p, (maxPrio - (q : ℕ)) := by
  have hcount := h.countP_add_rank_le (SlotInv prio) (rank p) isDispatch ?_
    (slotInv_of_reachable hreach)
  · exact ((Nat.le_add_right _ _).trans hcount).trans (rank_le p s)
  · rintro t call t' hI ⟨hw, hstep⟩
    refine ⟨slotInv_step hI hstep, ?_⟩
    cases call with
    | get result =>
      have hlt := rank_get hI hw hstep
      split <;> omega
    | add a =>
      cases hstep
      have hsame : rank p (addMlqProc prio t a) = rank p t := by
        unfold addMlqProc SchedulerMlq.enqueueReady
        split <;> rfl
      rw [hsame]
      exact Nat.le_of_eq (Nat.zero_add _)
    | put a =>
      cases hstep
      have hsame : rank p (putMlqProc pid prio t a) = rank p t := by
        unfold putMlqProc SchedulerMlq.enqueueReady
        split <;> rfl
      rw [hsame]
      exact Nat.le_of_eq (Nat.zero_add _)
    | finish a =>
      cases hstep
      exact Nat.le_of_eq (Nat.zero_add _)

/-- The number of a process is its pid and its priority. -/
def byNumber (a : ℕ) : BitVec 32 := BitVec.ofNat 32 a

/-- A process of priority 5 waits while one of priority 0 is dispatched. -/
theorem dispatches_le_slots_waiting : ∃ s s',
    Reachable (fun s => s = initScheduler) (CallStep byNumber byNumber) s ∧
      Run (Guarded (Waits byNumber 5) (CallStep byNumber byNumber)) s [.get (some 0)] s' ∧
      ([.get (some 0)] : List (SchedCall ℕ)).countP isDispatch ≤
        ∑ q ∈ Finset.univ.erase (5 : Fin 140), (maxPrio - (q : ℕ)) := by
  let s := addMlqProc byNumber (addMlqProc byNumber initScheduler 5) 0
  have hreach : Reachable (fun s => s = initScheduler) (CallStep byNumber byNumber) s :=
    ⟨initScheduler, [.add 5, .add 0], rfl, .cons rfl (.cons rfl (.nil _))⟩
  have hwait : Waits byNumber 5 s (.get (some 0)) := by
    have hlist : (s.mlqReadyQueue 5).toList = [5] := rfl
    refine ⟨by rw [hlist]; exact List.cons_ne_nil _ _, ?_⟩
    rintro a ⟨⟩
    decide
  have hget : getMlqProc s = (some 0, (getMlqProc s).2) := rfl
  have hrun : Run (Guarded (Waits byNumber 5) (CallStep byNumber byNumber)) s [.get (some 0)] _ :=
    .cons ⟨hwait, hget⟩ (.nil _)
  exact ⟨s, _, hreach, hrun, dispatches_le_slots hreach hrun⟩

end OsSim.SchedulerStarvation
