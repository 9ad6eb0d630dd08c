import OsSim.SchedulerFifo

/-!
# How long a process waits

A process waits until those before it in its queue have been dispatched, and for each
turn of its queue until the scan has come to it. The measure adds up what can be
dispatched before that; every dispatch that is not its own lowers it.
-/

namespace OsSim.SchedulerWaiting

open SchedulerQueue SchedulerMlq SchedulerStarvation SchedulerFifo RunSteps

variable {α : Type*} {pid prio : α → BitVec 32}

/-- The slots of the queues other than `p`. -/
def otherSlots (p : Fin 140) : ℕ := ∑ q ∈ Finset.univ.erase p, slot q

/-- What can be dispatched before a process of queue `p` with `k` others before it: what
lies on the way of the scan to the queue, a round of all other queues each time the queue
has used up its slots, and the `k` processes. -/
def ahead (p : Fin 140) (s : Sched α) (k : ℕ) : ℕ :=
  rank p s + otherSlots p * ((s.currentSlot p + k) / slot p) + k

/-- The dispatches before a process never exceed a round of the other queues for each turn,
and the processes before it. -/
theorem ahead_le (p : Fin 140) (s : Sched α) (k : ℕ) :
    ahead p s k ≤ otherSlots p * ((s.currentSlot p + k) / slot p + 1) + k := by
  have hrank : rank p s ≤ otherSlots p := rank_le p s
  unfold ahead
  rw [Nat.mul_succ]
  omega

/-- The dispatches before a process depend on the counters of the scheduler only. -/
theorem ahead_congr {p : Fin 140} {s s' : Sched α} (hslot : s'.currentSlot = s.currentSlot)
    (hprio : s'.currentPrio = s.currentPrio) (k : ℕ) : ahead p s' k = ahead p s k := by
  unfold ahead rank rankAt
  rw [hslot, hprio]

/-- The slots that queue `p` itself has used do not count on the way to it. -/
theorem rank_update_self {p : Fin 140} {s s' : Sched α} {c : ℕ}
    (hslot : s'.currentSlot = Function.update s.currentSlot p c)
    (hprio : s'.currentPrio = s.currentPrio) : rank p s' = rank p s := by
  unfold rank
  refine Finset.sum_congr rfl fun q _ => ?_
  unfold rankAt
  rw [hslot, hprio]
  by_cases hq : q = p
  · subst hq
    rw [Function.update_self]
    simp only [Fin.le_def, Fin.lt_def]
    split_ifs <;> omega
  · rw [Function.update_of_ne hq]

/-- A dispatch from queue `p` itself brings the next process nearer. -/
theorem ahead_dispatch_self {p : Fin 140} {s : Sched α} (hs : s.currentSlot p < slot p) (a : α)
    (q : Queue α) (k : ℕ) : ahead p (dispatch s p a q) k < ahead p s (k + 1) := by
  obtain ⟨hfull, hc, _⟩ | ⟨_, hc, hp⟩ := dispatch_counters s p a q
  · -- the queue has used up its slots: the others have theirs again
    have hrank : rank p (dispatch s p a q) ≤ otherSlots p := rank_le p _
    have hturn : (s.currentSlot p + (k + 1)) / slot p = k / slot p + 1 := by
      have hsum : s.currentSlot p + (k + 1) = k + slot p := by omega
      rw [hsum, Nat.add_div_right k (slot_pos p)]
    unfold ahead
    rw [hturn, hc, Function.update_self, Nat.zero_add, Nat.mul_succ]
    omega
  · have hturn : s.currentSlot p + 1 + k = s.currentSlot p + (k + 1) := by omega
    unfold ahead
    rw [rank_update_self hc hp, hc, Function.update_self, hturn]
    omega

/-- A dispatch on the way to queue `p` brings the scan nearer. -/
theorem ahead_dispatch {p i : Fin 140} {s : Sched α} (hs : ∀ i, s.currentSlot i < slot i)
    (hw : OnTheWay p s i) (hi : i ≠ p) (a : α) (q : Queue α) (k : ℕ) :
    ahead p (dispatch s i a q) k < ahead p s k := by
  have hrank := rank_dispatch hs hw hi a q
  have hsame : (dispatch s i a q).currentSlot p = s.currentSlot p := by
    obtain ⟨_, hc, _⟩ | ⟨_, hc, _⟩ := dispatch_counters s i a q <;>
      rw [hc, Function.update_of_ne hi.symm]
  unfold ahead
  rw [hsame]
  omega

/-- A position further nothing has been added. -/
theorem ahead_wrap {p i : Fin 140} {s : Sched α} (hw : OnTheWay p s i) (hi : i ≠ p) (k : ℕ) :
    ahead p (wrap s (i + 1)) k ≤ ahead p s k := by
  have hrank := (hw.next hi).2
  have hslot : (wrap s (i + 1)).currentSlot p ≤ s.currentSlot p := by
    unfold wrap
    split
    · exact Nat.zero_le _
    · exact le_refl _
  have hdiv := Nat.div_le_div_right (c := slot p) (Nat.add_le_add_right hslot k)
  have hmul := Nat.mul_le_mul_left (otherSlots p) hdiv
  unfold ahead
  omega

/-- What a dispatch does for the processes waiting in queue `p`. -/
def Nearer (p : Fin 140) (s s' : Sched α) (a : α) : Prop :=
  s'.mlqReadyQueue p = s.mlqReadyQueue p ∧ (∀ k, ahead p s' k < ahead p s k) ∨
    (s.mlqReadyQueue p).toList = a :: (s'.mlqReadyQueue p).toList ∧
      ∀ k, ahead p s' k < ahead p s (k + 1)

/-- A scan on its way to the nonempty queue `p` brings its processes nearer. -/
theorem scan_nearer {n : ℕ} {p i : Fin 140} {s : Sched α} (hs : ∀ i, s.currentSlot i < slot i)
    (hp : (s.mlqReadyQueue p).toList ≠ []) (hw : OnTheWay p s i) (hn : (p - i : Fin 140) < n) :
    ∃ a, (scan n i s).1 = some a ∧ Nearer p s (scan n i s).2 a := by
  induction n generalizing i s with
  | zero => exact absurd hn (Nat.not_lt_zero _)
  | succ n ih =>
    rcases scan_succ n i s with ⟨a, q, hl, _, he⟩ | ⟨hskip, he⟩
    · rw [he]
      refine ⟨a, rfl, ?_⟩
      by_cases hi : i = p
      · subst hi
        refine Or.inr ⟨?_, ahead_dispatch_self (hs i) a q⟩
        dsimp only
        rw [dispatch_mlqReadyQueue, Function.update_self]
        exact hl
      · refine Or.inl ⟨?_, ahead_dispatch hs hw hi a q⟩
        dsimp only
        rw [dispatch_mlqReadyQueue, Function.update_of_ne (Ne.symm hi)]
    · have hempty := hskip.resolve_right (Nat.not_le.mpr (hs i))
      have hi : i ≠ p := fun h => hp (h ▸ hempty)
      have hdist := val_sub_succ hi
      have hqueues := wrap_mlqReadyQueue s (i + 1)
      obtain ⟨a, ha, hnear⟩ := ih (wrap_slots hs (i + 1)) (by rw [hqueues]; exact hp)
        (hw.next hi).1 (by omega)
      rw [he]
      refine ⟨a, ha, ?_⟩
      unfold Nearer at hnear ⊢
      rw [hqueues] at hnear
      exact hnear.imp
        (fun h => ⟨h.1, fun k => (h.2 k).trans_le (ahead_wrap hw hi k)⟩)
        (fun h => ⟨h.1, fun k => (h.2 k).trans_le (ahead_wrap hw hi (k + 1))⟩)

/-- A dispatch by `get_proc` brings a waiting process nearer. -/
theorem getMlqProc_nearer {p : Fin 140} {s : Sched α} (hs : ∀ i, s.currentSlot i < slot i)
    (hp : (s.mlqReadyQueue p).toList ≠ []) :
    ∃ a, (getMlqProc s).1 = some a ∧ Nearer p s (getMlqProc s).2 a :=
  scan_nearer hs hp ⟨le_refl _, le_or_gt _ _⟩ (Fin.isLt _)

/-- The other calls leave the processes that wait as near as they were. -/
theorem ahead_of_not_get {p : Fin 140} {s s' : Sched α} {call : SchedCall α}
    (h : CallStep pid prio s call s') (hcall : ∀ result, call ≠ .get result) :
    (∀ k, ahead p s' k = ahead p s k) ∧ dispatchedFrom p s call = [] ∧ isDispatch call = false := by
  cases call with
  | get result => exact absurd rfl (hcall result)
  | add a =>
    cases h
    exact ⟨ahead_congr (enqueueReady_counters s a).1 (enqueueReady_counters s a).2, rfl, rfl⟩
  | put a =>
    cases h
    exact ⟨ahead_congr (s := s) (enqueueReady_counters (finishProc pid s a) a).1
      (enqueueReady_counters (finishProc pid s a) a).2, rfl, rfl⟩
  | finish a =>
    cases h
    exact ⟨ahead_congr rfl rfl, rfl, rfl⟩

/-- A run that dispatches at most `k` processes from queue `p`, of more than `k` that wait
there, dispatches no more than is ahead of the process with `k` others before it. -/
theorem dispatches_le_ahead {p : Fin 140} {s s' : Sched α} {calls : List (SchedCall α)}
    (hI : SlotInv prio s) (h : Run (CallStep pid prio) s calls s') {k : ℕ}
    (hk : k < (s.mlqReadyQueue p).toList.length)
    (hd : (dispatched pid prio p s calls).length ≤ k) : calls.countP isDispatch ≤ ahead p s k := by
  induction h generalizing k with
  | nil s => exact Nat.zero_le _
  | @cons s t u call calls hstep _ ih =>
    have hI' := slotInv_step hI hstep
    have hqueue := congrArg List.length (queue_step hstep p)
    rw [List.length_append, List.length_append] at hqueue
    rw [dispatched, ← eq_afterCall hstep, List.length_append] at hd
    rw [List.countP_cons]
    by_cases hget : ∃ result, call = .get result
    · obtain ⟨result, rfl⟩ := hget
      obtain ⟨a, ha, hnear⟩ := getMlqProc_nearer hI.slots
        (List.ne_nil_of_length_pos (Nat.zero_lt_of_lt hk))
      have hget : (getMlqProc s).2 = t := congrArg Prod.snd hstep
      obtain rfl : result = some a := (congrArg Prod.fst hstep).symm.trans ha
      rw [hget] at hnear
      rw [isDispatch, if_pos rfl]
      rcases hnear with ⟨hsame, hlt⟩ | ⟨hown, hlt⟩
      · -- a process of another queue
        have hnone : dispatchedFrom p s (.get (some a)) = [] := by
          rw [dispatchedFrom, hget, hsame, if_neg (Nat.lt_irrefl _)]
        rw [hnone, List.length_nil, Nat.zero_add] at hd
        have hrest := ih hI' (by rw [hsame]; exact hk) hd
        have hnext := hlt k
        omega
      · -- the first process of queue `p`
        have hlen := congrArg List.length hown
        rw [List.length_cons] at hlen
        have hsome : dispatchedFrom p s (.get (some a)) = [a] := by
          rw [Queue.length_toList, Queue.length_toList] at hlen
          rw [dispatchedFrom, hget, if_pos (by omega)]
        rw [hsome, List.length_singleton] at hd
        obtain ⟨k, rfl⟩ : ∃ j, k = j + 1 := ⟨k - 1, by omega⟩
        have hrest := ih hI' (by omega : k < _) (by omega)
        have hnext := hlt k
        omega
    · obtain ⟨hahead, hnone, hno⟩ := ahead_of_not_get (p := p) hstep fun result he =>
        hget ⟨result, he⟩
      rw [hnone, List.length_nil, Nat.zero_add] at hd hqueue
      rw [hno, if_neg Bool.false_ne_true, Nat.add_zero, ← hahead k]
      exact ih hI' (by omega) hd

/-- A ready process with `k` others before it in its queue: behind any run it has been
dispatched, as the next one behind these, or it still waits, and then at most `k` processes
and a round of the other queues for each turn that its queue needs for them have been
dispatched. -/
theorem dispatched_or_waits {p : Fin 140} {s s' : Sched α} {calls : List (SchedCall α)} {a : α}
    {k : ℕ} (hreach : Reachable (fun s => s = initScheduler) (CallStep pid prio) s)
    (ha : (s.mlqReadyQueue p).toList[k]? = some a) (h : Run (CallStep pid prio) s calls s') :
    (dispatched pid prio p s calls)[k]? = some a ∨
      (s'.mlqReadyQueue p).toList[k - (dispatched pid prio p s calls).length]? = some a ∧
        calls.countP isDispatch ≤ (∑ q ∈ Finset.univ.erase p, (maxPrio - (q : ℕ))) *
          ((s.currentSlot p + k) / (maxPrio - p) + 1) + k := by
  obtain ⟨hk, _⟩ := List.getElem?_eq_some_iff.mp ha
  have hfifo := congrArg (fun l => l[k]?) (queue_run h p)
  rw [List.getElem?_append_left hk, ha] at hfifo
  rcases Nat.lt_or_ge k (dispatched pid prio p s calls).length with hlt | hge
  · rw [List.getElem?_append_left hlt] at hfifo
    exact Or.inl hfifo.symm
  · rw [List.getElem?_append_right hge] at hfifo
    have hfew := dispatches_le_ahead (slotInv_of_reachable hreach) h hk hge
    exact Or.inr ⟨hfifo.symm, hfew.trans (ahead_le p s k)⟩

/-- Processes 7 and 5 of one priority; the first one is dispatched, the second one waits. -/
theorem dispatched_or_waits_second : ∃ s s' : Sched ℕ,
    (s.mlqReadyQueue 3).toList[1]? = some 5 ∧
      Run (CallStep byNumber onePrio) s [.get (some 7)] s' ∧
        ((dispatched byNumber onePrio 3 s [.get (some 7)])[1]? = some 5 ∨
          (s'.mlqReadyQueue 3).toList[1 -
              (dispatched byNumber onePrio 3 s [.get (some 7)]).length]? = some 5 ∧
            ([.get (some 7)] : List (SchedCall ℕ)).countP isDispatch ≤
              (∑ q ∈ Finset.univ.erase (3 : Fin 140), (maxPrio - (q : ℕ))) *
                ((s.currentSlot 3 + 1) / (maxPrio - (3 : Fin 140)) + 1) + 1) := by
  let s := addMlqProc onePrio (addMlqProc onePrio initScheduler 7) 5
  have hreach : Reachable (fun s => s = initScheduler) (CallStep byNumber onePrio) s :=
    ⟨initScheduler, [.add 7, .add 5], rfl, .cons rfl (.cons rfl (.nil _))⟩
  have hwait : (s.mlqReadyQueue 3).toList[1]? = some 5 := rfl
  have hrun : Run (CallStep byNumber onePrio) s [.get (some 7)] (getMlqProc s).2 :=
    .cons rfl (.nil _)
  exact ⟨s, _, hwait, hrun, dispatched_or_waits hreach hwait hrun⟩

end OsSim.SchedulerWaiting
