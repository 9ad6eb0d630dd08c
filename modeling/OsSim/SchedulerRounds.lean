import OsSim.SchedulerStarvation
import OsSim.WeightedRounds
import Mathlib.Data.List.Iterate

/-!
# The share of each priority

While the same ready queues have processes at every `get_proc`, the scheduler is a
weighted round robin over them: it takes them in cyclic order from `current_prio` and
dispatches `slot[prio]` processes of one before it goes on to the next. So each priority
has the share of the dispatches that its slots are of the slots of all of them.
-/

namespace OsSim.SchedulerRounds

open SchedulerQueue SchedulerMlq SchedulerStarvation RunSteps WeightedRounds

variable {α : Type*} {pid prio : α → BitVec 32} {N : Finset (Fin 140)}

/-! ## The cyclic order -/

/-- The next position, `(prio + 1) % MAX_PRIO`. -/
def next (i : Fin 140) : Fin 140 := ⟨(i + 1) % maxPrio, Nat.mod_lt _ (Nat.succ_pos 139)⟩

theorem next_eq (i : Fin 140) : next i = i + 1 := rfl

/-- The members of the set among the next `n` positions from `i`. -/
def metFrom (N : Finset (Fin 140)) (n : ℕ) (i : Fin 140) : List (Fin 140) :=
  (List.iterate next i n).filter (· ∈ N)

/-- The set in the order in which a scan from position `i` meets it. -/
def order (N : Finset (Fin 140)) (i : Fin 140) : List (Fin 140) := metFrom N maxPrio i

theorem metFrom_succ (n : ℕ) (i : Fin 140) :
    metFrom N (n + 1) i = (if i ∈ N then [i] else []) ++ metFrom N n (i + 1) := by
  unfold metFrom
  rw [List.iterate, List.filter_cons, next_eq]
  by_cases hi : i ∈ N
  · rw [if_pos (decide_eq_true hi), if_pos hi, List.singleton_append]
  · rw [if_neg (by simpa using hi), if_neg hi, List.nil_append]

/-- The position some steps further. -/
theorem val_iterate (i : Fin 140) (m : ℕ) : ((next^[m] i : Fin 140) : ℕ) = (i + m) % 140 := by
  induction m generalizing i with
  | zero => exact (Nat.mod_eq_of_lt i.isLt).symm
  | succ m ih =>
    rw [Function.iterate_succ_apply, ih, next_eq, val_succ]
    split <;> omega

/-- One position further, the current one is the last of the round. -/
theorem order_succ (i : Fin 140) : ∃ rest,
    order N i = (if i ∈ N then [i] else []) ++ rest ∧
      order N (i + 1) = rest ++ (if i ∈ N then [i] else []) := by
  refine ⟨metFrom N 139 (i + 1), metFrom_succ 139 i, ?_⟩
  have hback : next^[139] (i + 1) = i := by
    refine Fin.ext ?_
    rw [val_iterate, val_succ]
    have hi := i.isLt
    split <;> omega
  have hlast : metFrom N 1 i = if i ∈ N then [i] else [] := by
    rw [metFrom_succ]
    exact List.append_nil _
  change (List.iterate next (i + 1) (139 + 1)).filter (· ∈ N) = _
  rw [List.iterate_add, List.filter_append, hback, ← hlast]
  rfl

/-- A position outside the set is skipped. -/
theorem order_skip {i : Fin 140} (hi : i ∉ N) : order N (i + 1) = order N i := by
  obtain ⟨rest, h, h'⟩ := order_succ (N := N) i
  rw [h, h', if_neg hi, List.append_nil, List.nil_append]

/-- A position of the set is the first one, and behind it the last one. -/
theorem order_turn {i : Fin 140} (hi : i ∈ N) :
    ∃ rest, order N i = i :: rest ∧ order N (i + 1) = rest ++ [i] := by
  obtain ⟨rest, h, h'⟩ := order_succ (N := N) i
  rw [if_pos hi] at h h'
  exact ⟨rest, h, h'⟩

/-- A whole round meets all of the set, -/
theorem mem_order {i p : Fin 140} : p ∈ order N i ↔ p ∈ N := by
  unfold order metFrom
  rw [List.mem_filter, decide_eq_true_iff]
  refine ⟨And.right, fun hp => ⟨List.mem_iterate.mpr ⟨(p - i : Fin 140), Fin.isLt _, ?_⟩, hp⟩⟩
  refine Fin.ext ?_
  rw [val_iterate, Fin.val_sub]
  have hp' := p.isLt
  have hi := i.isLt
  omega

/-- each member of it once, -/
theorem nodup_order (i : Fin 140) : (order N i).Nodup := by
  refine List.Nodup.filter _ ?_
  rw [← List.range_map_iterate]
  refine List.Nodup.map_on (fun x hx y hy h => ?_) List.nodup_range
  have hval := congrArg Fin.val h
  rw [val_iterate, val_iterate] at hval
  have hx' : x < 140 := List.mem_range.mp hx
  have hy' : y < 140 := List.mem_range.mp hy
  have hi := i.isLt
  omega

/-- and lasts as many dispatches as it has slots. -/
theorem length_round_order (i : Fin 140) : (round slot (order N i)).length = ∑ p ∈ N, slot p := by
  have hset : (order N i).toFinset = N := by
    ext p
    rw [List.mem_toFinset, mem_order]
  rw [length_round, ← List.sum_toFinset slot (nodup_order i), hset]

/-! ## Whose turn it is -/

/-- Only the next queue of the round may have used slots, and the round has not passed it. -/
def OneTurn (N : Finset (Fin 140)) (s : Sched α) : Prop :=
  ∀ q, s.currentSlot q ≠ 0 → (order N s.currentPrio).head? = some q ∧ s.currentPrio ≤ q

/-- The round robin that the counters stand for. -/
def turn (N : Finset (Fin 140)) (s : Sched α) : List (Fin 140) × ℕ :=
  (order N s.currentPrio, ((order N s.currentPrio).head?.map s.currentSlot).getD 0)

/-- The counters when the scan is at position `i`. -/
structure AtPosition (N : Finset (Fin 140)) (s : Sched α) (i : Fin 140) : Prop where
  /-- The scan has begun at `current_prio`. -/
  start : s.currentPrio ≤ i
  /-- The scan has passed empty queues only. -/
  skipped : ∀ j, s.currentPrio ≤ j → j < i → j ∉ N
  /-- The round is the same as at position `i`. -/
  same : order N s.currentPrio = order N i
  /-- No other turn has begun. -/
  oneTurn : OneTurn N s

/-- An empty queue is passed without any change to the round. -/
theorem AtPosition.next {s : Sched α} {i : Fin 140} (h : AtPosition N s i) (hi : i ∉ N) :
    AtPosition N (wrap s (i + 1)) (i + 1) ∧ turn N (wrap s (i + 1)) = turn N s := by
  have hval := val_succ i
  have hlt := i.isLt
  by_cases hlast : (i : ℕ) = 139
  · -- a new round starts, and no slot of the old one is in use
    have hzero : i + 1 = 0 := Fin.ext (by rw [hval, if_pos hlast])
    have hunused : ∀ q, s.currentSlot q = 0 := by
      intro q
      by_contra hq
      obtain ⟨hhead, hle⟩ := h.oneTurn q hq
      have hmem : q ∈ N := mem_order.mp (List.mem_of_mem_head? hhead)
      rcases lt_or_eq_of_le (Fin.le_def.mpr (by omega) : q ≤ i) with hqi | rfl
      · exact h.skipped q hle hqi hmem
      · exact hi hmem
    have hsame : order N 0 = order N s.currentPrio := by
      rw [h.same, ← order_skip hi, hzero]
    have hwrap : wrap s 0 = {s with currentSlot := fun _ => 0, currentPrio := 0} := if_pos rfl
    rw [hzero, hwrap]
    refine ⟨⟨le_refl _, fun j _ hj => absurd hj (Fin.not_lt_zero j), rfl, fun q hq => absurd rfl hq⟩, ?_⟩
    have hslots : s.currentSlot = fun _ => 0 := funext hunused
    unfold turn
    rw [hslots, hsame]
  · rw [if_neg hlast] at hval
    have hne : i + 1 ≠ 0 := fun h0 => by
      have hv : ((i + 1 : Fin 140) : ℕ) = 0 := congrArg Fin.val h0
      omega
    have hwrap : wrap s (i + 1) = s := if_neg hne
    have hstart := Fin.le_def.mp h.start
    rw [hwrap]
    refine ⟨⟨Fin.le_def.mpr (by omega), fun j hj hlt => ?_, ?_, h.oneTurn⟩, rfl⟩
    · rcases lt_or_eq_of_le (Fin.le_def.mpr (by rw [Fin.lt_def] at hlt; omega) : j ≤ i) with hji | rfl
      · exact h.skipped j hj hji
      · exact hi
    · rw [order_skip hi, h.same]

/-- A dispatch at position `i` is one service. -/
theorem AtPosition.dispatch {s : Sched α} {i : Fin 140} (h : AtPosition N s i) (hi : i ∈ N)
    (a : α) (q : Queue α) : (turn N s).1.head? = some i ∧
      OneTurn N (dispatch s i a q) ∧ turn N (dispatch s i a q) = serve slot (turn N s) := by
  obtain ⟨rest, hfirst, hlast⟩ := order_turn hi
  have horder : order N s.currentPrio = i :: rest := h.same.trans hfirst
  have hothers : ∀ q ≠ i, s.currentSlot q = 0 := by
    intro q hq
    by_contra h0
    obtain ⟨hhead, _⟩ := h.oneTurn q h0
    rw [horder, List.head?_cons] at hhead
    exact hq (Option.some.inj hhead).symm
  have hturn : turn N s = (i :: rest, s.currentSlot i) := by
    unfold turn
    rw [horder]
    rfl
  refine ⟨by rw [hturn]; rfl, ?_⟩
  rw [hturn, serve]
  obtain ⟨hfull, hc, hp⟩ | ⟨hpart, hc, hp⟩ := dispatch_counters s i a q
  · -- the turn is over
    have hunused : (SchedulerMlq.dispatch s i a q).currentSlot = fun _ => 0 := by
      rw [hc]
      funext j
      by_cases hj : j = i
      · rw [hj, Function.update_self]
      · rw [Function.update_of_ne hj, hothers j hj]
    refine ⟨fun j hj => absurd (congrFun hunused j) hj, ?_⟩
    rw [if_neg (Nat.not_lt.mpr hfull)]
    unfold turn
    rw [hp, hlast, hunused]
    cases (rest ++ [i]).head? <;> rfl
  · refine ⟨fun j hj => ?_, ?_⟩
    · rw [hc] at hj
      by_cases hji : j = i
      · subst hji
        rw [hp, horder]
        exact ⟨rfl, h.start⟩
      · rw [Function.update_of_ne hji] at hj
        exact absurd (hothers j hji) hj
    · rw [if_pos hpart]
      unfold turn
      rw [hp, horder, hc, List.head?_cons, Option.map_some, Option.getD_some, Function.update_self]

/-- What one `get_proc` does to the rounds. -/
structure Served (N : Finset (Fin 140)) (s s' : Sched α) (a : α) (p : Fin 140) : Prop where
  /-- The process comes from queue `p`, -/
  mem : a ∈ (s.mlqReadyQueue p).toList
  /-- whose turn it was, -/
  first : (turn N s).1.head? = some p
  /-- and the turns go on. -/
  next : OneTurn N s' ∧ turn N s' = serve slot (turn N s)

/-- A scan over queues of which exactly those of the set have processes. -/
theorem scan_serves {n : ℕ} {i : Fin 140} {s : Sched α}
    (hN : ∀ q, (s.mlqReadyQueue q).toList ≠ [] ↔ q ∈ N) (hs : ∀ q, s.currentSlot q < slot q)
    (hat : AtPosition N s i) (hmet : metFrom N n i ≠ []) :
    ∃ a p, (scan n i s).1 = some a ∧ Served N s (scan n i s).2 a p := by
  induction n generalizing i s with
  | zero => exact absurd rfl hmet
  | succ n ih =>
    rcases scan_succ n i s with ⟨a, q, hl, _, he⟩ | ⟨hskip, he⟩
    · have hi : i ∈ N := (hN i).mp (by rw [hl]; exact List.cons_ne_nil _ _)
      obtain ⟨hfirst, hnext⟩ := hat.dispatch hi a q
      rw [he]
      exact ⟨a, i, rfl, by rw [hl]; exact List.mem_cons_self, hfirst, hnext⟩
    · have hempty := hskip.resolve_right (Nat.not_le.mpr (hs i))
      have hi : i ∉ N := fun h => (hN i).mpr h hempty
      obtain ⟨hat', hturn⟩ := hat.next hi
      rw [metFrom_succ, if_neg hi, List.nil_append] at hmet
      obtain ⟨a, p, ha, hmem, hfirst, hnext⟩ :=
        ih (by rw [wrap_mlqReadyQueue]; exact hN) (wrap_slots hs (i + 1)) hat' hmet
      rw [hturn] at hfirst hnext
      rw [wrap_mlqReadyQueue] at hmem
      rw [he]
      exact ⟨a, p, ha, hmem, hfirst, hnext⟩

/-! ## Runs -/

/-- At a `get_proc` exactly the queues of the set have processes. -/
def Steady (N : Finset (Fin 140)) (s : Sched α) : SchedCall α → Prop
  | .get _ => ∀ q, (s.mlqReadyQueue q).toList ≠ [] ↔ q ∈ N
  | _ => True

/-- The priority of a dispatched process. -/
def dispatchedPrio (prio : α → BitVec 32) : SchedCall α → Option (Fin 140)
  | .get (some a) => if h : (prio a).toNat < 140 then some ⟨(prio a).toNat, h⟩ else none
  | _ => none

/-- The priorities of the processes that some calls dispatch. -/
def dispatchedPrios (prio : α → BitVec 32) (calls : List (SchedCall α)) : List (Fin 140) :=
  calls.filterMap (dispatchedPrio prio)

/-- A call with the same counters has the same turns. -/
theorem turn_congr {s s' : Sched α} (hslot : s'.currentSlot = s.currentSlot)
    (hprio : s'.currentPrio = s.currentPrio) (h : OneTurn N s) :
    OneTurn N s' ∧ turn N s' = turn N s := by
  unfold OneTurn turn at *
  rw [hslot, hprio]
  exact ⟨h, rfl⟩

/-- Each call serves the queue whose turn it is, or none. -/
theorem call_serves (hne : N.Nonempty) {s s' : Sched α} {call : SchedCall α}
    (hI : SlotInv prio s ∧ OneTurn N s)
    (h : Guarded (Steady N) (CallStep pid prio) s call s') :
    (SlotInv prio s' ∧ OneTurn N s') ∧
      (dispatchedPrio prio call = none ∧ turn N s' = turn N s ∨
        ∃ p, dispatchedPrio prio call = some p ∧ (turn N s).1.head? = some p ∧
          turn N s' = serve slot (turn N s)) := by
  obtain ⟨hslots, hone⟩ := hI
  have hslots' := slotInv_step hslots h.2
  have hkeep : s'.currentSlot = s.currentSlot → s'.currentPrio = s.currentPrio →
      dispatchedPrio prio call = none → (SlotInv prio s' ∧ OneTurn N s') ∧
        (dispatchedPrio prio call = none ∧ turn N s' = turn N s ∨
          ∃ p, dispatchedPrio prio call = some p ∧ (turn N s).1.head? = some p ∧
            turn N s' = serve slot (turn N s)) := fun hslot hprio hnone => by
    obtain ⟨hone', hturn⟩ := turn_congr hslot hprio hone
    exact ⟨⟨hslots', hone'⟩, Or.inl ⟨hnone, hturn⟩⟩
  cases call with
  | add a =>
    obtain ⟨_, rfl⟩ := h
    exact hkeep (enqueueReady_counters s a).1 (enqueueReady_counters s a).2 rfl
  | put a =>
    obtain ⟨_, rfl⟩ := h
    exact hkeep (enqueueReady_counters (finishProc pid s a) a).1
      (enqueueReady_counters (finishProc pid s a) a).2 rfl
  | finish a =>
    obtain ⟨_, rfl⟩ := h
    exact hkeep rfl rfl rfl
  | get result =>
    obtain ⟨hN, hget⟩ := h
    have hmet : metFrom N maxPrio s.currentPrio ≠ [] := by
      obtain ⟨p, hp⟩ := hne
      exact List.ne_nil_of_mem (mem_order.mpr hp)
    obtain ⟨a, p, ha, hmem, hfirst, hone', hturn⟩ := scan_serves hN hslots.slots
      ⟨le_refl _, fun j hj hlt => absurd hj (not_le.mpr hlt), rfl, hone⟩ hmet
    change (getMlqProc s).1 = some a at ha
    change OneTurn N (getMlqProc s).2 at hone'
    change turn N (getMlqProc s).2 = _ at hturn
    rw [hget] at ha hone' hturn
    have hp : (prio a).toNat = p := hslots.members p a hmem
    refine ⟨⟨hslots', hone'⟩, Or.inr ⟨p, ?_, hfirst, hturn⟩⟩
    dsimp only at ha
    rw [ha, dispatchedPrio, dif_pos (hp ▸ p.isLt)]
    exact congrArg some (Fin.ext hp)

/-- The priorities of some dispatches that go round the queues of the set from position `i`. -/
structure FairRounds (N : Finset (Fin 140)) (i : Fin 140) (prios : List (Fin 140)) : Prop where
  /-- The dispatches begin some rounds, in each of which every queue of the set, in cyclic
  order, has its slots in a row. -/
  rounds : ∃ m, prios <+: (List.replicate m (round slot (order N i))).flatten
  /-- Each priority has its share of any number of dispatches. -/
  share : ∀ p ∈ N, prios.length / (∑ q ∈ N, (maxPrio - (q : ℕ))) * (maxPrio - p) ≤ prios.count p ∧
    prios.count p ≤ (prios.length / (∑ q ∈ N, (maxPrio - (q : ℕ))) + 1) * (maxPrio - p)
  /-- The share of whole rounds is exact. -/
  exact : ∀ m, prios.length = m * ∑ q ∈ N, (maxPrio - (q : ℕ)) →
    ∀ p ∈ N, prios.count p = m * (maxPrio - p)

/-- Priorities that are served in turn, each as often as its slots, come in fair rounds. -/
theorem fairRounds_of_served {i : Fin 140} {prios : List (Fin 140)} (hne : N.Nonempty)
    (h : prios = served slot prios.length (order N i, 0)) : FairRounds N i prios := by
  have hpos : ∀ p ∈ order N i, 0 < slot p := fun p _ => slot_pos p
  have hsum : (round slot (order N i)).length = ∑ q ∈ N, (maxPrio - (q : ℕ)) := length_round_order i
  refine ⟨⟨prios.length, ?_⟩, fun p hp => ?_, fun m hm p hp => ?_⟩
  · have hlen : 0 < (round slot (order N i)).length := by
      obtain ⟨p, hp⟩ := hne
      rw [hsum]
      exact (slot_pos p).trans_le
        (Finset.single_le_sum (f := fun q : Fin 140 => slot q) (fun q _ => Nat.zero_le _) hp)
    have hprefix := served_mono (w := slot) (Nat.le_mul_of_pos_right prios.length hlen)
      (order N i, 0)
    rw [← h, (rounds hpos prios.length).1] at hprefix
    exact hprefix
  · have hshare := share hpos (nodup_order i) (mem_order.mpr hp) prios.length
    rw [← h, hsum] at hshare
    exact hshare
  · rw [h, hm, ← hsum, (rounds hpos m).1, count_rounds (nodup_order i) (mem_order.mpr hp)]
    rfl

/-- From a fresh round on, and as long as the same ready queues have processes at every
`get_proc`, the dispatches go round these queues. -/
theorem dispatches_in_rounds (hne : N.Nonempty) {s s' : Sched α} {calls : List (SchedCall α)}
    (hreach : Reachable (fun s => s = initScheduler) (CallStep pid prio) s)
    (hfresh : ∀ q, s.currentSlot q = 0)
    (h : Run (Guarded (Steady N) (CallStep pid prio)) s calls s') :
    FairRounds N s.currentPrio (dispatchedPrios prio calls) := by
  have hturn : turn N s = (order N s.currentPrio, 0) := by
    have hslots : s.currentSlot = fun _ => 0 := funext hfresh
    unfold turn
    rw [hslots]
    cases (order N s.currentPrio).head? <;> rfl
  refine fairRounds_of_served hne ?_
  rw [← hturn]
  exact served_of_run (fun s => SlotInv prio s ∧ OneTurn N s) (turn N) (dispatchedPrio prio)
    (fun _ _ _ hI hs => call_serves hne hI hs) h
    ⟨slotInv_of_reachable hreach, fun q hq => absurd (hfresh q) hq⟩

/-- The scheduler when a dispatched process has been put back. -/
def putBack (s : Sched ℕ) (a : ℕ) : Sched ℕ := putMlqProc byNumber byNumber (getMlqProc s).2 a

/-- A dispatch and the return of the process are a run of two calls with the same ready
queues. -/
theorem putBack_run {s : Sched ℕ} {a : ℕ} (hget : (getMlqProc s).1 = some a)
    (hready : ∀ q, (s.mlqReadyQueue q).toList ≠ [] ↔ q ∈ N) :
    Run (Guarded (Steady N) (CallStep byNumber byNumber)) s [.get (some a), .put a] (putBack s a) :=
  .cons ⟨hready, Prod.ext hget rfl⟩ (.cons ⟨trivial, rfl⟩ (.nil _))

/-- Two processes of the lowest priorities. -/
def lowest : Sched ℕ := addMlqProc byNumber (addMlqProc byNumber initScheduler 139) 138

/-- The priorities 138 and 139 take turns: two processes of the one, then one of the other. -/
theorem dispatches_in_rounds_lowest : ∃ s' : Sched ℕ,
    Run (Guarded (Steady {138, 139}) (CallStep byNumber byNumber)) lowest
        [.get (some 138), .put 138, .get (some 138), .put 138, .get (some 139), .put 139] s' ∧
      FairRounds {138, 139} lowest.currentPrio [138, 138, 139] := by
  have hreach : Reachable (fun s => s = initScheduler) (CallStep byNumber byNumber) lowest :=
    ⟨initScheduler, [.add 139, .add 138], rfl, .cons rfl (.cons rfl (.nil _))⟩
  have hready : ∀ s ∈ [lowest, putBack lowest 138, putBack (putBack lowest 138) 138],
      ∀ q, (s.mlqReadyQueue q).toList ≠ [] ↔ q ∈ ({138, 139} : Finset (Fin 140)) := by
    decide +kernel
  have hget : (getMlqProc lowest).1 = some 138 ∧ (getMlqProc (putBack lowest 138)).1 = some 138 ∧
      (getMlqProc (putBack (putBack lowest 138) 138)).1 = some 139 := by decide +kernel
  have hrun := (putBack_run hget.1 (hready _ (by simp))).append
    ((putBack_run hget.2.1 (hready _ (by simp))).append
      (putBack_run hget.2.2 (hready _ (by simp))))
  have hprios : dispatchedPrios byNumber [.get (some 138), .put 138, .get (some 138), .put 138,
      .get (some 139), .put 139] = [138, 138, 139] := by decide
  have hfair := dispatches_in_rounds (Finset.insert_nonempty _ _) hreach (fun _ => rfl) hrun
  exact ⟨_, hrun, hprios ▸ hfair⟩

end OsSim.SchedulerRounds
