import OsSim.LockedProgress
import OsSim.SchedulerStatements
import OsSim.SchedulerStarvation

/-!
# Scheduler calls are atomic

Run alone, the statements of each function of the scheduler do what its model does. As they
run under `queue_lock`, threads that interleave them step by step see the same variables and
results as if each call were one step, so that all that is proved of scheduler calls as steps
holds of the functions as they are.
-/

namespace OsSim.SchedulerSections

open RunSteps Commands LockedSections LockedProgress SchedulerQueue SchedulerMlq
open SchedulerStarvation SchedulerStatements

variable {α : Type}

/-! ## The variables of a scheduler -/

/-- The cells and the size of a queue. -/
def queueVars (q : Queue α) : QueueVars α := ⟨q.proc, q.size⟩

/-- The static variables of a scheduler. -/
def schedVars (s : Sched α) : Vars α where
  queue
    | .running => queueVars s.runningList
    | .ready i => queueVars (s.mlqReadyQueue i)
  currentSlot := s.currentSlot
  currentPrio := s.currentPrio

@[simp] theorem subscript_val (i : Fin 140) : subscript i = i :=
  Fin.ext (Nat.mod_eq_of_lt i.isLt)

@[simp] theorem setQueue_queue (v : Vars α) (id : QueueId) (q : QueueVars α) :
    (v.setQueue id q).queue id = q := by
  unfold Vars.setQueue
  dsimp only
  rw [Function.update_self]

@[simp] theorem setQueue_setQueue (v : Vars α) (id : QueueId) (q q' : QueueVars α) :
    (v.setQueue id q).setQueue id q' = v.setQueue id q' := by
  unfold Vars.setQueue
  rw [Function.update_idem]

@[simp] theorem setQueue_self (v : Vars α) (id : QueueId) : v.setQueue id (v.queue id) = v := by
  unfold Vars.setQueue
  rw [Function.update_eq_self]

/-- The variables of a scheduler with another running list. -/
theorem schedVars_running (s : Sched α) (q : Queue α) :
    (schedVars s).setQueue .running (queueVars q) = schedVars {s with runningList := q} := by
  unfold Vars.setQueue schedVars
  congr 1
  funext id
  cases id with
  | running => exact Function.update_self _ _ _
  | ready i => exact Function.update_of_ne (fun h => by cases h) _ _

/-- The variables of a scheduler with another ready queue. -/
theorem schedVars_ready (s : Sched α) (i : Fin 140) (q : Queue α) :
    (schedVars s).setQueue (.ready i) (queueVars q) =
      schedVars {s with mlqReadyQueue := Function.update s.mlqReadyQueue i q} := by
  unfold Vars.setQueue schedVars
  congr 1
  funext id
  cases id with
  | running => exact Function.update_of_ne (fun h => by cases h) _ _
  | ready j =>
    by_cases hj : j = i
    · rw [hj, Function.update_self]
      dsimp only
      rw [Function.update_self]
    · rw [Function.update_of_ne fun h => hj (QueueId.ready.inj h)]
      dsimp only
      rw [Function.update_of_ne hj]

/-! ## `queue.c` -/

/-- The functions of `queue.c` leave the variables of their caller alone. -/
structure Kept (l l' : Locals α) : Prop where
  /-- `proc`. -/
  proc : l'.proc = l.proc
  /-- `prio`. -/
  prio : l'.prio = l.prio
  /-- `attempts`. -/
  attempts : l'.attempts = l.attempts
  /-- The flag of the loop. -/
  left : l'.left = l.left

theorem Kept.refl (l : Locals α) : Kept l l := ⟨rfl, rfl, rfl, rfl⟩

theorem Kept.trans {l l' l'' : Locals α} (h : Kept l l') (h' : Kept l' l'') : Kept l l'' :=
  ⟨h'.proc.trans h.proc, h'.prio.trans h.prio, h'.attempts.trans h.attempts,
    h'.left.trans h.left⟩

/-- A queue named by the variables of the caller. -/
def Stable (id : Locals α → QueueId) : Prop := ∀ l l', Kept l l' → id l' = id l

theorem stable_running : Stable (runningList : Locals α → QueueId) := fun _ _ _ => rfl

theorem stable_ready : Stable (readyQueue : Locals α → QueueId) := fun l l' h => by
  unfold readyQueue
  rw [h.prio]

section Rules

variable {id : Locals α → QueueId} {Q : Locals α × Vars α → Prop} {l : Locals α} {v : Vars α}

/-- `enqueue`. -/
theorem wp_enqueueCode {proc : Locals α → Option α} {q : Queue α} {a : α}
    (hq : v.queue (id l) = queueVars q) (ha : proc l = some a)
    (h : Q (l, v.setQueue (id l) (queueVars (enqueue q a)))) :
    Wp (enqueueCode id proc) Q (l, v) := by
  have hsize : (v.queue (id l)).size = q.size := by rw [hq]; rfl
  refine wp_ite (fun hb => wp_skip ?_) fun hb => wp_seq (wp_act (wp_act ?_))
  · have hfull : maxQueueSize ≤ q.size := hsize ▸ of_decide_eq_true hb
    have hkeep : enqueue q a = q := dif_pos hfull
    rwa [hkeep, ← hq, setQueue_self] at h
  · have hroom : ¬maxQueueSize ≤ q.size := hsize ▸ of_decide_eq_false hb
    have hvars : queueVars (enqueue q a) =
        ⟨Function.update q.proc q.size (some a), q.size + 1⟩ := by
      unfold enqueue
      rw [dif_neg hroom]
      rfl
    rw [hvars] at h
    dsimp only
    rw [hq, ha, setQueue_queue, setQueue_setQueue]
    exact h

/-- The shift loop moves the cells behind the selected one and takes one off the size. -/
theorem wp_shiftCode (hid : Stable id) {cells : ℕ → Option α} {size : ℕ}
    (hq : v.queue (id l) = ⟨cells, size⟩) (hj : l.j ≤ size - 1)
    (h : ∀ l', Kept l l' → l'.selected = l.selected →
      Q (l', v.setQueue (id l) ⟨shiftLoop cells l.j (size - 1 - l.j), size - 1⟩)) :
    Wp (shiftCode id) Q (l, v) := by
  refine wp_seq (wp_loop (fun m s => Kept l s.1 ∧ s.1.selected = l.selected ∧
    s.1.j + m = size - 1 ∧ ∃ cells', s.2 = v.setQueue (id l) ⟨cells', size⟩ ∧
      shiftLoop cells' s.1.j m = shiftLoop cells l.j (size - 1 - l.j))
    ⟨.refl l, rfl, Nat.add_sub_cancel' hj, cells, ?_, rfl⟩ ?_ ?_)
  · rw [← hq, setQueue_self]
  · rintro ⟨l', v'⟩ ⟨hkept, hselected, hm, cells', rfl, hcells⟩
    have hid' : id l' = id l := hid l l' hkept
    refine ⟨?_, wp_act ?_⟩
    · unfold onQueue
      dsimp only
      rw [hid', setQueue_queue]
      exact decide_eq_false (Nat.not_lt.mpr hm.ge)
    · dsimp only
      rw [hid', setQueue_queue, setQueue_setQueue]
      have hend : cells' = shiftLoop cells l.j (size - 1 - l.j) := hcells
      rw [hend]
      exact h l' hkept hselected
  · rintro m ⟨l', v'⟩ ⟨hkept, hselected, hm, cells', rfl, hcells⟩
    have hid' : id l' = id l := hid l l' hkept
    have hj' : l'.j + (m + 1) = size - 1 := hm
    refine Or.inl ⟨?_, wp_seq (wp_act (wp_act ?_))⟩
    · unfold onQueue
      dsimp only
      rw [hid', setQueue_queue]
      exact decide_eq_true (show l'.j < size - 1 by omega)
    · have hnext : l'.j + 1 + m = size - 1 := by omega
      dsimp only
      rw [hid', setQueue_queue, setQueue_setQueue]
      exact ⟨hkept.trans ⟨rfl, rfl, rfl, rfl⟩, hselected, hnext, _, rfl, hcells⟩

/-- The cells and the size when one member is removed. -/
theorem queueVars_removeAt (q : Queue α) (i : ℕ) : queueVars (removeAt q i) =
    ⟨shiftLoop q.proc i (q.size - 1 - i), q.size - 1⟩ := rfl

/-- `dequeue`. -/
theorem wp_dequeueCode (hid : Stable id) {q : Queue α} (hq : v.queue (id l) = queueVars q)
    (h : ∀ l', Kept l l' → l'.selected = (dequeue q).1 →
      Q (l', v.setQueue (id l) (queueVars (dequeue q).2))) : Wp (dequeueCode id) Q (l, v) := by
  have hsize : (v.queue (id l)).size = q.size := by rw [hq]; rfl
  unfold dequeue at h
  refine wp_ite (fun hb => wp_act ?_) fun hb => wp_seq (wp_act (wp_seq (wp_act ?_)))
  · have hzero : q.size = 0 := hsize ▸ of_decide_eq_true hb
    rw [if_pos hzero, ← hq, setQueue_self] at h
    exact h _ ⟨rfl, rfl, rfl, rfl⟩ rfl
  · have hsome : ¬q.size = 0 := hsize ▸ of_decide_eq_false hb
    rw [if_neg hsome, queueVars_removeAt] at h
    have hkept : Kept l {l with selected := (v.queue (id l)).proc 0, j := 0} :=
      ⟨rfl, rfl, rfl, rfl⟩
    have hid' := hid _ _ hkept
    refine wp_shiftCode hid (by rw [hid', hq]) (Nat.zero_le _) fun l' hl' hselected => ?_
    rw [hid']
    refine h l' (hkept.trans hl') (hselected.trans ?_)
    change (v.queue (id l)).proc 0 = q.proc 0
    rw [hq]
    rfl

/-- A loop that goes through a queue and stops at the first match: `I` holds on the way. -/
theorem wp_search (index : Locals α → ℕ) (flag : Locals α → Bool) (I : Locals α → Prop)
    {hit miss : Locals α → Vars α → Locals α} {q : Queue α} {p : α → Bool} (hI : I l)
    (hq : ∀ l', I l' → v.queue (id l') = queueVars q) (hindex : index l = 0)
    (hflag : flag l = false) (hhit : ∀ l', flag (hit l' v) = true)
    (hmiss : ∀ l', I l' → flag l' = false →
      I (miss l' v) ∧ flag (miss l' v) = false ∧ index (miss l' v) = index l' + 1)
    (hsome : ∀ l', I l' → findFrom p q.proc 0 q.size = some (index l') → Q (hit l' v, v))
    (hnone : ∀ l', I l' → flag l' = false → findFrom p q.proc 0 q.size = none → Q (l', v)) :
    Wp (.loop (onQueue id fun l q => index l < q.size && !flag l)
      (.ite (onQueue id fun l q => (q.proc (index l)).any p) (setLocals hit) (setLocals miss)))
      Q (l, v) := by
  refine wp_loopUntil
    (b := fun t : Locals α × Vars α => index t.1 < (t.2.queue (id t.1)).size)
    (f := fun t => flag t.1)
    (fun m t => t.2 = v ∧ I t.1 ∧ index t.1 + m = q.size ∧
      findFrom p q.proc (index t.1) m = findFrom p q.proc 0 q.size)
    ⟨rfl, hI, hindex ▸ Nat.zero_add q.size, hindex ▸ rfl⟩ hflag ?_ ?_
  · rintro ⟨l', v'⟩ ⟨rfl, hI', hm, hfind⟩ hf
    dsimp only at hI' hm hfind hf ⊢
    rw [hq l' hI']
    exact ⟨decide_eq_false (Nat.not_lt.mpr hm.ge), hnone l' hI' hf hfind.symm⟩
  · rintro m ⟨l', v'⟩ ⟨rfl, hI', hm, hfind⟩ hf
    dsimp only at hI' hm hfind hf ⊢
    rw [hq l' hI']
    rw [findFrom] at hfind
    refine ⟨decide_eq_true (show index l' < q.size by omega),
      wp_ite (fun hb => wp_act ?_) fun hb => wp_act ?_⟩
    all_goals
      unfold onQueue at hb
      dsimp only at hb
      rw [hq l' hI'] at hb
    · have hany : (q.proc (index l')).any p = true := hb
      rw [if_pos hany] at hfind
      exact Or.inl ⟨hhit l', hsome l' hI' hfind.symm⟩
    · have hany : (q.proc (index l')).any p = false := hb
      obtain ⟨hI'', hf', hnext⟩ := hmiss l' hI' hf
      rw [if_neg fun hx => Bool.false_ne_true (hany.symm.trans hx), ← hnext] at hfind
      exact Or.inr ⟨hf', rfl, hI'', by dsimp only; rw [hnext]; omega, hfind⟩

/-- A search stops inside of the queue. -/
theorem findFrom_lt {q : Queue α} {p : α → Bool} {k : ℕ}
    (h : findFrom p q.proc 0 q.size = some k) : k < q.size := by
  obtain ⟨hnone, -⟩ | ⟨j, a, hsome, hj, -⟩ := findFrom_spec p q.filled_range
  · rw [hnone] at h
    cases h
  · rw [hsome, Nat.zero_add] at h
    exact Option.some.inj h ▸ hj

/-- `purgequeue`. -/
theorem wp_purgequeueCode (hid : Stable id) {q : Queue α} {same : α → Bool}
    (hq : v.queue (id l) = queueVars q)
    (h : ∀ l', Kept l l' → Q (l', v.setQueue (id l) (queueVars (purgequeue q same).2))) :
    Wp (purgequeueCode id same) Q (l, v) := by
  have hsize : (v.queue (id l)).size = q.size := by rw [hq]; rfl
  have hkeep : findFrom same q.proc 0 q.size = none → ∀ l', Kept l l' → Q (l', v) := by
    intro hnone l' hl'
    have hQ := h l' hl'
    unfold purgequeue at hQ
    rwa [hnone, ← hq, setQueue_self] at hQ
  refine wp_ite (fun hb => wp_skip ?_) fun _ => wp_seq (wp_act (wp_seq ?_))
  · have hzero : q.size = 0 := hsize ▸ of_decide_eq_true hb
    exact hkeep (by rw [hzero]; rfl) l (.refl l)
  · refine wp_search Locals.k Locals.found (Kept l)
      ⟨rfl, rfl, rfl, rfl⟩ (fun l' hl' => hid l l' hl' ▸ hq) rfl rfl (fun _ => rfl)
      (fun l' hl' hf => ⟨hl'.trans ⟨rfl, rfl, rfl, rfl⟩, hf, rfl⟩) (fun l' hl' hfind => ?_)
      fun l' hl' hf hfind => wp_iteFalse hf (wp_skip (hkeep hfind l' hl'))
    have hfound : Kept l {l' with found := true} := hl'.trans ⟨rfl, rfl, rfl, rfl⟩
    refine wp_iteTrue rfl (wp_seq (wp_act (wp_seq (wp_act ?_))))
    dsimp only
    rw [hid _ _ hfound]
    have hl : Kept l {l' with
        found := true, selected := (v.queue (id l)).proc l'.k, j := l'.k} :=
      hl'.trans ⟨rfl, rfl, rfl, rfl⟩
    have hlt : l'.k ≤ q.size - 1 := Nat.le_sub_one_of_lt (findFrom_lt hfind)
    have hid' := hid _ _ hl
    refine wp_shiftCode hid (hid' ▸ hq) hlt fun l₂ hl₂ _ => ?_
    have hQ := h l₂ (hl.trans hl₂)
    unfold purgequeue at hQ
    rw [hfind] at hQ
    rwa [hid']

end Rules

/-! ## `get_mlq_proc` -/

section Get

variable {Q : Locals α × Vars α → Prop} {l : Locals α} {s : Sched α} {i : Fin 140}

/-- The counters below `i` are cleared. -/
def cleared (s : Sched α) (i : ℕ) : Sched α :=
  {s with currentSlot := fun p => if (p : ℕ) < i then 0 else s.currentSlot p}

/-- Clearing counter `i` clears the counters below `i + 1`, once those below `i` are
cleared. -/
theorem cleared_succ (s : Sched α) (i : ℕ) : cleared s (i + 1) = {cleared s i with
    currentSlot := fun p => if (p : ℕ) = i then 0 else (cleared s i).currentSlot p} := by
  unfold cleared
  congr 1
  funext p
  dsimp only
  by_cases hp : (p : ℕ) = i
  · rw [if_pos hp, if_pos (hp ▸ Nat.lt_succ_self _)]
  · rw [if_neg hp]
    exact if_congr (by omega) rfl rfl

/-- Clearing all counters and `current_prio` is the start of a new round. -/
theorem cleared_maxPrio (s : Sched α) :
    {cleared s maxPrio with currentPrio := 0} = wrap s 0 := by
  have hall : (cleared s maxPrio).currentSlot = fun _ => 0 := funext fun p => if_pos p.isLt
  dsimp only
  rw [hall]
  rfl

/-- The next priority is the successor modulo `MAX_PRIO`. -/
theorem val_next (i : Fin 140) : ((i + 1 : Fin 140) : ℕ) = (i + 1) % maxPrio := Fin.val_add i 1

/-- The end of a turn of the loop. -/
theorem wp_advanceCode (hi : l.prio = i)
    (h : ∀ l', l'.proc = l.proc → l'.prio = ((i + 1 : Fin 140) : ℕ) → l'.attempts = l.attempts + 1 →
      l'.left = l.left → Q (l', schedVars (wrap s (i + 1)))) :
    Wp advanceCode Q (l, schedVars s) := by
  have hnext : (l.prio + 1) % maxPrio = ((i + 1 : Fin 140) : ℕ) := by rw [val_next, hi]
  have hkept : ∀ l', Kept {l with prio := (l.prio + 1) % maxPrio, attempts := l.attempts + 1} l' →
      Q (l', schedVars (wrap s (i + 1))) := fun l' hl' =>
    h l' hl'.proc (hl'.prio.trans hnext) hl'.attempts hl'.left
  refine wp_seq (wp_act (wp_seq (wp_act (wp_ite (fun hb => ?_) fun hb => wp_skip ?_))))
  · have hzero : i + 1 = 0 := Fin.ext (hnext.symm.trans (of_decide_eq_true hb))
    rw [hzero, ← cleared_maxPrio] at hkept
    refine wp_seq (wp_act (wp_seq (wp_loop (fun m t =>
      Kept {l with prio := (l.prio + 1) % maxPrio, attempts := l.attempts + 1} t.1 ∧
        t.1.i + m = maxPrio ∧ t.2 = schedVars (cleared s t.1.i))
      ⟨⟨rfl, rfl, rfl, rfl⟩, Nat.zero_add maxPrio, rfl⟩ ?_ ?_)))
    · rintro ⟨l', v'⟩ ⟨hl', hm, hv⟩
      dsimp only at hl' hm hv
      rw [Nat.add_zero] at hm
      rw [hm] at hv
      refine ⟨decide_eq_false (Nat.not_lt.mpr hm.ge), wp_act ?_⟩
      subst hv
      exact hkept l' hl'
    · rintro m ⟨l', v'⟩ ⟨hl', hm, hv⟩
      dsimp only at hl' hm hv
      subst hv
      refine Or.inl ⟨decide_eq_true (show l'.i < maxPrio from ?_), wp_seq (wp_act (wp_act ?_))⟩
      · exact hm ▸ Nat.lt_add_of_pos_right (Nat.succ_pos m)
      · refine ⟨hl'.trans ⟨rfl, rfl, rfl, rfl⟩, (Nat.succ_add_eq_add_succ _ _).trans hm, ?_⟩
        dsimp only
        rw [cleared_succ]
        rfl
  · have hpos : ¬i + 1 = 0 := fun hzero => by
      refine of_decide_eq_false hb ?_
      dsimp only
      rw [hnext, hzero]
      rfl
    unfold wrap at hkept
    rw [if_neg hpos] at hkept
    exact hkept _ ⟨rfl, rfl, rfl, rfl⟩

/-- The statements behind a successful `dequeue` dispatch the process. -/
theorem wp_dispatchCode {a : α} {q : Queue α} (hi : l.prio = i) (ha : l.proc = some a)
    (h : Q ({l with left := true}, schedVars (dispatch s i a q))) :
    Wp dispatchCode Q
      (l, schedVars {s with mlqReadyQueue := Function.update s.mlqReadyQueue i q}) := by
  have hix : subscript l.prio = i := by rw [hi, subscript_val]
  unfold dispatch at h
  dsimp only at h
  refine wp_seq (wp_act (wp_seq (wp_enqueueCode (q := s.runningList) rfl ha (wp_seq ?_))))
  dsimp only
  rw [hix]
  change Wp _ _ (l, (schedVars {s with
    mlqReadyQueue := Function.update s.mlqReadyQueue i q
    currentSlot := Function.update s.currentSlot i (s.currentSlot i + 1)}).setQueue
      .running (queueVars (enqueue s.runningList a)))
  rw [schedVars_running]
  refine wp_ite (fun hb => wp_seq (wp_act (wp_act (wp_act ?_)))) fun hb => wp_skip (wp_act ?_)
  · unfold onSlot at hb
    dsimp only at hb
    rw [hix] at hb
    have hfull : slot i ≤ Function.update s.currentSlot i (s.currentSlot i + 1) i :=
      of_decide_eq_true hb
    have hnext : (l.prio + 1) % maxPrio = ((i + 1 : Fin 140) : ℕ) := by rw [val_next, hi]
    rw [if_pos hfull] at h
    dsimp only
    rw [hix, hnext]
    exact h
  · unfold onSlot at hb
    dsimp only at hb
    rw [hix] at hb
    have hroom : ¬slot i ≤ Function.update s.currentSlot i (s.currentSlot i + 1) i :=
      of_decide_eq_false hb
    rw [if_neg hroom] at h
    exact h

/-- An attempt that dispatches. -/
theorem scan_dequeue (n : ℕ) (hsize : (s.mlqReadyQueue i).size ≠ 0)
    (hslot : s.currentSlot i < slot i) : ∃ a, (dequeue (s.mlqReadyQueue i)).1 = some a ∧
      scan (n + 1) i s = (some a, dispatch s i a (dequeue (s.mlqReadyQueue i)).2) := by
  obtain ⟨a, ha, -⟩ := toList_split (s.mlqReadyQueue i) (Nat.pos_of_ne_zero hsize)
  have hdequeue : dequeue (s.mlqReadyQueue i) = (some a, removeAt (s.mlqReadyQueue i) 0) := by
    unfold dequeue
    rw [if_neg hsize, ha]
  refine ⟨a, congrArg Prod.fst hdequeue, ?_⟩
  rw [scan, if_pos ⟨decide_eq_false hsize, hslot⟩, hdequeue]

/-- One turn of the loop. -/
theorem wp_attemptCode {n : ℕ} {r : Option α × Sched α} (hi : l.prio = i) (hleft : l.left = false)
    (hproc : l.proc = none) (hr : scan (n + 1) i s = r)
    (hdone : ∀ l', l'.left = true → l'.proc = r.1 → Q (l', schedVars r.2))
    (hnext : ∀ l' s', l'.left = false → l'.proc = none → l'.attempts = l.attempts + 1 →
      l'.prio = ((i + 1 : Fin 140) : ℕ) → scan n (i + 1) s' = r → Q (l', schedVars s')) :
    Wp attemptCode Q (l, schedVars s) := by
  have hix : subscript l.prio = i := by rw [hi, subscript_val]
  have hid : readyQueue l = .ready i := congrArg QueueId.ready hix
  have hadvance : ¬(empty (s.mlqReadyQueue i) = false ∧ s.currentSlot i < slot i) →
      Wp (.ite (fun s => s.1.left) .skip advanceCode) Q (l, schedVars s) := by
    intro hcond
    rw [scan, if_neg hcond] at hr
    exact wp_iteFalse hleft (wp_advanceCode hi fun l' hproc' hprio' hattempts' hleft' =>
      hnext l' _ (hleft'.trans hleft) (hproc'.trans hproc) hattempts' hprio' hr)
  refine wp_seq (wp_ite (fun hsize => wp_ite (fun hslot => ?_) fun hslot => wp_skip ?_)
    fun hsize => wp_skip ?_)
  all_goals
    unfold onQueue at hsize
    dsimp only at hsize
    rw [hid] at hsize
  · unfold onSlot at hslot
    dsimp only at hslot
    rw [hix] at hslot
    obtain ⟨a, ha, hscan⟩ := scan_dequeue n (of_decide_eq_true hsize) (of_decide_eq_true hslot)
    refine wp_seq (wp_dequeueCode stable_ready (by rw [hid]; rfl) fun l' hl' hselected => ?_)
    have hready := schedVars_ready s i (dequeue (s.mlqReadyQueue i)).2
    have hsome : l'.selected = some a := hselected.trans ha
    rw [hid, hready]
    refine wp_seq (wp_act (wp_iteTrue ?_
      (wp_dispatchCode (hl'.prio.trans hi) hsome (wp_iteTrue rfl (wp_skip ?_)))))
    · dsimp only
      rw [hsome]
      rfl
    · rw [← hr, hscan] at hdone
      exact hdone _ rfl hsome
  · unfold onSlot at hslot
    dsimp only at hslot
    rw [hix] at hslot
    exact hadvance fun h => of_decide_eq_false hslot h.2
  · exact hadvance fun h => of_decide_eq_false hsize (of_decide_eq_false h.1)

/-- `get_mlq_proc`. -/
theorem wp_getMlqProcCode
    (h : ∀ l', l'.proc = (getMlqProc s).1 → Q (l', schedVars (getMlqProc s).2)) :
    Wp getMlqProcCode Q (l, schedVars s) := by
  refine wp_seq (wp_act (wp_seq (wp_act (wp_seq (wp_act (wp_loopUntil
    (fun m t => t.1.proc = none ∧ t.1.attempts + m = maxPrio ∧
      ∃ (s' : Sched α) (i : Fin 140), t.2 = schedVars s' ∧ t.1.prio = i ∧
        scan m i s' = getMlqProc s)
    ⟨rfl, Nat.zero_add maxPrio, s, s.currentPrio, rfl, rfl, rfl⟩ rfl ?_ ?_))))))
  · rintro ⟨l', v'⟩ ⟨hproc, hm, s', i, hv, -, hscan⟩ _
    dsimp only at hproc hm hv hscan ⊢
    subst hv
    rw [← hscan] at h
    exact ⟨decide_eq_false (Nat.not_lt.mpr hm.ge), h l' hproc⟩
  · rintro m ⟨l', v'⟩ ⟨hproc, hm, s', i, hv, hi, hscan⟩ hleft
    dsimp only at hproc hm hv hi hscan hleft ⊢
    subst hv
    have hlt : l'.attempts < maxPrio := hm ▸ Nat.lt_add_of_pos_right (Nat.succ_pos m)
    refine ⟨decide_eq_true hlt, wp_attemptCode hi hleft hproc hscan
      (fun l₂ hl₂ hres => Or.inl ⟨hl₂, h l₂ hres⟩)
      fun l₂ s₂ hl₂ hnone hnext hi₂ hscan₂ =>
        Or.inr ⟨hl₂, hnone, ?_, s₂, i + 1, rfl, hi₂, hscan₂⟩⟩
    dsimp only
    rw [hnext, Nat.succ_add_eq_add_succ]
    exact hm

end Get

/-! ## The other functions of `sched.c` -/

section Calls

variable {pid prio : α → BitVec 32} {Q : Locals α × Vars α → Prop} {l : Locals α} {s : Sched α}

/-- The search in one queue. -/
theorem wp_searchCode {id : Locals α → QueueId} {v : Vars α} {q : Queue α} {x : BitVec 32}
    (hid : ∀ i, id {l with i := i} = id l) (hq : v.queue (id l) = queueVars q)
    (hleft : l.left = false)
    (hfound : ∀ l' a, findProc q (samePid pid x) = some a → l'.left = true → l'.proc = some a →
      Q (l', v))
    (hnone : findProc q (samePid pid x) = none → ∀ i, Q ({l with i := i}, v)) :
    Wp (searchCode pid id x) Q (l, v) := by
  have hq' : ∀ i, v.queue (id {l with i := i}) = queueVars q := fun i => by rw [hid, hq]
  unfold findProc at hfound hnone
  refine wp_seq (wp_act (wp_search (q := q) Locals.i Locals.left
    (fun l' => ∃ i, l' = {l with i := i}) ⟨0, rfl⟩ ?_ rfl hleft (fun _ => rfl) ?_ ?_ ?_))
  · rintro _ ⟨i, rfl⟩
    exact hq' i
  · rintro _ ⟨i, rfl⟩ _
    exact ⟨⟨i + 1, rfl⟩, hleft, rfl⟩
  · rintro _ ⟨i, rfl⟩ hfind
    obtain ⟨a, ha⟩ := Option.isSome_iff_exists.mp (q.filled i (findFrom_lt hfind))
    rw [hfind] at hfound
    refine hfound _ a ha rfl ?_
    dsimp only
    rw [hq', ← ha]
    rfl
  · rintro _ ⟨i, rfl⟩ _ hfind
    rw [hfind] at hnone
    exact hnone rfl i

/-- The levels from one on. -/
theorem drop_finRange {n : ℕ} (hn : n < maxPrio) :
    (List.finRange 140).drop n = ⟨n, hn⟩ :: (List.finRange 140).drop (n + 1) := by
  have hlen : n < (List.finRange 140).length := List.length_finRange.symm ▸ hn
  rw [List.drop_eq_getElem_cons hlen, List.getElem_finRange]
  rfl

/-- The search in the ready queues. -/
theorem wp_levels {x : BitVec 32} (hleft : l.left = false) (hproc : l.proc = none)
    (hlevel : l.level = 0)
    (h : ∀ l', l'.proc = ((List.finRange 140).findSome? fun i =>
      findProc (s.mlqReadyQueue i) (samePid pid x)) → Q (l', schedVars s)) :
    Wp (.loop (fun s => s.1.level < maxPrio && !s.1.left)
      (.seq (searchCode pid levelQueue x)
        (.ite (fun s => s.1.left) .skip (setLocals fun l _ => {l with level := l.level + 1}))))
      Q (l, schedVars s) := by
  refine wp_loopUntil (fun m t => t.1.proc = none ∧ t.1.level + m = maxPrio ∧
    t.2 = schedVars s ∧ (((List.finRange 140).drop t.1.level).findSome? fun i =>
      findProc (s.mlqReadyQueue i) (samePid pid x)) = (List.finRange 140).findSome? fun i =>
        findProc (s.mlqReadyQueue i) (samePid pid x))
    ⟨hproc, hlevel ▸ Nat.zero_add maxPrio, rfl, hlevel ▸ rfl⟩ hleft ?_ ?_
  · rintro ⟨l', v'⟩ ⟨hproc', hm, hv, hrest⟩ _
    dsimp only at hproc' hm hv hrest ⊢
    subst hv
    have hlen : (List.finRange 140).length ≤ l'.level := List.length_finRange.symm ▸ hm.ge
    rw [List.drop_of_length_le hlen] at hrest
    exact ⟨decide_eq_false (Nat.not_lt.mpr hm.ge), h l' (hproc'.trans hrest)⟩
  · rintro m ⟨l', v'⟩ ⟨hproc', hm, hv, hrest⟩ hleft'
    dsimp only at hleft' hproc' hm hv hrest ⊢
    subst hv
    have hlt : l'.level < maxPrio := hm ▸ Nat.lt_add_of_pos_right (Nat.succ_pos m)
    have hid : levelQueue l' = .ready ⟨l'.level, hlt⟩ :=
      congrArg QueueId.ready (subscript_val ⟨l'.level, hlt⟩)
    rw [drop_finRange hlt, List.findSome?_cons] at hrest
    refine ⟨decide_eq_true hlt, wp_seq (wp_searchCode (q := s.mlqReadyQueue ⟨l'.level, hlt⟩)
      (fun _ => rfl) (by rw [hid]; rfl) hleft' (fun l₂ a hfind hleft₂ hproc₂ => ?_)
      fun hfind i => ?_)⟩
    · rw [hfind] at hrest
      exact wp_iteTrue hleft₂ (wp_skip (Or.inl ⟨hleft₂, h l₂ (hproc₂.trans hrest)⟩))
    · rw [hfind] at hrest
      refine wp_iteFalse hleft' (wp_act (Or.inr ⟨hleft', hproc', ?_, rfl, hrest⟩))
      exact (Nat.succ_add_eq_add_succ _ _).trans hm

/-- `find_process_by_pid`. -/
theorem wp_findProcessByPidCode {x : BitVec 32}
    (h : ∀ l', l'.proc = findProcessByPid pid s x → Q (l', schedVars s)) :
    Wp (findProcessByPidCode pid x) Q (l, schedVars s) := by
  unfold findProcessByPid at h
  refine wp_seq (wp_act (wp_seq (wp_searchCode (q := s.runningList) (fun _ => rfl) rfl rfl
    (fun l' a hfind hleft hproc => ?_) fun hfind i => ?_)))
  · rw [hfind] at h
    refine wp_seq (wp_act (wp_loopFalse ?_ (h _ hproc)))
    dsimp only
    rw [hleft]
    exact Bool.and_false _
  · rw [hfind] at h
    exact wp_seq (wp_act (wp_levels rfl rfl rfl h))

/-- Insertion into a ready queue. -/
theorem wp_enqueueReadyCode {a : α} (h : Q (l, schedVars (enqueueReady prio s a))) :
    Wp (enqueueReadyCode prio a) Q (l, schedVars s) := by
  unfold enqueueReady at h
  refine wp_ite (fun hb => ?_) fun hb => wp_skip ?_
  · have hlt : (prio a).toNat < 140 := of_decide_eq_true hb
    have hix : subscript (prio a).toNat = ⟨(prio a).toNat, hlt⟩ :=
      subscript_val ⟨(prio a).toNat, hlt⟩
    rw [dif_pos hlt] at h
    dsimp only at h
    rw [hix]
    refine wp_enqueueCode (q := s.mlqReadyQueue ⟨(prio a).toNat, hlt⟩) rfl rfl ?_
    rwa [schedVars_ready]
  · have hge : ¬(prio a).toNat < 140 := of_decide_eq_false hb
    rwa [dif_neg hge] at h

/-- Removal from the running list. -/
theorem wp_finishProcCode {a : α}
    (h : ∀ l', Kept l l' → Q (l', schedVars (finishProc pid s a))) :
    Wp (finishProcCode pid a) Q (l, schedVars s) := by
  refine wp_purgequeueCode stable_running (q := s.runningList) rfl fun l' hl' => ?_
  have hQ := h l' hl'
  unfold finishProc at hQ
  rwa [← schedVars_running] at hQ

end Calls

/-! ## Calls as steps -/

section Steps

variable {κ : Type} {pid prio : α → BitVec 32}

/-- A call as one step, with its result. -/
def runCall (pid prio : α → BitVec 32) (s : Sched α) : Call α → Option α × Sched α
  | .finish a => (none, finishProc pid s a)
  | .get => getMlqProc s
  | .put a => (none, putMlqProc pid prio s a)
  | .add a => (none, addMlqProc prio s a)
  | .find x => (findProcessByPid pid s x, s)

/-- A call of some thread, as one step with its result. -/
def CallResult (pid prio : α → BitVec 32) (s : Sched α) (a : κ × Call α × Option α)
    (s' : Sched α) : Prop :=
  runCall pid prio s a.2.1 = (a.2.2, s')

/-- The statements of a function that runs alone do what its model does. -/
theorem wp_body (s : Sched α) (l : Locals α) (c : Call α) :
    Wp ((procedures pid prio).body c) (fun t =>
      (procedures pid prio).result c t.1 = (runCall pid prio s c).1 ∧
        t.2 = schedVars (runCall pid prio s c).2) (l, schedVars s) := by
  cases c with
  | finish a => exact wp_finishProcCode fun _ _ => ⟨rfl, rfl⟩
  | get => exact wp_getMlqProcCode fun _ hproc => ⟨hproc, rfl⟩
  | put a => exact wp_seq (wp_finishProcCode fun _ _ => wp_enqueueReadyCode ⟨rfl, rfl⟩)
  | add a => exact wp_enqueueReadyCode ⟨rfl, rfl⟩
  | find x => exact wp_findProcessByPidCode fun _ hproc => ⟨hproc, rfl⟩

/-- A call that runs alone is one step. -/
theorem callResult_of_atomic {s : Sched α} {a : κ × Call α × Option α} {v : Vars α}
    (h : Atomic (procedures pid prio) (schedVars s) a v) :
    ∃ s', CallResult pid prio s a s' ∧ v = schedVars s' := by
  obtain ⟨l, he, hresult⟩ := h
  obtain ⟨hcall, hv⟩ := (wp_body s _ a.2.1).of_exec he
  exact ⟨_, Prod.ext (hcall.symm.trans hresult) rfl, hv⟩

/-- Calls that run alone, one behind the other, are as many steps. -/
theorem callResults_of_atomic {v v' : Vars α} {as : List (κ × Call α × Option α)}
    (h : Run (Atomic (procedures pid prio)) v as v') {s : Sched α} (hv : v = schedVars s) :
    ∃ s', Run (CallResult pid prio) s as s' ∧ v' = schedVars s' := by
  induction h generalizing s with
  | nil v => exact ⟨s, .nil s, hv⟩
  | cons hstep _ ih =>
    obtain ⟨t, hcall, ht⟩ := callResult_of_atomic (hv ▸ hstep)
    obtain ⟨s', hrun, hv'⟩ := ih ht
    exact ⟨s', .cons hcall hrun, hv'⟩

/-- Steps with results are steps. -/
theorem reachable_of_callResults {s s' : Sched α} {as : List (κ × Call α × Option α)}
    (h : Run (CallResult pid prio) s as s')
    (hs : Reachable (fun s => s = initScheduler) (CallStep pid prio) s) :
    Reachable (fun s => s = initScheduler) (CallStep pid prio) s' := by
  refine h.invariant _ (fun s a t hreach hstep => ?_) hs
  obtain ⟨i, c, r⟩ := a
  have hone : ∀ call, CallStep pid prio s call t →
      Reachable (fun s => s = initScheduler) (CallStep pid prio) t := fun call hcall =>
    hreach.run (.cons hcall (.nil t))
  unfold CallResult at hstep
  cases c with
  | finish a => exact hone (.finish a) (congrArg Prod.snd hstep).symm
  | get => exact hone (.get r) hstep
  | put a => exact hone (.put a) (congrArg Prod.snd hstep).symm
  | add a => exact hone (.add a) (congrArg Prod.snd hstep).symm
  | find x =>
    have hsame : s = t := congrArg Prod.snd hstep
    exact hsame ▸ hreach

/-- Every call ends when it runs alone. -/
theorem total_procedures : Total (procedures pid prio) fun v => ∃ s, v = schedVars s := by
  rintro _ c ⟨s, rfl⟩
  have hbody : Wp ((procedures pid prio).body c) _ (Locals.init, schedVars s) := wp_body s _ c
  obtain ⟨⟨l, v⟩, he, -, hv⟩ := hbody
  exact ⟨l, v, he, _, hv⟩

/-- Threads that run the functions of the scheduler. -/
abbrev SchedThreads (α κ : Type) := Threads (Vars α) (Locals α) (Call α) (Option α) κ

variable [DecidableEq κ]

/-- In whatever order the statements of the threads are executed, the calls return what they
return as single steps, in the order in which they give `queue_lock` back, and leave the same
variables, which such steps reach. -/
theorem calls_atomic {t : SchedThreads α κ}
    (h : Reachable (fun t => t = Threads.start (schedVars initScheduler))
      (ThreadStep (procedures pid prio)) t) :
    ∃ s, Run (CallResult pid prio) initScheduler t.history s ∧
      (t.lock = none → t.vars = schedVars s) ∧
        Reachable (fun s => s = initScheduler) (CallStep pid prio) s := by
  obtain ⟨v, hrun, hinv⟩ := serial_of_reachable h
  obtain ⟨s, hcalls, rfl⟩ := callResults_of_atomic hrun rfl
  exact ⟨s, hcalls, hinv.free, reachable_of_callResults hcalls ⟨_, [], rfl, .nil _⟩⟩

/-- One thread adds a process while another one, which already holds `dispatch_lock`, waits to
fetch one. -/
def addAndGet (m n : ℕ) : List (Bool × Action (Call ℕ)) :=
  [(false, .call (.add 0)), (true, .call .get), (false, .go), (true, .go)] ++
    (List.replicate m (false, .go) ++ List.replicate n (true, .go))

/-- What is observed of the two threads when these steps are executed. -/
theorem exists_addAndGet {β : Type} (m n : ℕ) (f : SchedThreads ℕ Bool → β) (b : β)
    (h : (execRun (fun _ _ => True)
      (fun (t : SchedThreads ℕ Bool) a => threadStep (procedures byNumber byNumber) t a.1 a.2)
      (Threads.start (schedVars initScheduler)) (addAndGet m n)).map f = some b) :
    ∃ t, Reachable (fun t => t = Threads.start (schedVars initScheduler))
      (ThreadStep (procedures byNumber byNumber)) t ∧ f t = b := by
  obtain ⟨t, hrun, hf⟩ := exists_run_of_map (fun _ _ => True) (fun _ _ _ hs => hs) _ _ f b h
  exact ⟨t, ⟨_, _, rfl, hrun.unguard⟩, hf⟩

/-- The thread that has waited gets the process that the other one has added. -/
theorem calls_atomic_addAndGet : ∃ t : SchedThreads ℕ Bool,
    t.history.map (fun a => a.2.2) = [none, some 0] ∧
      ∃ s, Run (CallResult byNumber byNumber) initScheduler t.history s ∧
        (t.lock = none → t.vars = schedVars s) ∧
          Reachable (fun s => s = initScheduler) (CallStep byNumber byNumber) s := by
  obtain ⟨t, ht, hf⟩ := exists_addAndGet 6 38 (fun t => t.history.map fun a => a.2.2)
    [none, some 0] (by decide +kernel)
  exact ⟨t, hf, calls_atomic ht⟩

/-- Calls that have begun return under any scheduling. -/
theorem calls_return [Fintype κ] {t : SchedThreads α κ}
    (h : Reachable (fun t => t = Threads.start (schedVars initScheduler))
      (ThreadStep (procedures pid prio)) t) : Returns (procedures pid prio) t :=
  returns_of_reachable total_procedures ⟨_, rfl⟩ h

/-- The calls of two threads, each of which holds one lock, return. -/
theorem calls_return_addAndGet : ∃ t : SchedThreads ℕ Bool,
    (t.lock, t.outerLock) = (some false, some true) ∧ Returns (procedures byNumber byNumber) t := by
  obtain ⟨t, ht, hf⟩ := exists_addAndGet 0 0 (fun t => (t.lock, t.outerLock))
    (some false, some true) (by decide +kernel)
  exact ⟨t, hf, calls_return ht⟩

end Steps

end OsSim.SchedulerSections
