import OsSim.RunSteps
import Mathlib.Data.List.FinRange
import Mathlib.Logic.Function.Basic

/-!
# The time slot barrier

`timer_routine` and the devices attached to it: each device calls `next_slot`
any number of times and detaches in the end. A block under a lock is one step,
a wait on a condition is a guarded one, and the steps of the timer and of the
devices interleave in any order.
-/

namespace OsSim.TimerBarrier

open RunSteps

/-- Where a device is. -/
inductive DevicePoint
  /-- Outside of `next_slot`, at the work of a slot. -/
  | working
  /-- In `next_slot`, behind the block that sets `done`. -/
  | waiting
  /-- Behind `detach_event`. -/
  | detached
  deriving DecidableEq

/-- Where the timer is in `timer_routine`, with its variables `temp`, as the devices
from there on, `fsh` and `event`. -/
inductive TimerPoint (n : ℕ)
  /-- At the test of `timer_stop`. -/
  | top
  /-- In the loop that waits for the devices. -/
  | check (temp : List (Fin n)) (fsh event : ℕ)
  /-- Before `_time++`. -/
  | tick (fsh event : ℕ)
  /-- In the loop that lets the devices continue. -/
  | release (temp : List (Fin n)) (fsh event : ℕ)
  /-- Behind the loop. -/
  | exited

/-- The variables of the timer and of `n` devices. -/
structure Barrier (n : ℕ) where
  /-- `done` of each device. -/
  done : Fin n → Bool
  /-- `fsh` of each device. -/
  fsh : Fin n → Bool
  /-- `_time`, counted without wrapping at 64 bits. -/
  time : ℕ
  /-- `timer_stop`. -/
  timerStop : Bool
  /-- The point of the timer. -/
  timer : TimerPoint n
  /-- The point of each device. -/
  device : Fin n → DevicePoint
  /-- The calls of `next_slot` a device has begun; no step reads them. -/
  begun : Fin n → ℕ
  /-- The calls of `next_slot` that have returned; no step reads them. -/
  completed : Fin n → ℕ

variable {n : ℕ}

/-- `dev_list`: `attach_event` puts a new device in front. -/
def devList (n : ℕ) : List (Fin n) := (List.finRange n).reverse

/-- All devices are attached and `start_timer` has been called. -/
def startTimer : Barrier n where
  done _ := false
  fsh _ := false
  time := 0
  timerStop := false
  timer := .top
  device _ := .working
  begun _ := 0
  completed _ := 0

/-- One step of `timer_routine`; none while it waits for a device. -/
def timerRoutine (s : Barrier n) : Option (Barrier n) :=
  match s.timer with
  | .top => some {s with timer := if s.timerStop then .exited else .check (devList n) 0 0}
  | .check [] fsh event => some {s with timer := .tick fsh event}
  | .check (d :: temp) fsh event =>
    if s.done d || s.fsh d then
      some {s with timer := .check temp (if s.fsh d then fsh + 1 else fsh) (event + 1)}
    else none
  | .tick fsh event => some {s with time := s.time + 1, timer := .release (devList n) fsh event}
  | .release [] fsh event => some {s with timer := if fsh = event then .exited else .top}
  | .release (d :: temp) fsh event =>
    some {s with done := Function.update s.done d false, timer := .release temp fsh event}
  | .exited => none

/-- The first block of `next_slot`. -/
def nextSlot (s : Barrier n) (d : Fin n) : Option (Barrier n) :=
  if s.device d = .working then
    some {s with
      done := Function.update s.done d true
      device := Function.update s.device d .waiting
      begun := Function.update s.begun d (s.begun d + 1)}
  else none

/-- The second block of `next_slot`, which waits until `done` is cleared. -/
def nextSlotWait (s : Barrier n) (d : Fin n) : Option (Barrier n) :=
  if s.device d = .waiting ∧ s.done d = false then
    some {s with
      device := Function.update s.device d .working
      completed := Function.update s.completed d (s.completed d + 1)}
  else none

/-- `detach_event`. -/
def detachEvent (s : Barrier n) (d : Fin n) : Option (Barrier n) :=
  if s.device d = .working then
    some {s with
      fsh := Function.update s.fsh d true
      device := Function.update s.device d .detached}
  else none

/-- The assignment of `stop_timer`, which `main` reaches when every device's thread
has ended. -/
def stopTimer (s : Barrier n) : Option (Barrier n) :=
  if ∀ d, s.device d = .detached then some {s with timerStop := true} else none

/-- Who takes a step. -/
inductive Actor (n : ℕ)
  /-- `timer_routine`. -/
  | timer
  /-- A device calls `next_slot`. -/
  | begin (d : Fin n)
  /-- A device's `next_slot` returns. -/
  | wake (d : Fin n)
  /-- A device detaches. -/
  | detach (d : Fin n)
  /-- `main` stops the timer. -/
  | stop

/-- The step of an actor, if it is not waiting. -/
def barrierStep (s : Barrier n) : Actor n → Option (Barrier n)
  | .timer => timerRoutine s
  | .begin d => nextSlot s d
  | .wake d => nextSlotWait s d
  | .detach d => detachEvent s d
  | .stop => stopTimer s

/-- One step of the system. -/
def BarrierStep (s : Barrier n) (act : Actor n) (s' : Barrier n) : Prop :=
  barrierStep s act = some s'

/-! ## The invariant -/

/-- A device whose `done` the timer has still to clear in this round is one slot behind. -/
def lag : TimerPoint n → Fin n → ℕ
  | .release temp _ _, d => if d ∈ temp then 1 else 0
  | _, _ => 0

/-- The timer has seen `done` of this device, or `fsh`, and not cleared it yet. -/
def Seen : TimerPoint n → Fin n → Prop
  | .check temp _ _, d => d ∉ temp
  | .tick _ _, _ => True
  | .release temp _ _, d => d ∈ temp
  | _, _ => False

/-- A device that the timer has let into slot `t`: at the work of it, finished with
it, or on its way to it. -/
inductive Turn (t : ℕ) : DevicePoint → Bool → ℕ → ℕ → Prop
  /-- The device works. -/
  | working : Turn t .working false t t
  /-- The device has begun `next_slot` and waits for the timer. -/
  | finished : Turn t .waiting true (t + 1) t
  /-- The device has been released and has not come back yet. -/
  | released {c : ℕ} (h : c + 1 = t) : Turn t .waiting false t c

/-- The counters of the timer say how many of the devices seen have detached. -/
def Counted (device : Fin n → DevicePoint) : TimerPoint n → Prop
  | .top => True
  | .check temp fsh event =>
    fsh ≤ event ∧ (fsh = event → ∀ d, d ∉ temp → device d = .detached)
  | .tick fsh event => fsh = event → ∀ d, device d = .detached
  | .release temp fsh event => temp.Nodup ∧ (fsh = event → ∀ d, device d = .detached)
  | .exited => ∀ d, device d = .detached

/-- What holds in every reachable state. -/
structure BarrierInv (s : Barrier n) : Prop where
  /-- `fsh` is set by detaching. -/
  flags : ∀ d, s.fsh d = true ↔ s.device d = .detached
  /-- An attached device has the turn of the current slot, or of the last one. -/
  turns : ∀ d, s.device d ≠ .detached →
    ∃ t, t + lag s.timer d = s.time ∧ Turn t (s.device d) (s.done d) (s.begun d) (s.completed d)
  /-- An attached device the timer has seen waits for it. -/
  seen : ∀ d, s.device d ≠ .detached → Seen s.timer d → s.done d = true
  /-- The timer's counters. -/
  counted : Counted s.device s.timer
  /-- The timer is stopped last. -/
  stopped : s.timerStop = true → ∀ d, s.device d = .detached

/-- The barrier starts with every device at work in slot 0. -/
theorem startTimer_inv : BarrierInv (startTimer : Barrier n) where
  flags _ := ⟨fun h => (nomatch h), fun h => (nomatch h)⟩
  turns _ _ := ⟨0, rfl, .working⟩
  seen _ _ h := h.elim
  counted := trivial
  stopped h := nomatch h

theorem mem_devList (d : Fin n) : d ∈ devList n :=
  List.mem_reverse.mpr (List.mem_finRange d)

theorem nodup_devList : (devList n).Nodup :=
  List.nodup_reverse.mpr (List.nodup_finRange n)

/-- More detached devices keep the timer's counters right. -/
theorem Counted.mono {device device' : Fin n → DevicePoint} {p : TimerPoint n}
    (h : Counted device p) (hmono : ∀ d, device d = .detached → device' d = .detached) :
    Counted device' p := by
  cases p with
  | top => trivial
  | check temp fsh event => exact ⟨h.1, fun he d hd => hmono d (h.2 he d hd)⟩
  | tick fsh event => exact fun he d => hmono d (h he d)
  | release temp fsh event => exact ⟨h.1, fun he d => hmono d (h.2 he d)⟩
  | exited => exact fun d => hmono d (h d)

/-- A step of an attached device that keeps its turn keeps the invariant. -/
theorem BarrierInv.deviceStep {s s' : Barrier n} {d : Fin n} (h : BarrierInv s)
    (hd : s.device d ≠ .detached) (htimer : s'.timer = s.timer) (htime : s'.time = s.time)
    (hstop : s'.timerStop = s.timerStop)
    (hothers : ∀ e ≠ d, s'.device e = s.device e ∧ s'.done e = s.done e ∧ s'.fsh e = s.fsh e ∧
      s'.begun e = s.begun e ∧ s'.completed e = s.completed e)
    (hflag : s'.fsh d = true ↔ s'.device d = .detached)
    (hturn : s'.device d ≠ .detached → ∀ t,
      Turn t (s.device d) (s.done d) (s.begun d) (s.completed d) →
        Turn t (s'.device d) (s'.done d) (s'.begun d) (s'.completed d))
    (hdone : s'.device d ≠ .detached → s.done d = true → s'.done d = true) : BarrierInv s' := by
  have hmono : ∀ e, s.device e = .detached → s'.device e = .detached := by
    intro e he
    have hne : e ≠ d := fun h' => hd (h' ▸ he)
    rw [(hothers e hne).1]
    exact he
  refine ⟨fun e => ?_, fun e he => ?_, fun e he hseen => ?_, ?_, fun hs e => ?_⟩
  · by_cases hed : e = d
    · rw [hed]
      exact hflag
    · obtain ⟨h1, _, h3, _⟩ := hothers e hed
      rw [h1, h3]
      exact h.flags e
  · rw [htimer, htime]
    by_cases hed : e = d
    · subst hed
      obtain ⟨t, ht, hT⟩ := h.turns e hd
      exact ⟨t, ht, hturn he t hT⟩
    · obtain ⟨h1, h2, _, h4, h5⟩ := hothers e hed
      rw [h1] at he
      rw [h1, h2, h4, h5]
      exact h.turns e he
  · rw [htimer] at hseen
    by_cases hed : e = d
    · subst hed
      exact hdone he (h.seen e hd hseen)
    · obtain ⟨h1, h2, _⟩ := hothers e hed
      rw [h1] at he
      rw [h2]
      exact h.seen e he hseen
  · rw [htimer]
    exact h.counted.mono hmono
  · rw [hstop] at hs
    exact hmono e (h.stopped hs e)

/-- The first block of `next_slot` finishes the slot of a device. -/
theorem nextSlot_inv {s s' : Barrier n} {d : Fin n} (h : BarrierInv s)
    (hs : nextSlot s d = some s') : BarrierInv s' := by
  obtain ⟨hd, ⟨⟩⟩ := Option.ite_none_right_eq_some.mp hs
  have hatt : s.device d ≠ .detached := by
    rw [hd]
    exact DevicePoint.noConfusion
  refine h.deviceStep hatt rfl rfl rfl (fun e he => ?_) ?_ (fun _ t hT => ?_) fun _ _ => ?_
  · dsimp only
    rw [Function.update_of_ne he, Function.update_of_ne he, Function.update_of_ne he]
    exact ⟨rfl, rfl, rfl, rfl, rfl⟩
  · dsimp only
    rw [Function.update_self, h.flags d]
    exact ⟨fun he => absurd he hatt, fun he => (nomatch he)⟩
  · dsimp only
    rw [Function.update_self, Function.update_self, Function.update_self]
    rw [hd] at hT
    generalize s.done d = done, s.begun d = begun, s.completed d = completed at hT
    cases hT
    exact .finished
  · exact Function.update_self ..

/-- The second block lets a device into the slot the timer has released it to. -/
theorem nextSlotWait_inv {s s' : Barrier n} {d : Fin n} (h : BarrierInv s)
    (hs : nextSlotWait s d = some s') : BarrierInv s' := by
  obtain ⟨⟨hd, hdone⟩, ⟨⟩⟩ := Option.ite_none_right_eq_some.mp hs
  have hatt : s.device d ≠ .detached := by
    rw [hd]
    exact DevicePoint.noConfusion
  refine h.deviceStep hatt rfl rfl rfl (fun e he => ?_) ?_ (fun _ t hT => ?_) fun _ hdone => hdone
  · dsimp only
    rw [Function.update_of_ne he, Function.update_of_ne he]
    exact ⟨rfl, rfl, rfl, rfl, rfl⟩
  · dsimp only
    rw [Function.update_self, h.flags d]
    exact ⟨fun he => absurd he hatt, fun he => (nomatch he)⟩
  · dsimp only
    rw [Function.update_self, Function.update_self]
    rw [hd, hdone] at hT
    rw [hdone]
    generalize s.begun d = begun at hT ⊢
    cases hT with
    | released hc =>
      rw [hc]
      exact .working

/-- A device that detaches has no turn any more. -/
theorem detachEvent_inv {s s' : Barrier n} {d : Fin n} (h : BarrierInv s)
    (hs : detachEvent s d = some s') : BarrierInv s' := by
  obtain ⟨hd, ⟨⟩⟩ := Option.ite_none_right_eq_some.mp hs
  have hatt : s.device d ≠ .detached := by
    rw [hd]
    exact DevicePoint.noConfusion
  have hdet : Function.update s.device d .detached d = .detached := Function.update_self ..
  refine h.deviceStep hatt rfl rfl rfl (fun e he => ?_) ?_ (fun he => absurd hdet he)
    fun he => absurd hdet he
  · dsimp only
    rw [Function.update_of_ne he, Function.update_of_ne he]
    exact ⟨rfl, rfl, rfl, rfl, rfl⟩
  · dsimp only
    rw [Function.update_self, Function.update_self]
    exact ⟨fun _ => rfl, fun _ => rfl⟩

/-- A step of the timer that moves no device and keeps the flags. -/
theorem BarrierInv.moveTimer {s : Barrier n} {p : TimerPoint n} (h : BarrierInv s)
    (hlag : ∀ d, lag p d = lag s.timer d)
    (hseen : ∀ d, s.device d ≠ .detached → Seen p d → s.done d = true)
    (hcount : Counted s.device p) : BarrierInv {s with timer := p} where
  flags := h.flags
  turns d hd := by
    dsimp only
    rw [hlag d]
    exact h.turns d hd
  seen := hseen
  counted := hcount
  stopped := h.stopped

/-- A round starts unless the timer is stopped. -/
theorem BarrierInv.startRound {s : Barrier n} (h : BarrierInv s) (ht : s.timer = .top) :
    BarrierInv {s with timer := if s.timerStop then .exited else .check (devList n) 0 0} := by
  split
  · next hstop =>
    refine h.moveTimer (fun d => ?_) (fun _ _ he => he.elim) (h.stopped hstop)
    rw [ht]
    rfl
  · refine h.moveTimer (fun d => ?_) (fun d _ hd => absurd (mem_devList d) hd)
      ⟨le_refl _, fun _ d hd => absurd (mem_devList d) hd⟩
    rw [ht]
    rfl

/-- The next device has finished or detached. -/
theorem BarrierInv.checkDevice {s : Barrier n} (h : BarrierInv s) {d : Fin n}
    {temp : List (Fin n)} {fsh event : ℕ} (ht : s.timer = .check (d :: temp) fsh event)
    (hflag : (s.done d || s.fsh d) = true) :
    BarrierInv {s with timer := .check temp (if s.fsh d then fsh + 1 else fsh) (event + 1)} := by
  have hcount := h.counted
  have hseen := h.seen
  rw [ht] at hcount hseen
  refine h.moveTimer (fun d => ?_) (fun e he hnot => ?_) ?_
  · rw [ht]
    rfl
  · by_cases hed : e = d
    · subst hed
      refine (Bool.or_eq_true_iff.mp hflag).resolve_right fun hf => ?_
      exact he ((h.flags e).mp hf)
    · exact hseen e he fun hmem => (List.mem_cons.mp hmem).elim hed hnot
  · obtain ⟨hle, hall⟩ := hcount
    refine ⟨by split <;> omega, fun heq e hnot => ?_⟩
    by_cases hed : e = d
    · subst hed
      split at heq
      · next hf => exact (h.flags e).mp hf
      · omega
    · refine hall ?_ e fun hmem => (List.mem_cons.mp hmem).elim hed hnot
      split at heq <;> omega

/-- All devices have been seen. -/
theorem BarrierInv.checked {s : Barrier n} (h : BarrierInv s) {fsh event : ℕ}
    (ht : s.timer = .check [] fsh event) : BarrierInv {s with timer := .tick fsh event} := by
  have hcount := h.counted
  have hseen := h.seen
  rw [ht] at hcount hseen
  refine h.moveTimer (fun d => ?_) (fun d hd _ => hseen d hd List.not_mem_nil)
    fun he d => hcount.2 he d List.not_mem_nil
  rw [ht]
  rfl

/-- The time slot ends for all devices at once. -/
theorem BarrierInv.tick {s : Barrier n} (h : BarrierInv s) {fsh event : ℕ}
    (ht : s.timer = .tick fsh event) :
    BarrierInv {s with time := s.time + 1, timer := .release (devList n) fsh event} := by
  have hcount := h.counted
  have hseen := h.seen
  have hturns := h.turns
  rw [ht] at hcount hseen hturns
  refine ⟨h.flags, fun d hd => ?_, fun d hd _ => hseen d hd trivial,
    ⟨nodup_devList, hcount⟩, h.stopped⟩
  obtain ⟨t, hlag, hT⟩ := hturns d hd
  refine ⟨t, ?_, hT⟩
  dsimp only [lag] at hlag ⊢
  rw [if_pos (mem_devList d)]
  omega

/-- The next device is released: what it has begun is its turn in the new slot. -/
theorem BarrierInv.releaseDevice {s : Barrier n} (h : BarrierInv s) {d : Fin n}
    {temp : List (Fin n)} {fsh event : ℕ} (ht : s.timer = .release (d :: temp) fsh event) :
    BarrierInv {s with
      done := Function.update s.done d false, timer := .release temp fsh event} := by
  have hcount := h.counted
  have hseen := h.seen
  have hturns := h.turns
  rw [ht] at hcount hseen hturns
  obtain ⟨hnodup, hall⟩ := hcount
  obtain ⟨hnot, hnodup⟩ := List.nodup_cons.mp hnodup
  refine ⟨h.flags, fun e he => ?_, fun e he hmem => ?_, ⟨hnodup, hall⟩, h.stopped⟩
  · obtain ⟨t, hlag, hT⟩ := hturns e he
    dsimp only [lag] at hlag ⊢
    by_cases hed : e = d
    · subst hed
      have hdone := hseen e he List.mem_cons_self
      rw [if_pos List.mem_cons_self] at hlag
      rw [Function.update_self, if_neg hnot]
      rw [hdone] at hT
      refine ⟨t + 1, hlag, ?_⟩
      generalize s.device e = p, s.begun e = begun, s.completed e = completed at hT ⊢
      cases hT
      exact .released rfl
    · rw [Function.update_of_ne hed]
      refine ⟨t, ?_, hT⟩
      simp only [List.mem_cons, hed, false_or] at hlag
      exact hlag
  · have hed : e ≠ d := fun h' => hnot (h' ▸ hmem)
    dsimp only
    rw [Function.update_of_ne hed]
    exact hseen e he (List.mem_cons_of_mem _ hmem)

/-- All devices have been released, and the round is over. -/
theorem BarrierInv.endRound {s : Barrier n} (h : BarrierInv s) {fsh event : ℕ}
    (ht : s.timer = .release [] fsh event) :
    BarrierInv {s with timer := if fsh = event then .exited else .top} := by
  have hcount := h.counted
  rw [ht] at hcount
  split
  · next heq =>
    refine h.moveTimer (fun d => ?_) (fun _ _ he => he.elim) (hcount.2 heq)
    rw [ht]
    rfl
  · refine h.moveTimer (fun d => ?_) (fun _ _ he => he.elim) trivial
    rw [ht]
    rfl

/-- `timer_routine` keeps the invariant. -/
theorem timerRoutine_inv {s s' : Barrier n} (h : BarrierInv s)
    (hs : timerRoutine s = some s') : BarrierInv s' := by
  unfold timerRoutine at hs
  cases ht : s.timer with
  | top =>
    rw [ht] at hs
    cases hs
    exact h.startRound ht
  | check temp fsh event =>
    rw [ht] at hs
    cases temp with
    | nil =>
      cases hs
      exact h.checked ht
    | cons d temp =>
      obtain ⟨hflag, ⟨⟩⟩ := Option.ite_none_right_eq_some.mp hs
      exact h.checkDevice ht hflag
  | tick fsh event =>
    rw [ht] at hs
    cases hs
    exact h.tick ht
  | release temp fsh event =>
    rw [ht] at hs
    cases temp with
    | nil =>
      cases hs
      exact h.endRound ht
    | cons d temp =>
      cases hs
      exact h.releaseDevice ht
  | exited =>
    rw [ht] at hs
    cases hs

/-- Every step keeps the invariant. -/
theorem barrierInv_step {s s' : Barrier n} {act : Actor n} (h : BarrierInv s)
    (hs : BarrierStep s act s') : BarrierInv s' := by
  cases act with
  | timer => exact timerRoutine_inv h hs
  | begin d => exact nextSlot_inv h hs
  | wake d => exact nextSlotWait_inv h hs
  | detach d => exact detachEvent_inv h hs
  | stop =>
    obtain ⟨hall, ⟨⟩⟩ := Option.ite_none_right_eq_some.mp hs
    exact ⟨h.flags, h.turns, h.seen, h.counted, fun _ => hall⟩

/-- The invariant holds in every reachable state. -/
theorem barrierInv_of_reachable {s : Barrier n}
    (h : Reachable (fun s => s = startTimer) BarrierStep s) : BarrierInv s := by
  refine h.invariant BarrierInv ?_ fun _ _ _ hI hs => barrierInv_step hI hs
  rintro s rfl
  exact startTimer_inv

/-! ## Lock step -/

/-- A device that is one slot behind has been seen. -/
theorem seen_of_lag {p : TimerPoint n} {d : Fin n} (h : lag p d ≠ 0) : Seen p d ∧ lag p d = 1 := by
  cases p with
  | release temp fsh event =>
    by_cases hd : d ∈ temp
    · exact ⟨hd, if_pos hd⟩
    · exact absurd (if_neg hd) h
  | _ => exact absurd rfl h

/-- An attached device has begun the call of this slot or is about to; at work it is
in the current slot. -/
theorem BarrierInv.slots {s : Barrier n} (h : BarrierInv s) {d : Fin n}
    (hd : s.device d ≠ .detached) :
    (s.completed d ≤ s.time ∧ s.time ≤ s.begun d ∧ s.begun d ≤ s.time + 1) ∧
      (s.device d = .working → s.begun d = s.time ∧ s.completed d = s.time) := by
  obtain ⟨t, hlag, hT⟩ := h.turns d hd
  have hseen := h.seen d hd
  by_cases hl : lag s.timer d = 0
  · -- the device has been let into the current slot
    rw [hl, Nat.add_zero] at hlag
    subst hlag
    generalize s.device d = p, s.done d = done, s.begun d = begun, s.completed d = completed,
      s.time = time at hT ⊢
    cases hT with
    | working => exact ⟨⟨le_refl _, le_refl _, Nat.le_succ _⟩, fun _ => ⟨rfl, rfl⟩⟩
    | finished => exact ⟨⟨le_refl _, Nat.le_succ _, le_refl _⟩, fun he => (nomatch he)⟩
    | released hc => exact ⟨⟨by omega, le_refl _, Nat.le_succ _⟩, fun he => (nomatch he)⟩
  · -- `done` has been seen and not been cleared
    obtain ⟨hs, hone⟩ := seen_of_lag hl
    rw [hseen hs] at hT
    rw [hone] at hlag
    generalize s.device d = p, s.begun d = begun, s.completed d = completed, s.time = time
      at hT hlag ⊢
    cases hT
    exact ⟨⟨by omega, by omega, by omega⟩, fun he => (nomatch he)⟩

/-- An attached device whose `done` is clear is not waiting. -/
theorem device_steps {s : Barrier n} {d : Fin n} (hd : s.device d ≠ .detached)
    (hdone : s.done d = false) : ∃ act s', act ≠ .stop ∧ BarrierStep s act s' := by
  cases hp : s.device d with
  | working => exact ⟨.begin d, _, fun h => (nomatch h), if_pos hp⟩
  | waiting => exact ⟨.wake d, _, fun h => (nomatch h), if_pos ⟨hp, hdone⟩⟩
  | detached => exact absurd hp hd

/-- While a device is attached, the timer or a device is not waiting. -/
theorem BarrierInv.progress {s : Barrier n} (h : BarrierInv s) {d : Fin n}
    (hd : s.device d ≠ .detached) : ∃ act s', act ≠ .stop ∧ BarrierStep s act s' := by
  have htimer : ∀ s', timerRoutine s = some s' → ∃ act s', act ≠ .stop ∧ BarrierStep s act s' :=
    fun s' hs => ⟨.timer, s', fun h => (nomatch h), hs⟩
  cases hp : s.timer with
  | top => exact htimer _ (by rw [timerRoutine, hp])
  | tick fsh event => exact htimer _ (by rw [timerRoutine, hp])
  | exited =>
    have hcount := h.counted
    rw [hp] at hcount
    exact absurd (hcount d) hd
  | release temp fsh event =>
    cases temp with
    | nil => exact htimer _ (by rw [timerRoutine, hp])
    | cons e temp => exact htimer _ (by rw [timerRoutine, hp])
  | check temp fsh event =>
    cases temp with
    | nil => exact htimer _ (by rw [timerRoutine, hp])
    | cons e temp =>
      by_cases hflag : (s.done e || s.fsh e) = true
      · exact htimer _ (by rw [timerRoutine, hp]; exact if_pos hflag)
      · -- the timer waits for a device that has work to do
        rw [Bool.not_eq_true, Bool.or_eq_false_iff] at hflag
        refine device_steps (d := e) (fun he => ?_) hflag.1
        rw [(h.flags e).mpr he] at hflag
        exact Bool.noConfusion hflag.2

/-- In every reachable state all attached devices are in lock step with the timer: at
work they are in slot `_time`, which none enters before the others have finished
the last one, and not all threads wait. -/
theorem timer_lock_step {s : Barrier n} (h : Reachable (fun s => s = startTimer) BarrierStep s) :
    (∀ d, s.device d ≠ .detached →
      s.completed d ≤ s.time ∧ s.time ≤ s.begun d ∧ s.begun d ≤ s.time + 1) ∧
    (∀ d, s.device d = .working → s.begun d = s.time ∧ s.completed d = s.time) ∧
    (∀ d e, s.device d = .working → s.device e ≠ .detached → s.completed d ≤ s.begun e) ∧
    ((∃ d, s.device d ≠ .detached) → ∃ act s', act ≠ .stop ∧ BarrierStep s act s') := by
  have hI := barrierInv_of_reachable h
  have hwork : ∀ d, s.device d = .working → s.begun d = s.time ∧ s.completed d = s.time := by
    intro d hd
    refine (hI.slots ?_).2 hd
    rw [hd]
    exact DevicePoint.noConfusion
  refine ⟨fun d hd => (hI.slots hd).1, hwork, fun d e hd he => ?_, fun ⟨d, hd⟩ => hI.progress hd⟩
  rw [(hwork d hd).2]
  exact (hI.slots he).1.2.1

/-- Both of two devices come to the end of slot 0, the timer counts it, and device 1 goes
on to slot 1 before device 0 does. -/
def secondSlot : List (Actor 2) :=
  [.timer, .begin ⟨1, Nat.one_lt_two⟩, .timer, .begin ⟨0, Nat.two_pos⟩, .timer, .timer, .timer,
    .timer, .wake ⟨1, Nat.one_lt_two⟩]

/-- At slot 1, where one device works in it and the other one has yet to leave slot 0,
both have begun one slot, and a thread can go on. -/
theorem timer_lock_step_secondSlot : ∃ s : Barrier 2,
    Run BarrierStep startTimer secondSlot s ∧ s.time = 1 ∧
      s.device ⟨1, Nat.one_lt_two⟩ = .working ∧ s.device ⟨0, Nat.two_pos⟩ = .waiting ∧
      (s.begun ⟨1, Nat.one_lt_two⟩ = 1 ∧ s.completed ⟨1, Nat.one_lt_two⟩ = 1) ∧
      s.completed ⟨1, Nat.one_lt_two⟩ ≤ s.begun ⟨0, Nat.two_pos⟩ ∧
      (s.completed ⟨0, Nat.two_pos⟩ ≤ 1 ∧ 1 ≤ s.begun ⟨0, Nat.two_pos⟩) ∧
      ∃ act s', act ≠ .stop ∧ BarrierStep s act s' := by
  obtain ⟨s, hrun, hf⟩ := exists_run_of_map (fun (_ : Barrier 2) _ => True)
    (fun s act s' (h : barrierStep s act = some s') => h) startTimer secondSlot
    (fun s => (s.time, s.device ⟨1, Nat.one_lt_two⟩, s.device ⟨0, Nat.two_pos⟩))
    (1, .working, .waiting) rfl
  simp only [Prod.mk.injEq] at hf
  obtain ⟨htime, hworking, hwaiting⟩ := hf
  obtain ⟨hcounts, hwork, hearly, hgo⟩ := timer_lock_step ⟨startTimer, _, rfl, hrun.unguard⟩
  have hattached : s.device ⟨0, Nat.two_pos⟩ ≠ .detached := by
    rw [hwaiting]
    exact DevicePoint.noConfusion
  obtain ⟨hdone, hbegun, -⟩ := hcounts _ hattached
  have hslot := hwork _ hworking
  rw [htime] at hdone hbegun hslot
  exact ⟨s, hrun.unguard, htime, hworking, hwaiting, hslot, hearly _ _ hworking hattached,
    ⟨hdone, hbegun⟩, hgo ⟨_, hattached⟩⟩

end OsSim.TimerBarrier
