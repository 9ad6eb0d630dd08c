import OsSim.MutexBlocks
import OsSim.TimerBarrier

/-!
# The calls behind the time slot barrier

`timer_routine`, `next_slot` and `detach_event` with every call on `event_lock`,
`timer_lock` and their condition variables, and every access to `done` and `fsh`, as a
step of its own. A thread in `pthread_cond_wait` may wake for no reason. The blocks
under the locks behave like the single steps of the barrier, and no wakeup is lost.
-/

namespace OsSim.TimerCondvars

open MutexBlocks TimerBarrier

/-- The two threads that use the locks of a device. -/
inductive Party
  /-- The thread of `timer_routine`. -/
  | timer
  /-- The thread of the device. -/
  | device
  deriving DecidableEq

/-- Where the timer is, with its variables `temp`, `fsh` and `event`. -/
inductive TimerPc (n : ℕ)
  /-- At the test of `timer_stop`. -/
  | top
  /-- At the head of the loop that waits for the devices. -/
  | check (temp : List (Fin n)) (fsh event : ℕ)
  /-- In the block under `event_lock` of a device. -/
  | see (d : Fin n) (temp : List (Fin n)) (fsh event : ℕ) (phase : WaitPhase)
  /-- Before `_time++`. -/
  | tick (fsh event : ℕ)
  /-- At the head of the loop that lets the devices continue. -/
  | release (temp : List (Fin n)) (fsh event : ℕ)
  /-- In the block under `timer_lock` of a device. -/
  | clear (d : Fin n) (temp : List (Fin n)) (fsh event : ℕ) (phase : SetPhase)
  /-- Behind the loop. -/
  | exited

/-- Where a device is. -/
inductive DevicePc
  /-- Outside of `next_slot`. -/
  | working
  /-- In the block of `next_slot` under `event_lock`. -/
  | tell (phase : SetPhase)
  /-- In the block of `next_slot` under `timer_lock`. -/
  | await (phase : WaitPhase)
  /-- In `detach_event`. -/
  | detach (phase : SetPhase)
  /-- Behind `detach_event`. -/
  | detached
  deriving DecidableEq

/-- The variables of the timer and of `n` devices, with the owners of their locks. -/
structure Threads (n : ℕ) where
  /-- `done` of each device. -/
  done : Fin n → Bool
  /-- `fsh` of each device. -/
  fsh : Fin n → Bool
  /-- `_time`, counted without wrapping at 64 bits. -/
  time : ℕ
  /-- `timer_stop`. -/
  timerStop : Bool
  /-- The owner of `event_lock` of each device. -/
  eventLock : Fin n → Option Party
  /-- The owner of `timer_lock` of each device. -/
  timerLock : Fin n → Option Party
  /-- The point of the timer. -/
  timer : TimerPc n
  /-- The point of each device. -/
  device : Fin n → DevicePc
  /-- The calls of `next_slot` that have set `done`; no step reads them. -/
  begun : Fin n → ℕ
  /-- The calls of `next_slot` that have left their loop; no step reads them. -/
  completed : Fin n → ℕ

variable {n : ℕ}

/-- All devices are attached, and the timer has been created. -/
def created : Threads n where
  done _ := false
  fsh _ := false
  time := 0
  timerStop := false
  eventLock _ := none
  timerLock _ := none
  timer := .top
  device _ := .working
  begun _ := 0
  completed _ := 0

/-! ## The steps -/

/-- Where the timer goes in or behind the block under `event_lock`. -/
def TimerPc.afterSee (d : Fin n) (temp : List (Fin n)) (fsh event : ℕ) :
    Option WaitPhase → TimerPc n
  | none => .check temp fsh event
  | some phase => .see d temp fsh event phase

/-- Where the timer goes in or behind the block under `timer_lock`. -/
def TimerPc.afterClear (d : Fin n) (temp : List (Fin n)) (fsh event : ℕ) :
    Option SetPhase → TimerPc n
  | none => .release temp fsh event
  | some phase => .clear d temp fsh event phase

/-- Where a device goes in or behind the first block of `next_slot`. -/
def DevicePc.afterTell : Option SetPhase → DevicePc
  | none => .await .enter
  | some phase => .tell phase

/-- Where a device goes in or behind the second block of `next_slot`. -/
def DevicePc.afterAwait : Option WaitPhase → DevicePc
  | none => .working
  | some phase => .await phase

/-- Where a device goes in or behind the block of `detach_event`. -/
def DevicePc.afterDetach : Option SetPhase → DevicePc
  | none => .detached
  | some phase => .detach phase

/-- A wakeup on `event_cond` of a device. -/
def TimerPc.wake (d : Fin n) : TimerPc n → TimerPc n
  | .see e temp fsh event phase => .see e temp fsh event (if e = d then phase.wake else phase)
  | p => p

/-- A wakeup on `timer_cond`. -/
def DevicePc.wake : DevicePc → DevicePc
  | .await phase => .await phase.wake
  | p => p

/-- One step of `timer_routine`. -/
def timerRoutine (s : Threads n) : Option (Threads n) :=
  match s.timer with
  | .top => some {s with timer := if s.timerStop then .exited else .check (devList n) 0 0}
  | .check [] fsh event => some {s with timer := .tick fsh event}
  | .check (d :: temp) fsh event => some {s with timer := .see d temp fsh event .enter}
  | .see d temp fsh event phase =>
    (phase.next .timer (s.done d || s.fsh d) (s.eventLock d)).map fun r =>
      {s with
        eventLock := Function.update s.eventLock d r.2
        timer := .afterSee d temp
          (if phase = .body ∧ s.fsh d = true then fsh + 1 else fsh)
          (if phase = .body then event + 1 else event) r.1}
  | .tick fsh event => some {s with time := s.time + 1, timer := .release (devList n) fsh event}
  | .release [] fsh event => some {s with timer := if fsh = event then .exited else .top}
  | .release (d :: temp) fsh event => some {s with timer := .clear d temp fsh event .enter}
  | .clear d temp fsh event phase =>
    (phase.next .timer (s.timerLock d)).map fun r =>
      {s with
        done := if phase = .body then Function.update s.done d false else s.done
        device := if phase = .signal then Function.update s.device d (s.device d).wake else s.device
        timerLock := Function.update s.timerLock d r.2
        timer := .afterClear d temp fsh event r.1}
  | .exited => none

/-- A device calls `next_slot`. -/
def nextSlot (s : Threads n) (d : Fin n) : Option (Threads n) :=
  if s.device d = .working then some {s with device := Function.update s.device d (.tell .enter)}
  else none

/-- A device calls `detach_event`. -/
def detachEvent (s : Threads n) (d : Fin n) : Option (Threads n) :=
  if s.device d = .working then some {s with device := Function.update s.device d (.detach .enter)}
  else none

/-- A device goes on in its call. -/
def deviceCall (s : Threads n) (d : Fin n) : Option (Threads n) :=
  match s.device d with
  | .tell phase =>
    (phase.next .device (s.eventLock d)).map fun r =>
      {s with
        done := if phase = .body then Function.update s.done d true else s.done
        begun := if phase = .body then Function.update s.begun d (s.begun d + 1) else s.begun
        timer := if phase = .signal then s.timer.wake d else s.timer
        eventLock := Function.update s.eventLock d r.2
        device := Function.update s.device d (.afterTell r.1)}
  | .await phase =>
    (phase.next .device (!s.done d) (s.timerLock d)).map fun r =>
      {s with
        completed :=
          if phase = .test ∧ s.done d = false then
            Function.update s.completed d (s.completed d + 1)
          else s.completed
        timerLock := Function.update s.timerLock d r.2
        device := Function.update s.device d (.afterAwait r.1)}
  | .detach phase =>
    (phase.next .device (s.eventLock d)).map fun r =>
      {s with
        fsh := if phase = .body then Function.update s.fsh d true else s.fsh
        timer := if phase = .signal then s.timer.wake d else s.timer
        eventLock := Function.update s.eventLock d r.2
        device := Function.update s.device d (.afterDetach r.1)}
  | .working | .detached => none

/-- The assignment of `stop_timer`, behind `pthread_join` for every device's thread. -/
def stopTimer (s : Threads n) : Option (Threads n) :=
  if ∀ d, s.device d = .detached then some {s with timerStop := true} else none

/-- The steps of the timer, of the devices and of `stop_timer`, and spurious wakeups. -/
inductive Act (n : ℕ)
  /-- The timer goes on. -/
  | timer
  /-- A device calls `next_slot`. -/
  | next (d : Fin n)
  /-- A device calls `detach_event`. -/
  | detach (d : Fin n)
  /-- A device goes on in its call. -/
  | device (d : Fin n)
  /-- `main` stops the timer. -/
  | stop
  /-- The timer wakes for no reason. -/
  | spuriousTimer (d : Fin n)
  /-- A device wakes for no reason. -/
  | spuriousDevice (d : Fin n)

/-- The step of an action, if its thread can go on. -/
def threadsStep (s : Threads n) : Act n → Option (Threads n)
  | .timer => timerRoutine s
  | .next d => nextSlot s d
  | .detach d => detachEvent s d
  | .device d => deviceCall s d
  | .stop => stopTimer s
  | .spuriousTimer d => some {s with timer := s.timer.wake d}
  | .spuriousDevice d => some {s with device := Function.update s.device d (s.device d).wake}

/-- One step of the threads. -/
def ThreadsStep (s : Threads n) (act : Act n) (s' : Threads n) : Prop :=
  threadsStep s act = some s'

/-! ## One device and the timer -/

/-- The phase of the timer in the block under `event_lock` of a device. -/
def TimerPc.seeing (d : Fin n) : TimerPc n → Option WaitPhase
  | .see e _ _ _ phase => if e = d then some phase else none
  | _ => none

/-- The phase of the timer in the block under `timer_lock` of a device. -/
def TimerPc.clearing (d : Fin n) : TimerPc n → Option SetPhase
  | .clear e _ _ _ phase => if e = d then some phase else none
  | _ => none

/-- The phase of a device in a block under its `event_lock`. -/
def DevicePc.telling : DevicePc → Option SetPhase
  | .tell phase | .detach phase => some phase
  | _ => none

/-- The phase of a device in the block under its `timer_lock`. -/
def DevicePc.awaiting : DevicePc → Option WaitPhase
  | .await phase => some phase
  | _ => none

/-- What holds of the blocks, the flags and the locks of one device. -/
structure LocalInv (seeing : Option WaitPhase) (clearing telling : Option SetPhase)
    (awaiting : Option WaitPhase) (done fsh : Bool) (eventLock timerLock : Option Party) :
    Prop where
  /-- The timer has `event_lock` in its block. -/
  eventTimer : Owns .timer eventLock (seeing.any WaitPhase.holds)
  /-- The device has it in its blocks. -/
  eventDevice : Owns .device eventLock (telling.any SetPhase.holds)
  /-- The timer has `timer_lock` in its block. -/
  clearTimer : Owns .timer timerLock (clearing.any SetPhase.holds)
  /-- The device has it in its block. -/
  clearDevice : Owns .device timerLock (awaiting.any WaitPhase.holds)
  /-- Behind its loop the timer has seen a flag that is still set. -/
  seen : seeing = some .body → (done || fsh) = true
  /-- A timer that sleeps while a flag is set is about to be woken. -/
  timerAwake : seeing = some .asleep → (done || fsh) = true → telling = some .signal
  /-- A device that sleeps while `done` is clear is about to be woken. -/
  deviceAwake : awaiting = some .asleep → done = false → clearing = some .signal

section LocalInv

variable {seeing awaiting : Option WaitPhase} {clearing telling : Option SetPhase}
  {done fsh : Bool} {eventLock timerLock : Option Party}

/-- The timer goes on in its block under `event_lock`. -/
theorem LocalInv.see {phase : WaitPhase} {r : Option WaitPhase × Option Party}
    (h : LocalInv (some phase) clearing telling awaiting done fsh eventLock timerLock)
    (hr : phase.next .timer (done || fsh) eventLock = some r) :
    LocalInv r.1 clearing telling awaiting done fsh r.2 timerLock where
  eventTimer := WaitPhase.next_owns hr h.eventTimer
  eventDevice := WaitPhase.next_frame (by decide) hr h.eventTimer h.eventDevice
  clearTimer := h.clearTimer
  clearDevice := h.clearDevice
  seen := by
    obtain ⟨_, _, rfl⟩ | ⟨_, hc, rfl⟩ | ⟨_, _, rfl⟩ | ⟨_, rfl⟩ | ⟨_, rfl⟩ :=
      WaitPhase.next_cases hr
    · simp
    · exact fun _ => hc
    · simp
    · simp
    · simp
  timerAwake := by
    obtain ⟨_, _, rfl⟩ | ⟨_, _, rfl⟩ | ⟨_, hc, rfl⟩ | ⟨_, rfl⟩ | ⟨_, rfl⟩ :=
      WaitPhase.next_cases hr
    · simp
    · simp
    · simp [hc]
    · simp
    · simp
  deviceAwake := h.deviceAwake

/-- The device goes on in its block under `timer_lock`. -/
theorem LocalInv.await {phase : WaitPhase} {r : Option WaitPhase × Option Party}
    (h : LocalInv seeing clearing telling (some phase) done fsh eventLock timerLock)
    (hr : phase.next .device (!done) timerLock = some r) :
    LocalInv seeing clearing telling r.1 done fsh eventLock r.2 where
  eventTimer := h.eventTimer
  eventDevice := h.eventDevice
  clearTimer := WaitPhase.next_frame (by decide) hr h.clearDevice h.clearTimer
  clearDevice := WaitPhase.next_owns hr h.clearDevice
  seen := h.seen
  timerAwake := h.timerAwake
  deviceAwake := by
    obtain ⟨_, _, rfl⟩ | ⟨_, _, rfl⟩ | ⟨_, hc, rfl⟩ | ⟨_, rfl⟩ | ⟨_, rfl⟩ :=
      WaitPhase.next_cases hr
    · simp
    · simp
    · simp only [Bool.not_eq_false'] at hc
      simp [hc]
    · simp
    · simp

/-- The device goes on in a block under `event_lock`, which sets a flag and wakes the
timer. -/
theorem LocalInv.tell {phase : SetPhase} {r : Option SetPhase × Option Party} {done' fsh' : Bool}
    (h : LocalInv seeing clearing (some phase) none done fsh eventLock timerLock)
    (hr : phase.next .device eventLock = some r)
    (hflag : (done' || fsh') = (decide (phase = .body) || (done || fsh))) :
    LocalInv (wakeIf (phase = .signal) seeing) clearing r.1 none done' fsh' r.2 timerLock where
  eventTimer := by
    rw [any_holds_wakeIf]
    exact SetPhase.next_frame (by decide) hr h.eventDevice h.eventTimer
  eventDevice := SetPhase.next_owns hr h.eventDevice
  clearTimer := h.clearTimer
  clearDevice := h.clearDevice
  seen := by
    rw [wakeIf_eq_body, hflag]
    intro hs
    rw [h.seen hs, Bool.or_true]
  timerAwake := by
    intro hs hf
    obtain ⟨hphase, hs⟩ := wakeIf_eq_asleep.mp hs
    obtain ⟨rfl, _, rfl⟩ | ⟨rfl, rfl⟩ | ⟨rfl, rfl⟩ | ⟨rfl, rfl⟩ := SetPhase.next_cases hr
    · cases h.timerAwake hs (hflag ▸ hf)
    · rfl
    · exact absurd rfl hphase
    · cases h.timerAwake hs (hflag ▸ hf)
  deviceAwake := by simp

/-- The timer goes on in its block under `timer_lock`, which clears `done` and wakes the
device. -/
theorem LocalInv.clear {phase : SetPhase} {r : Option SetPhase × Option Party}
    (h : LocalInv none (some phase) telling awaiting done fsh eventLock timerLock)
    (hr : phase.next .timer timerLock = some r) :
    LocalInv none r.1 telling (wakeIf (phase = .signal) awaiting)
      (if phase = .body then false else done) fsh eventLock r.2 where
  eventTimer := h.eventTimer
  eventDevice := h.eventDevice
  clearTimer := SetPhase.next_owns hr h.clearTimer
  clearDevice := by
    rw [any_holds_wakeIf]
    exact SetPhase.next_frame (by decide) hr h.clearTimer h.clearDevice
  seen := by simp
  timerAwake := by simp
  deviceAwake := by
    intro hs hf
    obtain ⟨hphase, hs⟩ := wakeIf_eq_asleep.mp hs
    obtain ⟨rfl, _, rfl⟩ | ⟨rfl, rfl⟩ | ⟨rfl, rfl⟩ | ⟨rfl, rfl⟩ := SetPhase.next_cases hr
    · cases h.deviceAwake hs hf
    · rfl
    · exact absurd rfl hphase
    · cases h.deviceAwake hs hf

/-- Threads may wake for no reason. -/
theorem LocalInv.wake (h : LocalInv seeing clearing telling awaiting done fsh eventLock timerLock)
    (p q : Prop) [Decidable p] [Decidable q] :
    LocalInv (wakeIf p seeing) clearing telling (wakeIf q awaiting) done fsh eventLock
      timerLock where
  eventTimer := by
    rw [any_holds_wakeIf]
    exact h.eventTimer
  eventDevice := h.eventDevice
  clearTimer := h.clearTimer
  clearDevice := by
    rw [any_holds_wakeIf]
    exact h.clearDevice
  seen := by
    rw [wakeIf_eq_body]
    exact h.seen
  timerAwake hs := h.timerAwake (wakeIf_eq_asleep.mp hs).2
  deviceAwake hs := h.deviceAwake (wakeIf_eq_asleep.mp hs).2

/-- A thread that comes to a block, or does not, holds nothing yet. -/
theorem LocalInv.enter
    (h : LocalInv seeing clearing telling awaiting done fsh eventLock timerLock)
    {seeing' awaiting' : Option WaitPhase} {clearing' telling' : Option SetPhase}
    (hs : seeing' = seeing ∨ seeing = none ∧ seeing' = some .enter)
    (hc : clearing' = clearing ∨ clearing = none ∧ clearing' = some .enter)
    (ht : telling' = telling ∨ telling = none ∧ telling' = some .enter)
    (ha : awaiting' = awaiting ∨ awaiting = none ∧ awaiting' = some .enter) :
    LocalInv seeing' clearing' telling' awaiting' done fsh eventLock timerLock where
  eventTimer := by
    obtain rfl | ⟨rfl, rfl⟩ := hs
    · exact h.eventTimer
    · exact h.eventTimer
  eventDevice := by
    obtain rfl | ⟨rfl, rfl⟩ := ht
    · exact h.eventDevice
    · exact h.eventDevice
  clearTimer := by
    obtain rfl | ⟨rfl, rfl⟩ := hc
    · exact h.clearTimer
    · exact h.clearTimer
  clearDevice := by
    obtain rfl | ⟨rfl, rfl⟩ := ha
    · exact h.clearDevice
    · exact h.clearDevice
  seen := by
    obtain rfl | ⟨rfl, rfl⟩ := hs
    · exact h.seen
    · simp
  timerAwake := by
    obtain rfl | ⟨rfl, rfl⟩ := hs
    · intro hx hf
      obtain rfl | ⟨rfl, rfl⟩ := ht
      · exact h.timerAwake hx hf
      · cases h.timerAwake hx hf
    · simp
  deviceAwake := by
    obtain rfl | ⟨rfl, rfl⟩ := ha
    · intro hx hf
      obtain rfl | ⟨rfl, rfl⟩ := hc
      · exact h.deviceAwake hx hf
      · cases h.deviceAwake hx hf
    · simp

end LocalInv

/-! ## What the threads keep -/

/-- What holds of one device. -/
def LocalOk (s : Threads n) (d : Fin n) : Prop :=
  LocalInv (s.timer.seeing d) (s.timer.clearing d) (s.device d).telling (s.device d).awaiting
    (s.done d) (s.fsh d) (s.eventLock d) (s.timerLock d)

/-- What every step keeps: what holds of every device. -/
def ThreadsInv (s : Threads n) : Prop := ∀ d, LocalOk s d

@[simp] theorem seeing_afterSee (d e : Fin n) (temp : List (Fin n)) (fsh event : ℕ)
    (o : Option WaitPhase) :
    (TimerPc.afterSee d temp fsh event o).seeing e = if d = e then o else none := by
  cases o with
  | none => exact (ite_self _).symm
  | some phase => rfl

@[simp] theorem clearing_afterSee (d e : Fin n) (temp : List (Fin n)) (fsh event : ℕ)
    (o : Option WaitPhase) : (TimerPc.afterSee d temp fsh event o).clearing e = none := by
  cases o <;> rfl

@[simp] theorem clearing_afterClear (d e : Fin n) (temp : List (Fin n)) (fsh event : ℕ)
    (o : Option SetPhase) :
    (TimerPc.afterClear d temp fsh event o).clearing e = if d = e then o else none := by
  cases o with
  | none => exact (ite_self _).symm
  | some phase => rfl

@[simp] theorem seeing_afterClear (d e : Fin n) (temp : List (Fin n)) (fsh event : ℕ)
    (o : Option SetPhase) : (TimerPc.afterClear d temp fsh event o).seeing e = none := by
  cases o <;> rfl

@[simp] theorem seeing_wake (d e : Fin n) (p : TimerPc n) :
    (p.wake d).seeing e = wakeIf (e = d) (p.seeing e) := by
  cases p with
  | see b temp fsh event phase =>
    unfold wakeIf
    by_cases hb : b = e
    · subst hb
      by_cases hd : b = d <;> simp [TimerPc.wake, TimerPc.seeing, hd]
    · simp [TimerPc.wake, TimerPc.seeing, hb]
  | _ => simp [TimerPc.wake, TimerPc.seeing, wakeIf]

@[simp] theorem clearing_wake (d e : Fin n) (p : TimerPc n) :
    (p.wake d).clearing e = p.clearing e := by
  cases p <;> rfl

@[simp] theorem telling_wake (p : DevicePc) : p.wake.telling = p.telling := by
  cases p <;> rfl

@[simp] theorem awaiting_wake (p : DevicePc) : p.wake.awaiting = p.awaiting.map WaitPhase.wake := by
  cases p <;> rfl

@[simp] theorem telling_afterTell (o : Option SetPhase) : (DevicePc.afterTell o).telling = o := by
  cases o <;> rfl

@[simp] theorem telling_afterDetach (o : Option SetPhase) :
    (DevicePc.afterDetach o).telling = o := by
  cases o <;> rfl

@[simp] theorem awaiting_afterDetach (o : Option SetPhase) :
    (DevicePc.afterDetach o).awaiting = none := by
  cases o <;> rfl

@[simp] theorem telling_afterAwait (o : Option WaitPhase) :
    (DevicePc.afterAwait o).telling = none := by
  cases o <;> rfl

@[simp] theorem awaiting_afterAwait (o : Option WaitPhase) :
    (DevicePc.afterAwait o).awaiting = o := by
  cases o <;> rfl

/-- Behind the last phase of its first block a device enters the second block. -/
theorem awaiting_afterTell (o : Option SetPhase) : (DevicePc.afterTell o).awaiting = none ∨
    (none : Option WaitPhase) = none ∧ (DevicePc.afterTell o).awaiting = some .enter := by
  cases o with
  | none => exact Or.inr ⟨rfl, rfl⟩
  | some phase => exact Or.inl rfl

@[simp] theorem updateIf_self {β : Type*} (p : Prop) [Decidable p] (f : Fin n → β) (d : Fin n)
    (v : β) : (if p then Function.update f d v else f) d = if p then v else f d := by
  split
  · exact Function.update_self _ _ _
  · rfl

theorem updateIf_of_ne {β : Type*} (p : Prop) [Decidable p] (f : Fin n → β) {d e : Fin n}
    (h : e ≠ d) (v : β) : (if p then Function.update f d v else f) e = f e := by
  split
  · exact Function.update_of_ne h _ _
  · rfl

/-- The threads start with their places, locks and conditions in order. -/
theorem threadsInv_created : ThreadsInv (created : Threads n) := by
  intro d
  constructor <;> simp [Owns, created, TimerPc.seeing, TimerPc.clearing, DevicePc.telling,
    DevicePc.awaiting]

/-- A timer outside of its blocks. -/
theorem ThreadsInv.moveTimer {s : Threads n} (h : ThreadsInv s) {p : TimerPc n}
    (hs : ∀ d, p.seeing d = s.timer.seeing d ∨
      s.timer.seeing d = none ∧ p.seeing d = some .enter)
    (hc : ∀ d, p.clearing d = s.timer.clearing d ∨
      s.timer.clearing d = none ∧ p.clearing d = some .enter) :
    ThreadsInv {s with timer := p} :=
  fun d => LocalInv.enter (h d) (hs d) (hc d) (Or.inl rfl) (Or.inl rfl)

/-- A device outside of its blocks. -/
theorem ThreadsInv.callDevice {s : Threads n} (h : ThreadsInv s) {d : Fin n} {p : DevicePc}
    (hd : s.device d = .working) (ht : p.telling = some .enter) (ha : p.awaiting = none) :
    ThreadsInv {s with device := Function.update s.device d p} := by
  intro e
  by_cases he : e = d
  · subst he
    have hloc := h e
    unfold LocalOk at hloc ⊢
    dsimp only
    rw [hd] at hloc
    rw [Function.update_self, ha]
    exact hloc.enter (Or.inl rfl) (Or.inl rfl) (Or.inr ⟨rfl, ht⟩) (Or.inl rfl)
  · have hloc := h e
    unfold LocalOk at hloc ⊢
    dsimp only
    rwa [Function.update_of_ne he]

/-- The timer goes on in the block under `event_lock`. -/
theorem ThreadsInv.see {s : Threads n} (h : ThreadsInv s) {d : Fin n} {temp : List (Fin n)}
    {fsh event : ℕ} {phase : WaitPhase} (ht : s.timer = .see d temp fsh event phase)
    {r : Option WaitPhase × Option Party}
    (hr : phase.next .timer (s.done d || s.fsh d) (s.eventLock d) = some r) (fsh' event' : ℕ) :
    ThreadsInv {s with
      eventLock := Function.update s.eventLock d r.2
      timer := .afterSee d temp fsh' event' r.1} := by
  intro e
  have hloc := h e
  unfold LocalOk at hloc ⊢
  rw [ht] at hloc
  dsimp only
  rw [seeing_afterSee, clearing_afterSee]
  by_cases he : e = d
  · subst he
    rw [if_pos rfl, Function.update_self]
    dsimp only [TimerPc.seeing, TimerPc.clearing] at hloc
    rw [if_pos rfl] at hloc
    exact hloc.see hr
  · rw [if_neg (Ne.symm he), Function.update_of_ne he]
    dsimp only [TimerPc.seeing, TimerPc.clearing] at hloc
    rwa [if_neg (Ne.symm he)] at hloc

/-- The timer goes on in the block under `timer_lock`. -/
theorem ThreadsInv.clear {s : Threads n} (h : ThreadsInv s) {d : Fin n} {temp : List (Fin n)}
    {fsh event : ℕ} {phase : SetPhase} (ht : s.timer = .clear d temp fsh event phase)
    {r : Option SetPhase × Option Party} (hr : phase.next .timer (s.timerLock d) = some r) :
    ThreadsInv {s with
      done := if phase = .body then Function.update s.done d false else s.done
      device := if phase = .signal then Function.update s.device d (s.device d).wake else s.device
      timerLock := Function.update s.timerLock d r.2
      timer := .afterClear d temp fsh event r.1} := by
  intro e
  have hloc := h e
  unfold LocalOk at hloc ⊢
  rw [ht] at hloc
  dsimp only
  rw [seeing_afterClear, clearing_afterClear]
  by_cases he : e = d
  · subst he
    rw [if_pos rfl, Function.update_self, updateIf_self, updateIf_self]
    dsimp only [TimerPc.seeing, TimerPc.clearing] at hloc
    rw [if_pos rfl] at hloc
    convert hloc.clear hr using 1
    · split
      · exact telling_wake _
      · rfl
    · unfold wakeIf
      split
      · exact awaiting_wake _
      · rfl
  · rw [if_neg (Ne.symm he), Function.update_of_ne he, updateIf_of_ne _ _ he,
      updateIf_of_ne _ _ he]
    dsimp only [TimerPc.seeing, TimerPc.clearing] at hloc
    rwa [if_neg (Ne.symm he)] at hloc

/-- `timer_routine` keeps the invariant. -/
theorem timerRoutine_inv {s s' : Threads n} (h : ThreadsInv s) (hs : timerRoutine s = some s') :
    ThreadsInv s' := by
  unfold timerRoutine at hs
  split at hs
  · next ht =>
    cases hs
    refine h.moveTimer (fun d => Or.inl ?_) fun d => Or.inl ?_
    · rw [ht]
      split <;> rfl
    · rw [ht]
      split <;> rfl
  · next ht =>
    cases hs
    exact h.moveTimer (fun d => Or.inl (by rw [ht]; rfl)) fun d => Or.inl (by rw [ht]; rfl)
  · next d temp fsh event ht =>
    cases hs
    refine h.moveTimer (fun e => ?_) fun e => Or.inl (by rw [ht]; rfl)
    rw [ht]
    by_cases he : d = e
    · exact Or.inr ⟨rfl, if_pos he⟩
    · exact Or.inl (if_neg he)
  · next ht =>
    obtain ⟨r, hr, rfl⟩ := Option.map_eq_some_iff.mp hs
    exact h.see ht hr _ _
  · next ht =>
    cases hs
    exact h.moveTimer (fun d => Or.inl (by rw [ht]; rfl)) fun d => Or.inl (by rw [ht]; rfl)
  · next ht =>
    cases hs
    refine h.moveTimer (fun d => Or.inl ?_) fun d => Or.inl ?_
    · rw [ht]
      split <;> rfl
    · rw [ht]
      split <;> rfl
  · next d temp fsh event ht =>
    cases hs
    refine h.moveTimer (fun e => Or.inl (by rw [ht]; rfl)) fun e => ?_
    rw [ht]
    by_cases he : d = e
    · exact Or.inr ⟨rfl, if_pos he⟩
    · exact Or.inl (if_neg he)
  · next ht =>
    obtain ⟨r, hr, rfl⟩ := Option.map_eq_some_iff.mp hs
    exact h.clear ht hr
  · cases hs

/-- A device goes on in a block under `event_lock`, which sets a flag. -/
theorem ThreadsInv.tell {s s' : Threads n} (h : ThreadsInv s) {d : Fin n} {phase : SetPhase}
    (ht : (s.device d).telling = some phase) (ha : (s.device d).awaiting = none)
    {r : Option SetPhase × Option Party} (hr : phase.next .device (s.eventLock d) = some r)
    {p : DevicePc} (htell : p.telling = r.1)
    (hawait : p.awaiting = none ∨ (none : Option WaitPhase) = none ∧ p.awaiting = some .enter)
    (hdevice : s'.device = Function.update s.device d p)
    (hlock : s'.eventLock = Function.update s.eventLock d r.2) (hother : s'.timerLock = s.timerLock)
    (htimer : s'.timer = if phase = .signal then s.timer.wake d else s.timer)
    (hflag : (s'.done d || s'.fsh d) = (decide (phase = .body) || (s.done d || s.fsh d)))
    (hflags : ∀ e ≠ d, s'.done e = s.done e ∧ s'.fsh e = s.fsh e) : ThreadsInv s' := by
  intro e
  have hloc := h e
  unfold LocalOk at hloc ⊢
  have hseeing : s'.timer.seeing e = wakeIf (phase = .signal ∧ e = d) (s.timer.seeing e) := by
    rw [htimer]
    unfold wakeIf
    split
    · next hp =>
      rw [seeing_wake]
      simp [wakeIf, hp]
    · next hp => simp [hp]
  have hclearing : s'.timer.clearing e = s.timer.clearing e := by
    rw [htimer]
    split
    · exact clearing_wake _ _ _
    · rfl
  rw [hseeing, hclearing, hdevice, hlock, hother]
  by_cases he : e = d
  · subst he
    rw [ht, ha] at hloc
    rw [Function.update_self, Function.update_self, htell]
    have htold := hloc.tell hr hflag
    simp only [and_true]
    exact htold.enter (Or.inl rfl) (Or.inl rfl) (Or.inl rfl) hawait
  · obtain ⟨hdone, hfsh⟩ := hflags e he
    rw [Function.update_of_ne he, Function.update_of_ne he, hdone, hfsh]
    have hnot : ¬(phase = .signal ∧ e = d) := fun hx => he hx.2
    unfold wakeIf
    rwa [if_neg hnot]

/-- A device that goes on in its call keeps the invariant. -/
theorem deviceCall_inv {s s' : Threads n} {d : Fin n} (h : ThreadsInv s)
    (hs : deviceCall s d = some s') : ThreadsInv s' := by
  unfold deviceCall at hs
  split at hs
  · next phase hd =>
    obtain ⟨r, hr, rfl⟩ := Option.map_eq_some_iff.mp hs
    have htell : (s.device d).telling = some phase := by rw [hd]; rfl
    have hawait : (s.device d).awaiting = none := by rw [hd]; rfl
    refine h.tell htell hawait hr (telling_afterTell _)
      (awaiting_afterTell _) rfl rfl rfl rfl ?_ fun e he => ⟨updateIf_of_ne _ _ he _, rfl⟩
    dsimp only
    rw [updateIf_self]
    split <;> simp [*]
  · next phase hd =>
    obtain ⟨r, hr, rfl⟩ := Option.map_eq_some_iff.mp hs
    intro e
    have hloc := h e
    unfold LocalOk at hloc ⊢
    dsimp only
    by_cases he : e = d
    · subst he
      rw [hd] at hloc
      rw [Function.update_self, Function.update_self, telling_afterAwait, awaiting_afterAwait]
      exact LocalInv.await hloc hr
    · rwa [Function.update_of_ne he, Function.update_of_ne he]
  · next phase hd =>
    obtain ⟨r, hr, rfl⟩ := Option.map_eq_some_iff.mp hs
    have htell : (s.device d).telling = some phase := by rw [hd]; rfl
    have hawait : (s.device d).awaiting = none := by rw [hd]; rfl
    refine h.tell htell hawait hr (telling_afterDetach _)
      (Or.inl (awaiting_afterDetach _)) rfl rfl rfl rfl ?_
      fun e he => ⟨rfl, updateIf_of_ne _ _ he _⟩
    dsimp only
    rw [updateIf_self]
    split <;> simp [*]
  · cases hs
  · cases hs

/-- Every step keeps the invariant. -/
theorem threadsInv_step {s s' : Threads n} {act : Act n} (h : ThreadsInv s)
    (hs : ThreadsStep s act s') : ThreadsInv s' := by
  unfold ThreadsStep at hs
  cases act with
  | timer => exact timerRoutine_inv h hs
  | next d =>
    obtain ⟨hd, ⟨⟩⟩ := Option.ite_none_right_eq_some.mp hs
    exact h.callDevice hd rfl rfl
  | detach d =>
    obtain ⟨hd, ⟨⟩⟩ := Option.ite_none_right_eq_some.mp hs
    exact h.callDevice hd rfl rfl
  | device d => exact deviceCall_inv h hs
  | stop =>
    obtain ⟨_, ⟨⟩⟩ := Option.ite_none_right_eq_some.mp hs
    exact h
  | spuriousTimer d =>
    cases hs
    intro e
    have hloc := (h e).wake (e = d) False
    unfold LocalOk
    dsimp only
    rwa [seeing_wake, clearing_wake]
  | spuriousDevice d =>
    cases hs
    intro e
    have hloc := (h e).wake False (e = d)
    unfold LocalOk
    dsimp only
    by_cases he : e = d
    · subst he
      rw [Function.update_self, telling_wake, awaiting_wake]
      simpa [wakeIf] using hloc
    · rw [Function.update_of_ne he]
      simpa [wakeIf, he] using hloc

end OsSim.TimerCondvars
