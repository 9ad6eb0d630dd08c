import OsSim.RunSimulation
import OsSim.TimerCondvars

/-!
# Blocks as single steps

Mapped to the barrier, every call of the threads is one of its steps or none, so that
what is known of the barrier is known of the threads. A thread that sleeps is woken once
its condition holds, and the threads never wait for each other.
-/

namespace OsSim.TimerCondvars

open RunSteps RunSimulation MutexBlocks TimerBarrier

variable {n : ℕ}

/-- Where the timer of the barrier is: a device is seen when it has been counted, and
released when its `done` has been cleared. -/
def TimerPc.point : TimerPc n → TimerPoint n
  | .top => .top
  | .check temp fsh event => .check temp fsh event
  | .see d temp fsh event phase => .check (if phase = .leave then temp else d :: temp) fsh event
  | .tick fsh event => .tick fsh event
  | .release temp fsh event => .release temp fsh event
  | .clear d temp fsh event phase =>
    .release (if phase = .signal ∨ phase = .leave then temp else d :: temp) fsh event
  | .exited => .exited

/-- Where a device of the barrier is: a block has happened when its flag is set, or when
its loop is left. -/
def DevicePc.point : DevicePc → DevicePoint
  | .working => .working
  | .tell phase => if phase = .signal ∨ phase = .leave then .waiting else .working
  | .await phase => if phase = .body ∨ phase = .leave then .working else .waiting
  | .detach phase => if phase = .signal ∨ phase = .leave then .detached else .working
  | .detached => .detached

/-- The barrier that the threads are at. -/
def Threads.blocks (s : Threads n) : Barrier n where
  done := s.done
  fsh := s.fsh
  time := s.time
  timerStop := s.timerStop
  timer := s.timer.point
  device d := (s.device d).point
  begun := s.begun
  completed := s.completed

@[simp] theorem point_wakeTimer (d : Fin n) (p : TimerPc n) : (p.wake d).point = p.point := by
  cases p with
  | see e temp fsh event phase =>
    dsimp only [TimerPc.wake, TimerPc.point]
    congr 1
    split
    · cases phase <;> rfl
    · rfl
  | _ => rfl

@[simp] theorem point_wakeDevice (p : DevicePc) : p.wake.point = p.point := by
  cases p with
  | await phase => cases phase <;> rfl
  | _ => rfl

/-- The points of the devices after one of them has moved. -/
theorem point_update (device : Fin n → DevicePc) (d : Fin n) (p : DevicePc) :
    (fun e => (Function.update device d p e).point) =
      Function.update (fun e => (device e).point) d p.point :=
  funext fun e => Function.apply_update (fun _ => DevicePc.point) device d p e

/-- A device that moves within its point. -/
theorem point_update_self {device : Fin n → DevicePc} {d : Fin n} {p : DevicePc}
    (h : p.point = (device d).point) :
    (fun e => (Function.update device d p e).point) = fun e => (device e).point := by
  rw [point_update, h]
  exact Function.update_eq_self d fun e => (device e).point

/-- A step of the timer is a step of the barrier's timer, or none. -/
theorem timerRoutine_blocks {s s' : Threads n} (h : ThreadsInv s) (hs : timerRoutine s = some s') :
    s'.blocks = s.blocks ∨ BarrierStep s.blocks .timer s'.blocks := by
  unfold timerRoutine at hs
  unfold BarrierStep barrierStep TimerBarrier.timerRoutine Threads.blocks
  split at hs
  · next ht =>
    cases hs
    refine Or.inr ?_
    rw [ht]
    dsimp only
    rw [apply_ite TimerPc.point]
    rfl
  · next ht =>
    cases hs
    refine Or.inr ?_
    rw [ht]
    rfl
  · next ht =>
    cases hs
    refine Or.inl ?_
    rw [ht]
    rfl
  · next d temp fsh event phase ht =>
    obtain ⟨r, hr, rfl⟩ := Option.map_eq_some_iff.mp hs
    dsimp only
    rw [ht]
    obtain ⟨rfl | rfl, _, rfl⟩ | ⟨rfl, _, rfl⟩ | ⟨rfl, _, rfl⟩ | ⟨rfl, rfl⟩ | ⟨rfl, rfl⟩ :=
      WaitPhase.next_cases hr
    · exact Or.inl rfl
    · exact Or.inl rfl
    · exact Or.inl rfl
    · exact Or.inl rfl
    · -- the flag that the timer has seen is still set when it counts the device
      have hseen : (s.done d || s.fsh d) = true := by
        refine (h d).seen ?_
        rw [ht]
        exact if_pos rfl
      refine Or.inr ?_
      change (if (s.done d || s.fsh d) = true then some _ else none) = _
      rw [if_pos hseen]
      simp [TimerPc.afterSee, TimerPc.point]
    · exact Or.inl rfl
  · next ht =>
    cases hs
    refine Or.inr ?_
    rw [ht]
    rfl
  · next ht =>
    cases hs
    refine Or.inr ?_
    rw [ht]
    dsimp only
    rw [apply_ite TimerPc.point]
    rfl
  · next ht =>
    cases hs
    refine Or.inl ?_
    rw [ht]
    rfl
  · next d temp fsh event phase ht =>
    obtain ⟨r, hr, rfl⟩ := Option.map_eq_some_iff.mp hs
    dsimp only
    rw [ht]
    obtain ⟨rfl, _, rfl⟩ | ⟨rfl, rfl⟩ | ⟨rfl, rfl⟩ | ⟨rfl, rfl⟩ := SetPhase.next_cases hr
    · exact Or.inl rfl
    · exact Or.inr rfl
    · refine Or.inl ?_
      rw [if_pos rfl, point_update_self (point_wakeDevice _)]
      rfl
    · exact Or.inl rfl
  · cases hs

/-- A device that goes on in its call takes a step of the barrier, or none. -/
theorem deviceCall_blocks {s s' : Threads n} {d : Fin n} (hs : deviceCall s d = some s') :
    s'.blocks = s.blocks ∨ ∃ act, BarrierStep s.blocks act s'.blocks := by
  unfold deviceCall at hs
  unfold BarrierStep barrierStep Threads.blocks
  split at hs
  · next phase hd =>
    obtain ⟨r, hr, rfl⟩ := Option.map_eq_some_iff.mp hs
    dsimp only
    obtain ⟨rfl, _, rfl⟩ | ⟨rfl, rfl⟩ | ⟨rfl, rfl⟩ | ⟨rfl, rfl⟩ := SetPhase.next_cases hr
    · refine Or.inl ?_
      rw [point_update_self (by rw [hd]; rfl)]
      rfl
    · refine Or.inr ⟨.begin d, ?_⟩
      refine (if_pos (by dsimp only; rw [hd]; rfl)).trans ?_
      rw [point_update]
      rfl
    · refine Or.inl ?_
      rw [point_update_self (by rw [hd]; rfl), if_pos rfl, point_wakeTimer]
      rfl
    · refine Or.inl ?_
      rw [point_update_self (by rw [hd]; rfl)]
      rfl
  · next phase hd =>
    obtain ⟨r, hr, rfl⟩ := Option.map_eq_some_iff.mp hs
    dsimp only
    obtain ⟨rfl | rfl, _, rfl⟩ | ⟨rfl, hc, rfl⟩ | ⟨rfl, hc, rfl⟩ | ⟨rfl, rfl⟩ | ⟨rfl, rfl⟩ :=
      WaitPhase.next_cases hr
    · refine Or.inl ?_
      rw [point_update_self (by rw [hd]; rfl)]
      rfl
    · refine Or.inl ?_
      rw [point_update_self (by rw [hd]; rfl)]
      rfl
    · have hclear : s.done d = false := by simpa using hc
      refine Or.inr ⟨.wake d, ?_⟩
      refine (if_pos ⟨by dsimp only; rw [hd]; rfl, hclear⟩).trans ?_
      rw [point_update, if_pos ⟨rfl, hclear⟩]
      rfl
    · have hset : ¬(WaitPhase.test = .test ∧ s.done d = false) := fun hx => by simp [hx.2] at hc
      refine Or.inl ?_
      rw [point_update_self (by rw [hd]; rfl), if_neg hset]
    · refine Or.inl ?_
      rw [point_update_self (by rw [hd]; rfl)]
      rfl
    · refine Or.inl ?_
      rw [point_update_self (by rw [hd]; rfl)]
      rfl
  · next phase hd =>
    obtain ⟨r, hr, rfl⟩ := Option.map_eq_some_iff.mp hs
    dsimp only
    obtain ⟨rfl, _, rfl⟩ | ⟨rfl, rfl⟩ | ⟨rfl, rfl⟩ | ⟨rfl, rfl⟩ := SetPhase.next_cases hr
    · refine Or.inl ?_
      rw [point_update_self (by rw [hd]; rfl)]
      rfl
    · refine Or.inr ⟨.detach d, ?_⟩
      refine (if_pos (by dsimp only; rw [hd]; rfl)).trans ?_
      rw [point_update]
      rfl
    · refine Or.inl ?_
      rw [point_update_self (by rw [hd]; rfl), if_pos rfl, point_wakeTimer]
      rfl
    · refine Or.inl ?_
      rw [point_update_self (by rw [hd]; rfl)]
      rfl
  · cases hs
  · cases hs

/-- Every step of the threads is a step of the barrier, or none. -/
theorem threadsStep_blocks {s s' : Threads n} {act : Act n} (h : ThreadsInv s)
    (hs : ThreadsStep s act s') :
    s'.blocks = s.blocks ∨ ∃ act', BarrierStep s.blocks act' s'.blocks := by
  unfold ThreadsStep at hs
  cases act with
  | timer => exact (timerRoutine_blocks h hs).imp id fun hstep => ⟨_, hstep⟩
  | next d =>
    obtain ⟨hd, ⟨⟩⟩ := Option.ite_none_right_eq_some.mp hs
    refine Or.inl ?_
    unfold Threads.blocks
    rw [point_update_self (by rw [hd]; rfl)]
  | detach d =>
    obtain ⟨hd, ⟨⟩⟩ := Option.ite_none_right_eq_some.mp hs
    refine Or.inl ?_
    unfold Threads.blocks
    rw [point_update_self (by rw [hd]; rfl)]
  | device d => exact deviceCall_blocks hs
  | stop =>
    obtain ⟨hall, ⟨⟩⟩ := Option.ite_none_right_eq_some.mp hs
    refine Or.inr ⟨.stop, if_pos fun d => ?_⟩
    unfold Threads.blocks
    dsimp only
    rw [hall d]
    rfl
  | spuriousTimer d =>
    cases hs
    refine Or.inl ?_
    unfold Threads.blocks
    rw [point_wakeTimer]
  | spuriousDevice d =>
    cases hs
    refine Or.inl ?_
    unfold Threads.blocks
    rw [point_update_self (point_wakeDevice _)]

/-- The threads behave like the barrier: to a run in which every call on a lock or a
condition variable and every access to a flag is a step of its own, in any order and with
any spurious wakeups, there is one in which each block under a lock is a single step. -/
theorem calls_refine_blocks {s : Threads n} {acts : List (Act n)}
    (h : Run ThreadsStep created acts s) :
    ∃ acts', Run BarrierStep startTimer acts' s.blocks :=
  run_map ThreadsInv (fun _ _ _ hi hs => threadsInv_step hi hs)
    (fun _ _ _ hi hs => threadsStep_blocks hi hs) h threadsInv_created

/-- The timer falls asleep on the device in front of the list, which then sets `done`. -/
def asleepRun : List (Act 2) :=
  [.timer, .timer, .timer, .timer, .next ⟨1, Nat.one_lt_two⟩, .device ⟨1, Nat.one_lt_two⟩,
    .device ⟨1, Nat.one_lt_two⟩]

/-- The barrier has seen the call of the device, and its timer waits. -/
theorem calls_refine_blocks_asleep : ∃ s : Threads 2, Run ThreadsStep created asleepRun s ∧
    s.timer.seeing ⟨1, Nat.one_lt_two⟩ = some .asleep ∧
      ∃ acts', Run BarrierStep startTimer acts' s.blocks := by
  have hrun : Run ThreadsStep (created : Threads 2) asleepRun _ :=
    .cons rfl (.cons rfl (.cons rfl (.cons rfl (.cons rfl (.cons rfl (.cons rfl (.nil _)))))))
  exact ⟨_, hrun, rfl, calls_refine_blocks hrun⟩

/-! ## No wakeup is lost -/

/-- The thread goes on by itself. -/
def Act.Deliberate : Act n → Prop
  | .timer | .next _ | .detach _ | .device _ => True
  | .stop | .spuriousTimer _ | .spuriousDevice _ => False

/-- Some thread goes on by itself. -/
def GoesOn (s : Threads n) : Prop := ∃ act s', act.Deliberate ∧ ThreadsStep s act s'

theorem goesOn_of_isSome {s : Threads n} (act : Act n) (hact : act.Deliberate)
    (h : (threadsStep s act).isSome = true) : GoesOn s :=
  let ⟨s', hs⟩ := Option.isSome_iff_exists.mp h
  ⟨act, s', hact, hs⟩

/-- The timer goes on in its block under `event_lock`. -/
theorem goesOn_of_seeing {s : Threads n} {d : Fin n} {phase : WaitPhase}
    (hs : s.timer.seeing d = some phase) (hawake : phase ≠ .asleep)
    (hfree : phase.holds = false → s.eventLock d = none) : GoesOn s := by
  obtain ⟨temp, fsh, event, ht⟩ : ∃ temp fsh event, s.timer = .see d temp fsh event phase := by
    unfold TimerPc.seeing at hs
    split at hs
    · next ht =>
      obtain ⟨rfl, ⟨⟩⟩ := Option.ite_none_right_eq_some.mp hs
      exact ⟨_, _, _, ht⟩
    · cases hs
  refine goesOn_of_isSome .timer trivial ?_
  dsimp only [threadsStep, timerRoutine]
  rw [ht]
  dsimp only
  rw [Option.isSome_map]
  exact WaitPhase.isSome_next _ _ hawake hfree

/-- The timer goes on in its block under `timer_lock`. -/
theorem goesOn_of_clearing {s : Threads n} {d : Fin n} {phase : SetPhase}
    (hs : s.timer.clearing d = some phase)
    (hfree : phase.holds = false → s.timerLock d = none) : GoesOn s := by
  obtain ⟨temp, fsh, event, ht⟩ : ∃ temp fsh event, s.timer = .clear d temp fsh event phase := by
    unfold TimerPc.clearing at hs
    split at hs
    · next ht =>
      obtain ⟨rfl, ⟨⟩⟩ := Option.ite_none_right_eq_some.mp hs
      exact ⟨_, _, _, ht⟩
    · cases hs
  refine goesOn_of_isSome .timer trivial ?_
  dsimp only [threadsStep, timerRoutine]
  rw [ht]
  dsimp only
  rw [Option.isSome_map]
  exact SetPhase.isSome_next _ hfree

/-- A device goes on in a block under `event_lock`. -/
theorem goesOn_of_telling {s : Threads n} {d : Fin n} {phase : SetPhase}
    (hs : (s.device d).telling = some phase)
    (hfree : phase.holds = false → s.eventLock d = none) : GoesOn s := by
  refine goesOn_of_isSome (.device d) trivial ?_
  dsimp only [threadsStep, deviceCall]
  unfold DevicePc.telling at hs
  split at hs
  · next hd =>
    cases hs
    rw [hd]
    dsimp only
    rw [Option.isSome_map]
    exact SetPhase.isSome_next _ hfree
  · next hd =>
    cases hs
    rw [hd]
    dsimp only
    rw [Option.isSome_map]
    exact SetPhase.isSome_next _ hfree
  · cases hs

/-- A device goes on in the block under `timer_lock`. -/
theorem goesOn_of_awaiting {s : Threads n} {d : Fin n} {phase : WaitPhase}
    (hs : (s.device d).awaiting = some phase) (hawake : phase ≠ .asleep)
    (hfree : phase.holds = false → s.timerLock d = none) : GoesOn s := by
  refine goesOn_of_isSome (.device d) trivial ?_
  dsimp only [threadsStep, deviceCall]
  unfold DevicePc.awaiting at hs
  split at hs
  · next hd =>
    cases hs
    rw [hd]
    dsimp only
    rw [Option.isSome_map]
    exact WaitPhase.isSome_next _ _ hawake hfree
  · cases hs

/-- Whoever has a lock goes on. -/
theorem LocalOk.owner_goesOn {s : Threads n} {d : Fin n} (h : LocalOk s d) {o : Party}
    (ho : s.eventLock d = some o ∨ s.timerLock d = some o) : GoesOn s := by
  rcases ho with ho | ho <;> cases o
  · obtain ⟨phase, hs, hp⟩ := (Option.any_eq_true _ _).mp (h.eventTimer.mp ho)
    refine goesOn_of_seeing hs ?_ fun hx => absurd hp (by simp [hx])
    rintro rfl
    cases hp
  · obtain ⟨phase, hs, hp⟩ := (Option.any_eq_true _ _).mp (h.eventDevice.mp ho)
    exact goesOn_of_telling hs fun hx => absurd hp (by simp [hx])
  · obtain ⟨phase, hs, hp⟩ := (Option.any_eq_true _ _).mp (h.clearTimer.mp ho)
    exact goesOn_of_clearing hs fun hx => absurd hp (by simp [hx])
  · obtain ⟨phase, hs, hp⟩ := (Option.any_eq_true _ _).mp (h.clearDevice.mp ho)
    refine goesOn_of_awaiting hs ?_ fun hx => absurd hp (by simp [hx])
    rintro rfl
    cases hp

/-- Either some thread goes on, or the locks of a device are free. -/
theorem LocalOk.goesOn_or_free {s : Threads n} {d : Fin n} (h : LocalOk s d) :
    GoesOn s ∨ s.eventLock d = none ∧ s.timerLock d = none := by
  cases he : s.eventLock d with
  | some o => exact Or.inl (h.owner_goesOn (Or.inl he))
  | none =>
    cases ht : s.timerLock d with
    | some o => exact Or.inl (h.owner_goesOn (Or.inr ht))
    | none => exact Or.inr ⟨rfl, rfl⟩

/-- A device that has not ended goes on, or another thread does, unless it sleeps until
`done` is clear. -/
theorem LocalOk.device_goesOn {s : Threads n} {d : Fin n} (h : LocalOk s d)
    (hd : s.device d ≠ .detached) (hawake : s.device d = .await .asleep → s.done d = false) :
    GoesOn s := by
  rcases h.goesOn_or_free with hgo | ⟨hevent, htimer⟩
  · exact hgo
  · cases hp : s.device d with
    | working =>
      exact goesOn_of_isSome (.next d) trivial (by
        dsimp only [threadsStep, nextSlot]
        rw [if_pos hp]
        rfl)
    | tell phase => exact goesOn_of_telling (by rw [hp]; rfl) fun _ => hevent
    | await phase =>
      by_cases hs : phase = .asleep
      · subst hs
        have hclear := h.deviceAwake (by rw [hp]; rfl) (hawake hp)
        exact goesOn_of_clearing hclear fun _ => htimer
      · exact goesOn_of_awaiting (by rw [hp]; rfl) hs fun _ => htimer
    | detach phase => exact goesOn_of_telling (by rw [hp]; rfl) fun _ => hevent
    | detached => exact absurd hp hd

/-- The barrier that the threads are at can be reached. -/
theorem reachable_blocks {s : Threads n} (h : Reachable (fun s => s = created) ThreadsStep s) :
    Reachable (fun s => s = startTimer) BarrierStep s.blocks := by
  obtain ⟨_, acts, rfl, hrun⟩ := h
  obtain ⟨acts', hrun'⟩ := calls_refine_blocks hrun
  exact ⟨_, acts', rfl, hrun'⟩

/-- A thread that sleeps while its condition holds is about to be woken, so that the
threads never wait for each other, even if nobody wakes for no reason: until all devices
have detached, some thread goes on by itself. -/
theorem no_lost_wakeup {s : Threads n} (h : Reachable (fun s => s = created) ThreadsStep s) :
    (∀ d, s.timer.seeing d = some .asleep → (s.done d || s.fsh d) = true →
      (s.device d).telling = some .signal) ∧
    (∀ d, s.device d = .await .asleep → s.done d = false → s.timer.clearing d = some .signal) ∧
    ((∃ d, s.device d ≠ .detached) → GoesOn s) := by
  have hinv : ThreadsInv s := h.invariant ThreadsInv (fun _ he => he ▸ threadsInv_created)
    fun _ _ _ hi hs => threadsInv_step hi hs
  have hbar := barrierInv_of_reachable (reachable_blocks h)
  refine ⟨fun d => (hinv d).timerAwake, fun d hd => (hinv d).deviceAwake (by rw [hd]; rfl), ?_⟩
  rintro ⟨d, hd⟩
  cases ht : s.timer with
  | top => exact goesOn_of_isSome .timer trivial (by dsimp only [threadsStep, timerRoutine]; rw [ht]; rfl)
  | check temp fsh event =>
    refine goesOn_of_isSome .timer trivial ?_
    dsimp only [threadsStep, timerRoutine]
    rw [ht]
    cases temp <;> rfl
  | see e temp fsh event phase =>
    have hseeing : s.timer.seeing e = some phase := by
      rw [ht]
      exact if_pos rfl
    rcases (hinv e).goesOn_or_free with hgo | ⟨hevent, -⟩
    · exact hgo
    · by_cases hp : phase = .asleep
      · subst hp
        cases hf : s.done e || s.fsh e with
        | true =>
          exact goesOn_of_telling ((hinv e).timerAwake hseeing hf) fun _ => hevent
        | false =>
          obtain ⟨hdone, hfsh⟩ := Bool.or_eq_false_iff.mp hf
          refine (hinv e).device_goesOn (fun hx => ?_) fun _ => hdone
          have hflag : s.fsh e = true := (hbar.flags e).mpr (by
            unfold Threads.blocks
            dsimp only
            rw [hx]
            rfl)
          exact absurd hflag (by simp [hfsh])
      · exact goesOn_of_seeing hseeing hp fun _ => hevent
  | tick fsh event =>
    exact goesOn_of_isSome .timer trivial (by dsimp only [threadsStep, timerRoutine]; rw [ht]; rfl)
  | release temp fsh event =>
    refine goesOn_of_isSome .timer trivial ?_
    dsimp only [threadsStep, timerRoutine]
    rw [ht]
    cases temp <;> rfl
  | clear e temp fsh event phase =>
    have hclearing : s.timer.clearing e = some phase := by
      rw [ht]
      exact if_pos rfl
    rcases (hinv e).goesOn_or_free with hgo | ⟨-, htimer⟩
    · exact hgo
    · exact goesOn_of_clearing hclearing fun _ => htimer
  | exited =>
    -- the timer has counted every device as detached, at least up to its signal
    have hall : ∀ e, s.blocks.device e = .detached := by
      have hcount := hbar.counted
      unfold Threads.blocks at hcount
      dsimp only at hcount
      rw [ht] at hcount
      exact hcount
    refine (hinv d).device_goesOn hd fun hx => ?_
    have hpoint : (s.device d).point = .detached := hall d
    rw [hx] at hpoint
    cases hpoint

/-- The timer that has fallen asleep is about to be woken. -/
theorem no_lost_wakeup_asleep : ∃ s : Threads 2,
    s.timer.seeing ⟨1, Nat.one_lt_two⟩ = some .asleep ∧ s.done ⟨1, Nat.one_lt_two⟩ = true ∧
      (s.device ⟨1, Nat.one_lt_two⟩).telling = some .signal ∧ GoesOn s := by
  have hrun : Run ThreadsStep (created : Threads 2) asleepRun _ :=
    .cons rfl (.cons rfl (.cons rfl (.cons rfl (.cons rfl (.cons rfl (.cons rfl (.nil _)))))))
  have hreach : Reachable (fun s : Threads 2 => s = created) ThreadsStep _ :=
    ⟨created, asleepRun, rfl, hrun⟩
  obtain ⟨hawake, -, hgo⟩ := no_lost_wakeup hreach
  exact ⟨_, rfl, rfl, hawake _ rfl rfl, hgo ⟨⟨0, Nat.two_pos⟩, by decide⟩⟩

end OsSim.TimerCondvars
