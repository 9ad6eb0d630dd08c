import OsSim.TimerRefinement

/-!
# The end of the timer

Once all devices have detached, the timer waits for nobody, and leaves its loop within
two rounds over `dev_list`.
-/

namespace OsSim.TimerCondvars

open RunSteps MutexBlocks TimerBarrier

variable {n : ℕ}

/-- The steps that are left in a block under `event_lock`. -/
def waitLeft : WaitPhase → ℕ
  | .asleep => 5
  | .enter | .woken => 4
  | .test => 3
  | .body => 2
  | .leave => 1

/-- The steps that are left in a block under `timer_lock`. -/
def setLeft : SetPhase → ℕ
  | .enter => 4
  | .body => 3
  | .signal => 2
  | .leave => 1

/-- The steps from the test of `timer_stop` to the end, once all devices have detached. -/
def topSteps (n : ℕ) (stop : Bool) : ℕ := if stop then 1 else 10 * n + 4

/-- The steps of one more round of the timer, needed if a device had not detached when this
round counted it. -/
def againSteps (n : ℕ) (stop : Bool) (fsh event : ℕ) : ℕ :=
  if fsh = event then 0 else topSteps n stop

/-- The steps to the end of the timer, once all devices have detached. -/
def stepsLeft (n : ℕ) (stop : Bool) : TimerPc n → ℕ
  | .top => topSteps n stop
  | .check temp fsh event => 5 * temp.length + 5 * n + 3 + againSteps n stop fsh event
  | .see _ temp fsh event phase =>
    waitLeft phase + 5 * temp.length + 5 * n + 3 + againSteps n stop fsh event
  | .tick fsh event => 5 * n + 2 + againSteps n stop fsh event
  | .release temp fsh event => 5 * temp.length + 1 + againSteps n stop fsh event
  | .clear _ temp fsh event phase =>
    setLeft phase + 5 * temp.length + 1 + againSteps n stop fsh event
  | .exited => 0

/-- `temp` is a part of `dev_list`. -/
def TimerPc.InList : TimerPc n → Prop
  | .check temp _ _ | .release temp _ _ => temp.length ≤ n
  | .see _ temp _ _ _ | .clear _ temp _ _ _ => temp.length < n
  | .top | .tick _ _ | .exited => True

/-- The timer is never more than two rounds away from its end. -/
theorem stepsLeft_le {stop : Bool} {p : TimerPc n} (h : p.InList) :
    stepsLeft n stop p ≤ 20 * n + 7 := by
  have htop : topSteps n stop ≤ 10 * n + 4 := by
    unfold topSteps
    split <;> omega
  have hagain : ∀ fsh event, againSteps n stop fsh event ≤ 10 * n + 4 := by
    intro fsh event
    unfold againSteps
    split
    · omega
    · exact htop
  cases p with
  | top => exact htop.trans (by omega)
  | check temp fsh event =>
    have hlen : temp.length ≤ n := h
    have := hagain fsh event
    dsimp only [stepsLeft]
    omega
  | see d temp fsh event phase =>
    have hlen : temp.length < n := h
    have := hagain fsh event
    have hphase : waitLeft phase ≤ 5 := by cases phase <;> decide
    dsimp only [stepsLeft]
    omega
  | tick fsh event =>
    have := hagain fsh event
    dsimp only [stepsLeft]
    omega
  | release temp fsh event =>
    have hlen : temp.length ≤ n := h
    have := hagain fsh event
    dsimp only [stepsLeft]
    omega
  | clear d temp fsh event phase =>
    have hlen : temp.length < n := h
    have := hagain fsh event
    have hphase : setLeft phase ≤ 4 := by cases phase <;> decide
    dsimp only [stepsLeft]
    omega
  | exited => exact Nat.zero_le _

theorem length_devList : (devList n).length = n := by
  simp [devList]

/-- The timer stays in the list. -/
theorem timerRoutine_inList {s s' : Threads n} (h : s.timer.InList)
    (hs : timerRoutine s = some s') : s'.timer.InList := by
  unfold timerRoutine at hs
  split at hs
  · cases hs
    dsimp only
    split
    · trivial
    · exact length_devList.le
  · cases hs
    trivial
  · next ht =>
    cases hs
    rw [ht] at h
    exact h
  · next ht =>
    obtain ⟨r, _, rfl⟩ := Option.map_eq_some_iff.mp hs
    rw [ht] at h
    dsimp only
    cases r.1 with
    | none => exact Nat.le_of_lt h
    | some phase => exact h
  · cases hs
    exact length_devList.le
  · cases hs
    dsimp only
    split <;> trivial
  · next ht =>
    cases hs
    rw [ht] at h
    exact h
  · next ht =>
    obtain ⟨r, _, rfl⟩ := Option.map_eq_some_iff.mp hs
    rw [ht] at h
    dsimp only
    cases r.1 with
    | none => exact Nat.le_of_lt h
    | some phase => exact h
  · cases hs

theorem inList_wake {d : Fin n} {p : TimerPc n} (h : p.InList) : (p.wake d).InList := by
  cases p <;> exact h

/-- A device moves the timer by waking it only. -/
theorem deviceCall_timer {s s' : Threads n} {d : Fin n} (hs : deviceCall s d = some s') :
    s'.timer = s.timer ∨ s'.timer = s.timer.wake d := by
  unfold deviceCall at hs
  split at hs
  · obtain ⟨r, _, rfl⟩ := Option.map_eq_some_iff.mp hs
    exact (ite_eq_or_eq _ _ _).symm
  · obtain ⟨r, _, rfl⟩ := Option.map_eq_some_iff.mp hs
    exact Or.inl rfl
  · obtain ⟨r, _, rfl⟩ := Option.map_eq_some_iff.mp hs
    exact (ite_eq_or_eq _ _ _).symm
  · cases hs
  · cases hs

/-- Every step keeps the timer in the list. -/
theorem threadsStep_inList {s s' : Threads n} {act : Act n} (h : s.timer.InList)
    (hs : ThreadsStep s act s') : s'.timer.InList := by
  unfold ThreadsStep at hs
  cases act with
  | timer => exact timerRoutine_inList h hs
  | next d =>
    obtain ⟨_, ⟨⟩⟩ := Option.ite_none_right_eq_some.mp hs
    exact h
  | detach d =>
    obtain ⟨_, ⟨⟩⟩ := Option.ite_none_right_eq_some.mp hs
    exact h
  | device d =>
    rcases deviceCall_timer hs with he | he
    · exact he ▸ h
    · exact he ▸ inList_wake h
  | stop =>
    obtain ⟨_, ⟨⟩⟩ := Option.ite_none_right_eq_some.mp hs
    exact h
  | spuriousTimer d =>
    cases hs
    exact inList_wake h
  | spuriousDevice d =>
    cases hs
    exact h

/-- All devices have detached. -/
structure Ended (s : Threads n) : Prop where
  /-- What the threads keep. -/
  inv : ThreadsInv s
  /-- No device has a block to finish. -/
  device : ∀ d, s.device d = .detached
  /-- The timer sees that they have detached. -/
  fsh : ∀ d, s.fsh d = true

/-- No device has a lock. -/
theorem Ended.eventLock {s : Threads n} (h : Ended s) {d : Fin n} {phase : WaitPhase}
    (hs : s.timer.seeing d = some phase) (hp : phase.holds = false) : s.eventLock d = none := by
  cases ho : s.eventLock d with
  | none => rfl
  | some o =>
    cases o with
    | timer =>
      have hx := (h.inv d).eventTimer.mp ho
      rw [hs, Option.any_some, hp] at hx
      cases hx
    | device =>
      have hx := (h.inv d).eventDevice.mp ho
      rw [h.device d] at hx
      cases hx

/-- No device has a lock. -/
theorem Ended.timerLock {s : Threads n} (h : Ended s) {d : Fin n} {phase : SetPhase}
    (hs : s.timer.clearing d = some phase) (hp : phase.holds = false) : s.timerLock d = none := by
  cases ho : s.timerLock d with
  | none => rfl
  | some o =>
    cases o with
    | timer =>
      have hx := (h.inv d).clearTimer.mp ho
      rw [hs, Option.any_some, hp] at hx
      cases hx
    | device =>
      have hx := (h.inv d).clearDevice.mp ho
      rw [h.device d] at hx
      cases hx

/-- The timer does not sleep. -/
theorem Ended.awake {s : Threads n} (h : Ended s) {d : Fin n} {phase : WaitPhase}
    (hs : s.timer.seeing d = some phase) : phase ≠ .asleep := by
  rintro rfl
  have hsig := (h.inv d).timerAwake hs (by rw [h.fsh d, Bool.or_true])
  rw [h.device d] at hsig
  cases hsig

/-- What is left of a block under `event_lock` gets shorter by a step. -/
theorem waitLeft_next {d : Fin n} {temp : List (Fin n)} {stop : Bool} {fsh event : ℕ}
    {owner : Option Party} {phase : WaitPhase} {r : Option WaitPhase × Option Party}
    (hr : phase.next .timer true owner = some r) :
    stepsLeft n stop (.afterSee d temp (if phase = .body then fsh + 1 else fsh)
      (if phase = .body then event + 1 else event) r.1) + 1 =
        stepsLeft n stop (.see d temp fsh event phase) := by
  obtain ⟨rfl | rfl, _, rfl⟩ | ⟨rfl, _, rfl⟩ | ⟨_, hc, _⟩ | ⟨rfl, rfl⟩ | ⟨rfl, rfl⟩ :=
    WaitPhase.next_cases hr
  · simp [TimerPc.afterSee, stepsLeft, waitLeft]
    omega
  · simp [TimerPc.afterSee, stepsLeft, waitLeft]
    omega
  · simp [TimerPc.afterSee, stepsLeft, waitLeft]
    omega
  · cases hc
  · simp [TimerPc.afterSee, stepsLeft, waitLeft, againSteps]
    omega
  · simp [TimerPc.afterSee, stepsLeft, waitLeft]
    omega

/-- A step in a block under `timer_lock` takes one from what the timer has left. -/
theorem setLeft_next {d : Fin n} {temp : List (Fin n)} {stop : Bool} {fsh event : ℕ}
    {owner : Option Party} {phase : SetPhase} {r : Option SetPhase × Option Party}
    (hr : phase.next .timer owner = some r) :
    stepsLeft n stop (.afterClear d temp fsh event r.1) + 1 =
      stepsLeft n stop (.clear d temp fsh event phase) := by
  obtain ⟨rfl, _, rfl⟩ | ⟨rfl, rfl⟩ | ⟨rfl, rfl⟩ | ⟨rfl, rfl⟩ := SetPhase.next_cases hr <;>
  · simp [TimerPc.afterClear, stepsLeft, setLeft]
    omega

/-- The timer takes a step that brings it nearer to its end. -/
theorem Ended.timerRoutine_eq {s : Threads n} (h : Ended s) (ht : s.timer ≠ .exited) :
    ∃ s', timerRoutine s = some s' ∧ s'.timerStop = s.timerStop ∧ (∀ d, s'.device d = .detached) ∧
      s'.fsh = s.fsh ∧ stepsLeft n s.timerStop s'.timer + 1 = stepsLeft n s.timerStop s.timer := by
  have hdevice := h.device
  unfold timerRoutine
  cases hp : s.timer with
  | top =>
    refine ⟨_, rfl, rfl, hdevice, rfl, ?_⟩
    dsimp only
    cases s.timerStop
    · simp [stepsLeft, topSteps, againSteps, length_devList]
      omega
    · rfl
  | check temp fsh event =>
    cases temp with
    | nil =>
      refine ⟨_, rfl, rfl, hdevice, rfl, ?_⟩
      simp [stepsLeft]
      omega
    | cons d temp =>
      refine ⟨_, rfl, rfl, hdevice, rfl, ?_⟩
      simp [stepsLeft, waitLeft]
      omega
  | see d temp fsh event phase =>
    have hseeing : s.timer.seeing d = some phase := by
      rw [hp]
      exact if_pos rfl
    obtain ⟨r, hr⟩ := Option.isSome_iff_exists.mp
      (WaitPhase.isSome_next Party.timer (s.done d || s.fsh d) (h.awake hseeing)
        (h.eventLock hseeing))
    refine ⟨_, Option.map_eq_some_iff.mpr ⟨r, hr, rfl⟩, rfl, hdevice, rfl, ?_⟩
    rw [h.fsh d, Bool.or_true] at hr
    simpa [h.fsh d] using waitLeft_next hr
  | tick fsh event =>
    refine ⟨_, rfl, rfl, hdevice, rfl, ?_⟩
    simp [stepsLeft, length_devList]
    omega
  | release temp fsh event =>
    cases temp with
    | nil =>
      refine ⟨_, rfl, rfl, hdevice, rfl, ?_⟩
      dsimp only
      unfold stepsLeft againSteps
      by_cases he : fsh = event
      · simp [he]
      · simp [he, Nat.add_comm]
    | cons d temp =>
      refine ⟨_, rfl, rfl, hdevice, rfl, ?_⟩
      simp [stepsLeft, setLeft]
      omega
  | clear d temp fsh event phase =>
    have hclearing : s.timer.clearing d = some phase := by
      rw [hp]
      exact if_pos rfl
    obtain ⟨r, hr⟩ := Option.isSome_iff_exists.mp
      (SetPhase.isSome_next Party.timer (h.timerLock hclearing))
    refine ⟨_, Option.map_eq_some_iff.mpr ⟨r, hr, rfl⟩, rfl, fun e => ?_, rfl, setLeft_next hr⟩
    dsimp only
    by_cases he : e = d
    · subst he
      rw [updateIf_self, hdevice e]
      exact ite_self _
    · rw [updateIf_of_ne _ _ he]
      exact hdevice e
  | exited => exact absurd hp ht

/-- The timer comes to its end by itself. -/
theorem Ended.timer_ends {s : Threads n} (h : Ended s) :
    ∃ s', Run ThreadsStep s (List.replicate (stepsLeft n s.timerStop s.timer) .timer) s' ∧
      s'.timer = .exited := by
  generalize hk : stepsLeft n s.timerStop s.timer = k
  induction k generalizing s with
  | zero =>
    refine ⟨s, .nil s, ?_⟩
    by_contra ht
    obtain ⟨s', _, _, _, _, hleft⟩ := h.timerRoutine_eq ht
    omega
  | succ k ih =>
    have ht : s.timer ≠ .exited := by
      intro he
      rw [he] at hk
      cases hk
    obtain ⟨s', hs, hstop, hdevice, hfsh, hleft⟩ := h.timerRoutine_eq ht
    have hended : Ended s' := ⟨timerRoutine_inv h.inv hs, hdevice, fun d => hfsh ▸ h.fsh d⟩
    obtain ⟨s'', hrun, hexit⟩ := ih hended (by rw [hstop]; omega)
    exact ⟨s'', .cons hs hrun, hexit⟩

/-- When all devices have detached, which is when `main` calls `stop_timer`, the timer
waits for nobody any more, and needs at most two more rounds to leave its loop, so that
`pthread_join` returns. -/
theorem timer_joins {s : Threads n} (h : Reachable (fun s => s = created) ThreadsStep s)
    (hall : ∀ d, s.device d = .detached) : ∃ k ≤ 20 * n + 7, ∃ s',
      Run ThreadsStep s (List.replicate k .timer) s' ∧ s'.timer = .exited := by
  have hinv : ThreadsInv s ∧ s.timer.InList :=
    h.invariant (fun s => ThreadsInv s ∧ s.timer.InList)
      (fun _ he => he ▸ ⟨threadsInv_created, trivial⟩)
      fun _ _ _ hi hs => ⟨threadsInv_step hi.1 hs, threadsStep_inList hi.2 hs⟩
  have hbar := barrierInv_of_reachable (reachable_blocks h)
  have hended : Ended s := by
    refine ⟨hinv.1, hall, fun d => (hbar.flags d).mpr ?_⟩
    unfold Threads.blocks
    dsimp only
    rw [hall d]
    rfl
  exact ⟨_, stepsLeft_le hinv.2, hended.timer_ends⟩

/-- A timer whose only device has detached before it was looked at comes to its end. -/
theorem timer_joins_detached : ∃ s : Threads 1, (∀ d, s.device d = .detached) ∧
    ∃ k ≤ 27, ∃ s', Run ThreadsStep s (List.replicate k .timer) s' ∧ s'.timer = .exited := by
  have hreach : Reachable (fun s : Threads 1 => s = created) ThreadsStep _ :=
    ⟨created, [.detach ⟨0, Nat.one_pos⟩, .device ⟨0, Nat.one_pos⟩, .device ⟨0, Nat.one_pos⟩,
      .device ⟨0, Nat.one_pos⟩, .device ⟨0, Nat.one_pos⟩], rfl,
      .cons rfl (.cons rfl (.cons rfl (.cons rfl (.cons rfl (.nil _)))))⟩
  exact ⟨_, by decide, timer_joins hreach (by decide)⟩

end OsSim.TimerCondvars
