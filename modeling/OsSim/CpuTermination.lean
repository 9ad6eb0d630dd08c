import OsSim.CpuExecution

/-!
# Leaving the CPU loop

When the loader is done and no process is left, a CPU on its way to the exit
test stops. A CPU that is idle at that time goes round the loop forever: the
branch of an idle CPU continues before the exit test is reached.
-/

namespace OsSim.CpuTermination

open RunSteps SchedulerQueue SchedulerMlq CpuRoutine CpuExecution

variable {κ : Type*}

/-- The loader has set `done`, and no process is in a ready queue or on a CPU. -/
structure NothingLeft (m : Machine κ) : Prop where
  /-- The loader has returned. -/
  done : m.done = true
  /-- All ready queues are empty. -/
  queues : ∀ i, (m.sched.mlqReadyQueue i).toList = []
  /-- No CPU has a process. -/
  cpus : ∀ k, (m.cpu k).point.refers = none

/-- The most steps an iteration of the loop takes: those of a CPU whose process
has finished and which gets another one. -/
def iterationSteps : ℕ := 6

/-- A CPU at the top of the loop or in `next_slot` without a process. -/
def idle : Point → Bool
  | .top none => true
  | .slot none => true
  | _ => false

/-- The steps to the end of the loop on the way through the exit test. -/
def stepsToExit : Point → ℕ
  | .freed _ => 2
  | .putBack _ => 2
  | .test _ => 1
  | _ => 0

/-- The loader has nothing left to add. -/
theorem loaderStep_nothingLeft {cfg : Config} {m : Machine κ} (h : NothingLeft m)
    (hloaded : m.loaded = cfg.numProcesses) : NothingLeft (loaderStep cfg m) ∧
      (loaderStep cfg m).cpu = m.cpu := by
  unfold loaderStep
  rw [if_neg (by omega)]
  exact ⟨⟨rfl, h.queues, h.cpus⟩, rfl⟩

/-- Nothing is left once every process has finished and been freed. -/
theorem nothingLeft_of_freed {cfg : Config} {m : Machine κ} (hinv : RoutineInv cfg m)
    (hdone : m.done = true) (hfrees : ∀ a < m.loaded, 0 < m.frees a) : NothingLeft m := by
  obtain ⟨refused, hs⟩ := hinv.system
  have hdead : ∀ a, a ∉ live cfg m := by
    intro a ha
    have hpos := hfrees a ha.1
    have hle := (hinv.process a).frees_le
    have hzero := ha.2.2
    omega
  refine ⟨hdone, fun i => List.eq_nil_iff_forall_not_mem.mpr fun a ha => ?_, fun k => ?_⟩
  · exact hdead a ((hs.placed.ready i a).mp ha).1
  · refine Option.eq_none_iff_forall_ne_some.mpr fun a hk => ?_
    rcases refers_cases hk with hx | hx
    · exact hdead a (hinv.holds_live hx)
    · obtain ⟨hone, hzero⟩ := hinv.finished.unfreed k a hx
      have hloaded : a < m.loaded := by
        by_contra hge
        have hfresh := (hinv.process a).fresh (Nat.not_lt.mp hge)
        omega
      have hpos := hfrees a hloaded
      omega

variable [DecidableEq κ]

/-- However the threads go on, CPU `k` has left the loop once it has made `n` steps. -/
def StopsWithin (cfg : Config) (m : Machine κ) (k : κ) (n : ℕ) : Prop :=
  ∀ as m', Run (MachineStep cfg) m as m' → n ≤ as.count (.cpu k) → (m'.cpu k).point = .stopped

/-! ## Steps when nothing is left -/

/-- The dispatch scan finds nothing in empty queues. -/
theorem getMlqProc_empty {s : Sched ℕ} (h : ∀ i, (s.mlqReadyQueue i).toList = []) :
    (getMlqProc s).1 = none ∧ (getMlqProc s).2.mlqReadyQueue = s.mlqReadyQueue := by
  obtain ⟨hnone, _, hq⟩ | ⟨a, i, _, hd⟩ := getMlqProc_lists s
  · exact ⟨hnone, hq⟩
  · have hl := hd.head
    rw [h i] at hl
    cases hl

/-- Getting a process when there is none. -/
theorem getProc_nothingLeft {m : Machine κ} (h : NothingLeft m) {k : κ} {next : Option ℕ → Cpu}
    (hnext : (next none).point.refers = none) : NothingLeft (m.getProc k next) ∧
      ((m.getProc k next).cpu k).point = (next none).point := by
  obtain ⟨hnone, hq⟩ := getMlqProc_empty h.queues
  have hself : (m.getProc k next).cpu k = next none := by
    unfold Machine.getProc
    rw [setCpu_self, hnone]
  refine ⟨⟨h.done, fun i => ?_, fun j => ?_⟩, by rw [hself]⟩
  · change ((getMlqProc m.sched).2.mlqReadyQueue i).toList = []
    rw [hq]
    exact h.queues i
  · by_cases hj : j = k
    · rw [hj, hself, hnext]
    · unfold Machine.getProc
      rw [setCpu_of_ne _ hj]
      exact h.cpus j

/-- Moving on without a process. -/
theorem setCpu_nothingLeft {m : Machine κ} (h : NothingLeft m) {k : κ} {c : Cpu}
    (hc : c.point.refers = none) : NothingLeft (m.setCpu k c) := by
  refine ⟨h.done, h.queues, fun j => ?_⟩
  by_cases hj : j = k
  · rw [hj, setCpu_self, hc]
  · rw [setCpu_of_ne _ hj]
    exact h.cpus j

/-- What a CPU does when nothing is left: an idle one stays idle, any other one
comes closer to the exit. -/
theorem cpuStep_nothingLeft (cfg : Config) {m : Machine κ} (h : NothingLeft m) (k : κ) :
    NothingLeft (cpuStep cfg m k) ∧
      idle ((cpuStep cfg m k).cpu k).point = idle (m.cpu k).point ∧
      stepsToExit ((cpuStep cfg m k).cpu k).point = stepsToExit (m.cpu k).point - 1 := by
  have hnone := h.cpus k
  unfold cpuStep
  split
  · next hk =>
    refine ⟨(getProc_nothingLeft h rfl).1, ?_, ?_⟩
    · exact (congrArg idle (getProc_nothingLeft h rfl).2).trans (by rw [hk]; rfl)
    · exact (congrArg stepsToExit (getProc_nothingLeft h rfl).2).trans (by rw [hk]; rfl)
  · next hk =>
    rw [hk] at hnone
    cases hnone
  · next hk =>
    rw [hk] at hnone
    cases hnone
  · next hk =>
    refine ⟨(getProc_nothingLeft h rfl).1, ?_, ?_⟩
    · exact (congrArg idle (getProc_nothingLeft h rfl).2).trans (by rw [hk]; rfl)
    · exact (congrArg stepsToExit (getProc_nothingLeft h rfl).2).trans (by rw [hk]; rfl)
  · next hk =>
    refine ⟨(getProc_nothingLeft h rfl).1, ?_, ?_⟩
    · exact (congrArg idle (getProc_nothingLeft h rfl).2).trans (by rw [hk]; rfl)
    · exact (congrArg stepsToExit (getProc_nothingLeft h rfl).2).trans (by rw [hk]; rfl)
  · next hk =>
    rw [h.done, if_pos rfl, setCpu_self, hk]
    exact ⟨setCpu_nothingLeft h rfl, rfl, rfl⟩
  · next hk =>
    rw [hk] at hnone
    cases hnone
  · next hk =>
    rw [hk] at hnone
    cases hnone
  · next proc t hk =>
    rw [hk] at hnone
    have hp : proc = none := hnone
    rw [setCpu_self, hk, hp]
    exact ⟨setCpu_nothingLeft h rfl, rfl, rfl⟩
  · next hk =>
    rw [hk]
    exact ⟨h, rfl, rfl⟩

/-- A CPU that stays idle or comes closer to the exit, whichever thread moves. -/
theorem step_nothingLeft {cfg : Config} {m : Machine κ} (hinv : RoutineInv cfg m)
    (h : NothingLeft m) (k : κ) (actor : Actor κ) :
    NothingLeft (step cfg m actor) ∧
      idle ((step cfg m actor).cpu k).point = idle (m.cpu k).point ∧
      stepsToExit ((step cfg m actor).cpu k).point =
        stepsToExit (m.cpu k).point - (if actor = .cpu k then 1 else 0) := by
  cases actor with
  | loader =>
    obtain ⟨hn, hc⟩ := loaderStep_nothingLeft h (hinv.done_loaded h.done)
    refine ⟨hn, ?_, ?_⟩
    · change idle ((loaderStep cfg m).cpu k).point = _
      rw [hc]
    · change stepsToExit ((loaderStep cfg m).cpu k).point = _
      rw [hc, if_neg (fun h => nomatch h), Nat.sub_zero]
  | cpu j =>
    by_cases hj : j = k
    · subst hj
      rw [if_pos rfl]
      exact cpuStep_nothingLeft cfg h j
    · refine ⟨(cpuStep_nothingLeft cfg h j).1, ?_, ?_⟩
      · change idle ((cpuStep cfg m j).cpu k).point = _
        rw [cpuStep_of_ne cfg m (Ne.symm hj)]
      · change stepsToExit ((cpuStep cfg m j).cpu k).point = _
        rw [cpuStep_of_ne cfg m (Ne.symm hj), if_neg (fun h => hj (Actor.cpu.inj h)), Nat.sub_zero]

/-! ## Runs when nothing is left -/

/-- Along a run a CPU stays idle, or comes closer to the exit by its own steps. -/
theorem run_nothingLeft {cfg : Config} {m m' : Machine κ} {as : List (Actor κ)}
    (hrun : Run (MachineStep cfg) m as m') (hinv : RoutineInv cfg m) (h : NothingLeft m) (k : κ) :
    NothingLeft m' ∧ idle (m'.cpu k).point = idle (m.cpu k).point ∧
      stepsToExit (m'.cpu k).point = stepsToExit (m.cpu k).point - as.count (.cpu k) := by
  induction hrun with
  | nil m => exact ⟨h, rfl, rfl⟩
  | @cons m m₁ m' actor as hstep _ ih =>
    cases hstep
    obtain ⟨hn, hi, hs⟩ := step_nothingLeft hinv h k actor
    obtain ⟨hn', hi', hs'⟩ := ih (routineInv_step hinv actor) hn
    refine ⟨hn', hi'.trans hi, ?_⟩
    rw [hs', hs, List.count_cons, Nat.sub_sub]
    congr 1
    rw [Nat.add_comm]
    congr 1
    by_cases ha : actor = .cpu k
    · rw [if_pos ha, if_pos (beq_iff_eq.mpr ha)]
    · rw [if_neg ha, if_neg (fun hb => ha (beq_iff_eq.mp hb))]

/-- A CPU that has no process, is not idle and has no steps left has stopped. -/
theorem stopped_of_exit {p : Point} (hr : p.refers = none) (hi : idle p = false)
    (hs : stepsToExit p = 0) : p = .stopped := by
  cases p with
  | stopped => rfl
  | top proc =>
    cases hr
    cases hi
  | slot proc =>
    cases hr
    cases hi
  | finished _ => cases hr
  | exec _ => cases hr
  | freed _ => cases hs
  | putBack _ => cases hs
  | test _ => cases hs

theorem stepsToExit_le (p : Point) : stepsToExit p ≤ iterationSteps := by
  unfold stepsToExit iterationSteps
  split <;> omega

/-- An idle CPU goes round the loop for any number of steps. -/
theorem not_stopsWithin {cfg : Config} {m : Machine κ} (hinv : RoutineInv cfg m)
    (hn : NothingLeft m) {k : κ} (hi : idle (m.cpu k).point = true) (n : ℕ) :
    ¬StopsWithin cfg m k n := by
  intro hstops
  let as := List.replicate n (Actor.cpu k)
  have hrun : Run (MachineStep cfg) m as (as.foldl (step cfg) m) := run_foldl (step cfg) m as
  have hstop := hstops as _ hrun List.count_replicate_self.ge
  have hidle := (run_nothingLeft hrun hinv hn k).2.1
  rw [hstop, hi] at hidle
  cases hidle

/-- In every reachable state with `done` set and nothing left, a CPU leaves the loop within
one iteration exactly if it is not idle; an idle CPU never leaves the loop. -/
theorem stopsWithin_iff {cfg : Config} {m : Machine κ} {k : κ} {n : ℕ}
    (h : Reachable (fun m => m = boot) (MachineStep cfg) m) (hn : NothingLeft m)
    (hsteps : iterationSteps ≤ n) : StopsWithin cfg m k n ↔ idle (m.cpu k).point = false := by
  have hinv := routineInv_of_reachable h
  constructor
  · intro hstops
    rcases Bool.eq_false_or_eq_true (idle (m.cpu k).point) with hi | hi
    · exact absurd hstops (not_stopsWithin hinv hn hi n)
    · exact hi
  · intro hi as m' hrun hcount
    obtain ⟨hn', hi', hs⟩ := run_nothingLeft hrun hinv hn k
    have hle := stepsToExit_le (m.cpu k).point
    exact stopped_of_exit (hn'.cpus k) (hi'.trans hi) (by omega)

/-! ## One process on two CPUs -/

/-- CPU 1 looks for a process before one is loaded; CPU 0 executes it to its end
and reaches the exit test when the loader is done. -/
def idleRun : List (Actor (Fin 2)) :=
  .cpu ⟨1, Nat.one_lt_two⟩ :: .loader ::
    (List.replicate 12 (.cpu ⟨0, Nat.two_pos⟩) ++ [.loader])

/-- The state behind that run. -/
def idleEnd : Machine (Fin 2) := idleRun.foldl (step oneProcess) boot

theorem idleEnd_reachable : Reachable (fun m => m = boot) (MachineStep oneProcess) idleEnd :=
  ⟨boot, idleRun, rfl, run_foldl (step oneProcess) boot idleRun⟩

theorem idleEnd_nothingLeft : NothingLeft idleEnd := by
  have hdone : idleEnd.done = true := by decide +kernel
  have hloaded : idleEnd.loaded = 1 := by decide +kernel
  have hfreed : idleEnd.frees 0 = 1 := by decide +kernel
  refine nothingLeft_of_freed (routineInv_of_reachable idleEnd_reachable) hdone fun a ha => ?_
  have hzero : a = 0 := by omega
  rw [hzero, hfreed]
  exact Nat.one_pos

/-- CPU 0 is at the exit test and stops. -/
theorem stopsWithin_busy : (idleEnd.cpu 0).point = .test none ∧
    (StopsWithin oneProcess idleEnd 0 iterationSteps ↔ idle (idleEnd.cpu 0).point = false) :=
  ⟨by decide +kernel, stopsWithin_iff idleEnd_reachable idleEnd_nothingLeft le_rfl⟩

/-- CPU 1 has not stopped and never will. -/
theorem never_stops_idle : 0 < oneProcess.timeSlot ∧
    Reachable (fun m => m = boot) (MachineStep oneProcess) idleEnd ∧ NothingLeft idleEnd ∧
      (idleEnd.cpu 1).point ≠ .stopped ∧ ∀ n, ¬StopsWithin oneProcess idleEnd 1 n := by
  have hpoint : (idleEnd.cpu 1).point = .slot none := by decide +kernel
  refine ⟨by decide, idleEnd_reachable, idleEnd_nothingLeft, ?_, ?_⟩
  · rw [hpoint]
    exact fun h => nomatch h
  · exact not_stopsWithin (routineInv_of_reachable idleEnd_reachable) idleEnd_nothingLeft
      (by rw [hpoint]; rfl)

end OsSim.CpuTermination
