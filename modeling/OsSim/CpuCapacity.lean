import OsSim.CpuExecution

/-!
# Up to fifty processes

A list of the scheduler holds fifty processes and refuses one more. A configuration
with at most fifty processes never gets there: whatever the threads do, no process
is lost, and the kernel finds every process that a CPU executes.
-/

namespace OsSim.CpuCapacity

open RunSteps SchedulerQueue SchedulerMlq SchedulerPlacement CpuRoutine CpuExecution

/-! ## Scheduler calls -/

section Calls

variable {κ : Type*} [DecidableEq κ] {pid prio : ℕ → BitVec 32} {n : ℕ}

/-- Processes below a number fill no more than that many cells. -/
theorem size_lt_of_notMem {q : Queue ℕ} {a : ℕ} (hnodup : q.toList.Nodup) (ha : a ∉ q.toList)
    (hlt : ∀ b ∈ q.toList, b < n) (han : a < n) : q.size < n := by
  have hsub : a :: q.toList ⊆ List.range n := by
    intro b hb
    obtain rfl | hb := List.mem_cons.mp hb
    · exact List.mem_range.mpr han
    · exact List.mem_range.mpr (hlt b hb)
  have hle := ((List.nodup_cons.mpr ⟨ha, hnodup⟩).subperm hsub).length_le
  rw [List.length_cons, List.length_range, Queue.length_toList] at hle
  exact hle

/-- A queue that is not full refuses nobody. -/
theorem refusedAfter_empty {q : Queue ℕ} {a : ℕ} (hq : q.size < maxQueueSize) :
    refusedAfter ∅ a q = ∅ := by
  refine Set.eq_empty_iff_forall_notMem.mpr fun b hb => ?_
  obtain ⟨_, hfull⟩ | ⟨_, hb⟩ := hb
  · exact absurd hfull (Nat.not_le.mpr hq)
  · exact hb

/-- Calls on at most fifty processes refuse nobody. -/
theorem refused_empty {s s' : System ℕ κ} {op : SchedOp ℕ κ} (hinv : SystemInv pid prio s)
    (hempty : s.refused = ∅) (hstep : SchedStep pid prio s op s') (hn : n ≤ maxQueueSize)
    (hlive : ∀ b ∈ s'.live, b < n) : s'.refused = ∅ := by
  have hplaced := hinv.placed
  rw [hempty] at hplaced
  cases hstep with
  | @add a i hi hpid =>
    dsimp only at hlive ⊢
    rw [hempty]
    refine refusedAfter_empty ((size_lt_of_notMem (hplaced.ready_nodup i) (fun ha => ?_)
      (fun b hb => hlive b (Or.inr ((hplaced.ready i b).mp hb).1)) (hlive a (Or.inl rfl))).trans_le
        hn)
    exact hpid a ((hplaced.ready i a).mp ha).1 rfl
  | @get k hk =>
    obtain ⟨hnone, _, _⟩ | ⟨a, i, ha, hd⟩ := getMlqProc_lists s.sched
    · have hres : getMlqProc s.sched = (none, (getMlqProc s.sched).2) := by rw [← hnone]
      rw [hres]
      exact hempty
    · have hres : getMlqProc s.sched = (some a, (getMlqProc s.sched).2) := by rw [← ha]
      obtain ⟨_, hmem, hnew⟩ := hplaced.dispatched hd
      rw [hres] at hlive ⊢
      change refusedAfter s.refused a s.sched.runningList = ∅
      rw [hempty]
      refine refusedAfter_empty ((size_lt_of_notMem hplaced.running_nodup (fun hr => ?_)
        (fun b hb => hlive b (hplaced.held_live ((hplaced.running b).mp hb).1)) (hlive a hmem)).trans_le
          hn)
      exact hnew ((hplaced.running a).mp hr).1
  | @put k a i hk hi =>
    dsimp only at hlive ⊢
    rw [hempty]
    refine refusedAfter_empty ((size_lt_of_notMem (hplaced.ready_nodup i) (fun ha => ?_)
      (fun b hb => hlive b ((hplaced.ready i b).mp hb).1)
        (hlive a (hplaced.held_live ⟨k, hk⟩))).trans_le hn)
    exact ((hplaced.ready i a).mp ha).2.1 ⟨k, hk⟩
  | finish => exact hempty

/-- With at most fifty processes a call of the scheduler refuses nobody and keeps the
system in order. -/
theorem systemInv_of_calls {cfg : Config} {s : System ℕ κ} {m' : Machine κ}
    (h : SystemInv pidOf cfg.prio s) (hempty : s.refused = ∅) (hn : n ≤ maxQueueSize)
    (hlive : ∀ b ∈ live cfg m', b < n)
    (hsim : (∃ refused', view cfg m' refused' = s) ∨
      ∃ op refused', SchedStep pidOf cfg.prio s op (view cfg m' refused')) :
    SystemInv pidOf cfg.prio (view cfg m' ∅) := by
  obtain ⟨refused', hview⟩ | ⟨op, refused', hstep⟩ := hsim
  · have hnone : refused' = ∅ := (congrArg System.refused hview).trans hempty
    rw [hnone] at hview
    rwa [hview]
  · have hnone : refused' = ∅ := refused_empty h hempty hstep hn hlive
    have hinv := systemInv_step h hstep
    rwa [hnone] at hinv

end Calls

/-! ## The threads -/

variable {κ : Type*} [DecidableEq κ]

/-- What every step keeps with at most fifty processes. -/
structure CapacityInv (cfg : Config) (m : Machine κ) : Prop where
  /-- What every step keeps anyway. -/
  routine : RoutineInv cfg m
  /-- No process was ever refused. -/
  accepted : SystemInv pidOf cfg.prio (view cfg m ∅)

omit [DecidableEq κ] in
/-- The live processes are processes of the configuration. -/
theorem live_lt {cfg : Config} {m : Machine κ} (h : RoutineInv cfg m) {a : ℕ}
    (ha : a ∈ live cfg m) : a < cfg.numProcesses :=
  ha.1.trans_le h.loaded_le

omit [DecidableEq κ] in
/-- The threads start with empty queues. -/
theorem view_boot (cfg : Config) : view cfg (boot : Machine κ) ∅ = systemInit := by
  have hlive : live cfg (boot : Machine κ) = ∅ := by
    ext a
    exact ⟨fun ha => absurd ha.1 (Nat.not_lt_zero a), fun ha => absurd ha (Set.notMem_empty a)⟩
  unfold view
  rw [hlive]
  rfl

/-- The threads start with the invariant. -/
theorem capacityInv_boot (cfg : Config) : CapacityInv cfg (boot : Machine κ) := by
  refine ⟨routineInv_boot cfg, ?_⟩
  rw [view_boot]
  exact systemInv_of_run (.nil _)

/-- Every step of a thread keeps the processes in their lists and refuses nobody. -/
theorem capacityInv_step {cfg : Config} (hn : cfg.numProcesses ≤ maxQueueSize) {m : Machine κ}
    (h : CapacityInv cfg m) (actor : Actor κ) : CapacityInv cfg (step cfg m actor) := by
  have hnext := routineInv_step h.routine actor
  refine ⟨hnext, systemInv_of_calls h.accepted rfl hn (fun _ hb => live_lt hnext hb) ?_⟩
  cases actor with
  | cpu k => exact (cpuStep_effect cfg m k).simulates h.accepted
  | loader => exact loader_simulates fun a => (h.routine.process a).fresh

/-- The invariant holds in every reachable state. -/
theorem capacityInv_of_reachable {cfg : Config} (hn : cfg.numProcesses ≤ maxQueueSize)
    {m : Machine κ} (h : Reachable (fun m => m = boot) (MachineStep cfg) m) : CapacityInv cfg m := by
  refine h.invariant (CapacityInv cfg) ?_ ?_
  · rintro m rfl
    exact capacityInv_boot cfg
  · rintro m actor m' hm rfl
    exact capacityInv_step hn hm actor

omit [DecidableEq κ] in
/-- The kernel finds a live process under its pid. -/
theorem CapacityInv.found {cfg : Config} {m : Machine κ} (h : CapacityInv cfg m) {a : ℕ}
    (ha : a ∈ live cfg m) : findProcessByPid pidOf m.sched (pidOf a) = some a :=
  h.accepted.placed.found ha (Set.notMem_empty a)

/-- With at most fifty processes no process is ever lost: from its loading to its end, each
one is in exactly one list of the scheduler, in the running list while a CPU has it and
in the ready queue of its priority while none has, and is found under its pid. -/
theorem no_process_lost_of_fifty {cfg : Config} (hn : cfg.numProcesses ≤ maxQueueSize)
    {m : Machine κ} (h : Reachable (fun m => m = boot) (MachineStep cfg) m) {a : ℕ}
    (ha : a ∈ live cfg m) : placeCount m.sched a = 1 ∧
      (a ∈ m.sched.runningList.toList ↔ ∃ k, (m.cpu k).point.holds = some a) ∧
      (∀ i, a ∈ (m.sched.mlqReadyQueue i).toList ↔
        (∀ k, (m.cpu k).point.holds ≠ some a) ∧ (cfg.prio a).toNat = i) ∧
      findProcessByPid pidOf m.sched (pidOf a) = some a := by
  have hinv := capacityInv_of_reachable hn h
  have hplaced := hinv.accepted.placed
  refine ⟨hplaced.placeCount_eq_one ha (Set.notMem_empty a), ?_, fun i => ?_, hinv.found ha⟩
  · exact (hplaced.running a).trans (and_iff_left (Set.notMem_empty a))
  · refine (hplaced.ready i a).trans ⟨fun hr => ⟨fun k hk => hr.2.1 ⟨k, hk⟩, hr.2.2.2⟩, fun hr => ?_⟩
    exact ⟨ha, fun ⟨k, hk⟩ => hr.1 k hk, Set.notMem_empty a, hr.2⟩

/-- A process that a CPU executes is in the running list. -/
theorem no_process_lost_of_fifty_executed : ∃ m : Machine (Fin 2),
    Reachable (fun m => m = boot) (MachineStep oneProcess) m ∧ placeCount m.sched 0 = 1 ∧
      (0 ∈ m.sched.runningList.toList ↔ ∃ k, (m.cpu k).point.holds = some 0) := by
  have hreach : Reachable (fun m => m = boot) (MachineStep oneProcess)
      ([.loader, .cpu ⟨0, Nat.two_pos⟩].foldl (step oneProcess) (boot : Machine (Fin 2))) :=
    ⟨boot, _, rfl, run_foldl _ _ _⟩
  obtain ⟨hone, hrun, _⟩ := no_process_lost_of_fifty (by decide) hreach
    (a := 0) ⟨by decide, by decide, rfl⟩
  exact ⟨_, hreach, hone, hrun⟩

end OsSim.CpuCapacity
