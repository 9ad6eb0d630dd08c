import OsSim.CpuCapacity
import OsSim.ListScheduling
import OsSim.SlotWork

/-!
# When a process has run to its end

As no CPU is idle while a process waits, the processes are executed as in list scheduling:
from the slot in which the last one is added, the time to the end of a process is bounded by
the instructions of all programs, the number of CPUs and the length of its own program.
-/

namespace OsSim.SlotBound

open RunSteps RunSimulation SchedulerQueue SchedulerMlq SchedulerPlacement CpuRoutine
open CpuExecution CpuSlice CpuCapacity TimerBarrier SlotClock SlotWork ListScheduling

variable {n : ℕ}

/-! ## Calls of `run` -/

/-- `run` has been called for a process since it came to its CPU, or it has finished. -/
def Worked (m : Machine (Fin n)) (a : ℕ) : Prop :=
  0 < m.finishes a ∨ ∃ k, (m.cpu k).point = .slot (some a) ∨ (m.cpu k).point = .top (some a)

instance (m : Machine (Fin n)) (a : ℕ) : Decidable (Worked m a) :=
  inferInstanceAs (Decidable (_ ∨ _))

/-- How often `run` will still be called for a process: once for an empty program, too. -/
def rest (cfg : Config) (m : Machine (Fin n)) (a : ℕ) : ℕ :=
  if Worked m a then cfg.size a - m.pc a else max 1 (cfg.size a - m.pc a)

/-- The calls do not become more if a process that leaves the state has more to do. -/
theorem rest_le {cfg : Config} {m m' : Machine (Fin n)} {a : ℕ} (hpc : m'.pc a = m.pc a)
    (h : Worked m a → Worked m' a ∨ m.pc a < cfg.size a) : rest cfg m' a ≤ rest cfg m a := by
  unfold rest
  rw [hpc]
  by_cases hw : Worked m a
  · rw [if_pos hw]
    obtain hw' | hlt := h hw
    · rw [if_pos hw']
    · split
      · exact le_refl _
      · omega
  · rw [if_neg hw]
    split <;> omega

/-- A step of a CPU finishes processes, and takes none back. -/
theorem finishes_le_cpuStep (cfg : Config) (m : Machine (Fin n)) (k : Fin n) (a : ℕ) :
    m.finishes a ≤ (cpuStep cfg m k).finishes a := by
  have heffect := cpuStep_effect cfg m k
  generalize cpuStep cfg m k = m' at heffect
  cases heffect with
  | @finish b t hk hpc =>
    change m.finishes a ≤ Function.update m.finishes b (m.finishes b + 1) a
    rw [update_succ_apply]
    exact Nat.le_add_right _ _
  | @exec b t hk =>
    change m.finishes a ≤ (CpuRoutine.run cfg m b).finishes a
    rw [(run_counters cfg m b).2.2.1]
  | _ => exact le_refl _

/-- A process that has run to its end is finished next. -/
theorem cpuStep_finishes {cfg : Config} {m : Machine (Fin n)} {k : Fin n} {a : ℕ}
    (hk : (m.cpu k).point = .top (some a)) (hpc : m.pc a = cfg.size a) :
    0 < (cpuStep cfg m k).finishes a := by
  rcases hc : m.cpu k with ⟨point, timeLeft⟩
  rw [hc] at hk
  obtain rfl : point = .top (some a) := hk
  unfold cpuStep
  rw [hc]
  dsimp only
  rw [if_pos hpc]
  change 0 < Function.update m.finishes a (m.finishes a + 1) a
  rw [Function.update_self]
  exact Nat.succ_pos _

/-- A process that has been worked on stays so, or has more to do. -/
theorem Worked.cpuStep {cfg : Config} {m : Machine (Fin n)} (h : RoutineInv cfg m) (k : Fin n)
    {a : ℕ} (hw : Worked m a) : Worked (cpuStep cfg m k) a ∨ m.pc a < cfg.size a := by
  obtain hfin | ⟨j, hj⟩ := hw
  · exact Or.inl (Or.inl (hfin.trans_le (finishes_le_cpuStep cfg m k a)))
  · by_cases hjk : j = k
    · subst hjk
      obtain hslot | htop := hj
      · exact Or.inl (Or.inr ⟨j, Or.inr (cpuStep_slot cfg hslot)⟩)
      · obtain heq | hlt := (h.process a).pc_le.eq_or_lt
        · exact Or.inl (Or.inl (cpuStep_finishes htop heq))
        · exact Or.inr hlt
    · refine Or.inl (Or.inr ⟨j, ?_⟩)
      rw [cpuStep_of_ne cfg m hjk]
      exact hj

/-- A process before `run` has not been worked on. -/
theorem not_worked_of_exec {cfg : Config} {m : Machine (Fin n)} (h : RoutineInv cfg m)
    {k : Fin n} {a : ℕ} (hk : (m.cpu k).point = .exec a) : ¬Worked m a := by
  obtain ⟨refused, hsystem⟩ := h.system
  have hholds : (m.cpu k).point.holds = some a := by rw [hk]; rfl
  rintro (hfin | ⟨j, hj⟩)
  · have hlive := (h.holds_live hholds).2.2
    omega
  · have hsame : j = k := by
      refine hsystem.holds_inj j k a ?_ hholds
      change (m.cpu j).point.holds = some a
      obtain hj | hj := hj <;> rw [hj] <;> rfl
    subst hsame
    obtain hj | hj := hj <;> cases hj.symm.trans hk

/-- `run` moves `pc` of its process only, and by one until the end of the program. -/
theorem run_pc (cfg : Config) (m : Machine (Fin n)) (a b : ℕ) :
    (CpuRoutine.run cfg m a).pc b = m.pc b + if b = a ∧ m.pc a < cfg.size a then 1 else 0 := by
  unfold CpuRoutine.run
  split
  · next hle => rw [if_neg fun hx => absurd hx.2 (Nat.not_lt.mpr hle), Nat.add_zero]
  · next hlt =>
    dsimp only
    rw [update_succ_apply]
    by_cases hb : b = a
    · rw [if_pos hb, if_pos ⟨hb, Nat.lt_of_not_le hlt⟩]
    · rw [if_neg hb, if_neg fun hx => hb hx.1]

/-- A call of `run` uses up one of the calls of its process. -/
theorem rest_exec {cfg : Config} {m : Machine (Fin n)} (h : RoutineInv cfg m) {k : Fin n} {a : ℕ}
    (hk : (m.cpu k).point = .exec a) : rest cfg (cpuStep cfg m k) a + 1 ≤ rest cfg m a := by
  have hpc : (cpuStep cfg m k).pc a = (CpuRoutine.run cfg m a).pc a := by
    have hstep := step_pc cfg m (.cpu k)
    dsimp only [executes, step] at hstep
    rw [hk] at hstep
    exact congrFun hstep a
  have hworked : Worked (cpuStep cfg m k) a := by
    refine Or.inr ⟨k, Or.inl ?_⟩
    rcases hc : m.cpu k with ⟨point, timeLeft⟩
    rw [hc] at hk
    obtain rfl : point = .exec a := hk
    rw [cpuStep_cpu]
    unfold nextCpu
    rw [hc]
  unfold rest
  rw [if_pos hworked, if_neg (not_worked_of_exec h hk), hpc, run_pc]
  split <;> omega

/-- A step of a CPU that is not at `run` with the process needs no more calls of it. -/
theorem rest_cpuStep {cfg : Config} {m : Machine (Fin n)} (h : RoutineInv cfg m) (k : Fin n)
    {a : ℕ} (hk : (m.cpu k).point ≠ .exec a) : rest cfg (cpuStep cfg m k) a ≤ rest cfg m a := by
  refine rest_le ?_ fun hw => hw.cpuStep h k
  have hstep := congrFun (step_pc cfg m (.cpu k)) a
  dsimp only [step] at hstep
  rw [hstep]
  cases hb : executes m (.cpu k) with
  | none => rfl
  | some b =>
    obtain ⟨j, hj, hexec⟩ := holds_of_executes hb
    obtain rfl := Actor.cpu.inj hj
    have hne : a ≠ b := fun he => hk (he ▸ hexec)
    dsimp only
    rw [run_pc, if_neg fun hx => hne hx.1, Nat.add_zero]

/-- All calls, those made and those to come, are no more than the programs need. -/
def CallsInv (cfg : SlotConfig) (s : Clocked n) : Prop :=
  ∑ k, (s.runs k).length + ∑ a ∈ Finset.range cfg.numProcesses, rest cfg.toConfig s.threads a ≤
    ∑ a ∈ Finset.range cfg.numProcesses, max 1 (cfg.size a)

/-- No call has been made at the start. -/
theorem callsInv_boot (cfg : SlotConfig) : CallsInv cfg (clockBoot : Clocked n) := by
  have hnone : ∑ k, ((clockBoot : Clocked n).runs k).length = 0 :=
    Finset.sum_eq_zero fun _ _ => rfl
  unfold CallsInv
  rw [hnone, Nat.zero_add]
  refine Finset.sum_le_sum fun a _ => ?_
  have hpc : (clockBoot : Clocked n).threads.pc a = 0 := rfl
  unfold rest
  rw [hpc, Nat.sub_zero]
  split
  · exact Nat.le_max_right _ _
  · exact le_refl _

/-- Steps without a call of `run` keep the calls to come. -/
theorem CallsInv.keep {cfg : SlotConfig} {s s' : Clocked n} (h : CallsInv cfg s)
    (hruns : s'.runs = s.runs)
    (hrest : ∀ a, rest cfg.toConfig s'.threads a ≤ rest cfg.toConfig s.threads a) :
    CallsInv cfg s' := by
  unfold CallsInv at h ⊢
  rw [hruns]
  have hsum := Finset.sum_le_sum fun a (_ : a ∈ Finset.range cfg.numProcesses) => hrest a
  omega

/-- The calls made, one more on CPU `k`. -/
theorem sum_runs_append (runs : Fin n → List ℕ) (k : Fin n) (t : ℕ) :
    ∑ j, (Function.update runs k (runs k ++ [t]) j).length = ∑ j, (runs j).length + 1 := by
  have hupdate : ∀ j, (Function.update runs k (runs k ++ [t]) j).length =
      Function.update (fun j => (runs j).length) k ((runs k).length + 1) j := by
    intro j
    by_cases hj : j = k
    · subst hj
      rw [Function.update_self, Function.update_self, List.length_append]
      rfl
    · rw [Function.update_of_ne hj, Function.update_of_ne hj]
  have hsum : ∑ j, Function.update (fun j => (runs j).length) k ((runs k).length + 1) j +
      (runs k).length = ∑ j, (runs j).length + ((runs k).length + 1) :=
    sum_update_add (fun j => (runs j).length) k ((runs k).length + 1)
  calc ∑ j, (Function.update runs k (runs k ++ [t]) j).length
      = ∑ j, Function.update (fun j => (runs j).length) k ((runs k).length + 1) j :=
        Finset.sum_congr rfl fun j _ => hupdate j
    _ = ∑ j, (runs j).length + 1 := by omega

/-- The loader leaves `pc`, what has finished and the CPUs as they are. -/
theorem loaderStep_kept (cfg : Config) (m : Machine (Fin n)) :
    (loaderStep cfg m).pc = m.pc ∧ (loaderStep cfg m).finishes = m.finishes ∧
      (loaderStep cfg m).cpu = m.cpu := by
  unfold loaderStep
  split <;> exact ⟨rfl, rfl, rfl⟩

/-- A call of `run` moves one call from those to come to those made. -/
theorem CallsInv.exec {cfg : SlotConfig} {s : Clocked n} (h : CallsInv cfg s)
    (hroutine : RoutineInv cfg.toConfig s.threads) {k : Fin n} {a : ℕ}
    (hk : (s.threads.cpu k).point = .exec a) :
    CallsInv cfg {s with
      threads := cpuStep cfg.toConfig s.threads k
      runs := Function.update s.runs k (s.runs k ++ [s.barrier.time])} := by
  have hmem : a ∈ Finset.range cfg.numProcesses :=
    Finset.mem_range.mpr (live_lt hroutine (hroutine.holds_live (k := k) (by rw [hk]; rfl)))
  have hone := rest_exec hroutine hk
  have hle : ∀ b ∈ Finset.range cfg.numProcesses,
      rest cfg.toConfig (cpuStep cfg.toConfig s.threads k) b ≤ rest cfg.toConfig s.threads b := by
    intro b _
    by_cases hb : b = a
    · subst hb
      omega
    · exact rest_cpuStep hroutine k fun hx => hb (Point.exec.inj (hk.symm.trans hx)).symm
  have hlt := Finset.sum_lt_sum hle ⟨a, hmem, by omega⟩
  unfold CallsInv at h ⊢
  dsimp only
  rw [sum_runs_append]
  omega

/-- Every step keeps the number of calls within the bound. -/
theorem callsInv_step {cfg : SlotConfig} {s s' : Clocked n} {t : Thread n} (h : CallsInv cfg s)
    (hroutine : RoutineInv cfg.toConfig s.threads) (hs : ClockStep cfg s t s') :
    CallsInv cfg s' := by
  unfold ClockStep at hs
  cases t with
  | cpu k =>
    dsimp only [clockStep] at hs
    unfold cpuSlotStep at hs
    split at hs
    · next p hp =>
      split_ifs at hs
      · obtain ⟨_, _, rfl⟩ := Option.map_eq_some_iff.mp hs
        exact h
      · obtain ⟨_, _, rfl⟩ := Option.map_eq_some_iff.mp hs
        exact h.keep rfl fun a => rest_cpuStep hroutine k fun hx => nomatch hp.symm.trans hx
    · obtain ⟨_, _, rfl⟩ := Option.map_eq_some_iff.mp hs
      exact h
    · next a hp =>
      cases hs
      exact h.exec hroutine hp
    · next hslot hstop hexec =>
      cases hs
      exact h.keep rfl fun a => rest_cpuStep hroutine k (hexec a)
  | loader =>
    refine h.keep (loaderSlotStep_runs hs) fun a => ?_
    obtain ht | ht := loaderSlotStep_threads hs
    · rw [ht]
    · obtain ⟨hpc, hfin, hcpu⟩ := loaderStep_kept cfg.toConfig s.threads
      rw [ht]
      refine rest_le (by rw [hpc]) fun hw => Or.inl ?_
      unfold Worked at hw ⊢
      rwa [hfin, hcpu]
  | timer =>
    obtain ⟨_, _, rfl⟩ := Option.map_eq_some_iff.mp hs
    exact h
  | main =>
    obtain ⟨_, _, rfl⟩ := Option.map_eq_some_iff.mp hs
    exact h

/-! ## The slots of one process -/

/-- Process `a` has been run in the current slot. -/
def RunNow (s : Clocked n) (a : ℕ) : Prop :=
  ∃ k, (s.threads.cpu k).point = .slot (some a) ∧ Passed s k

/-- What holds as long as process `a` has more to do, from slot `first` on: some CPU has been
busy in every slot that has ended, and `a` has been run in those in which some CPU was idle. -/
structure LagInv (first a : ℕ) (s : Clocked n) : Prop where
  /-- Some CPU was busy. -/
  busy : ∀ t, first < t → t < s.barrier.time → ∃ k, t ∈ s.runs k
  /-- The process has been run when some CPU was idle. -/
  idle : (idleSlots s.runs first s.barrier.time).card ≤ s.threads.pc a
  /-- The process has been run once more if it was run in the current slot. -/
  now : RunNow s a → (idleSlots s.runs first s.barrier.time).card + 1 ≤ s.threads.pc a

/-- No slot is idle or busy before the threads start. -/
theorem lagInv_boot (first a : ℕ) : LagInv first a (clockBoot : Clocked n) where
  busy _ _ ht := absurd ht (Nat.not_lt_zero _)
  idle := by
    have hnone : idleSlots (clockBoot : Clocked n).runs first (clockBoot : Clocked n).barrier.time =
        ∅ := idleSlots_eq_empty (Nat.zero_le _)
    rw [hnone, Finset.card_empty]
    exact Nat.zero_le _
  now := fun ⟨_, h, _⟩ => by cases h

/-- A step within a slot keeps the bound on the idle slots, if the process is run at most
once. -/
theorem LagInv.keep {first a : ℕ} {s s' : Clocked n} (h : LagInv first a s)
    (htime : s'.barrier.time = s.barrier.time)
    (hruns : ∀ t, t < s.barrier.time → ∀ k, t ∈ s'.runs k ↔ t ∈ s.runs k)
    (hpc : s.threads.pc a ≤ s'.threads.pc a)
    (hnow : RunNow s' a → RunNow s a ∨ s.threads.pc a < s'.threads.pc a) : LagInv first a s' := by
  have hslots : idleSlots s'.runs first s'.barrier.time =
      idleSlots s.runs first s.barrier.time := by
    rw [htime]
    exact idleSlots_congr hruns
  refine ⟨fun t hfirst ht => ?_, ?_, fun hx => ?_⟩
  · rw [htime] at ht
    obtain ⟨k, hk⟩ := h.busy t hfirst ht
    exact ⟨k, (hruns t ht k).mpr hk⟩
  · rw [hslots]
    exact h.idle.trans hpc
  · rw [hslots]
    obtain hx | hlt := hnow hx
    · exact (h.now hx).trans hpc
    · exact (Nat.succ_le_succ h.idle).trans hlt

/-- A step of a CPU changes neither the time nor another CPU and its device. -/
theorem cpuSlotStep_frame {cfg : SlotConfig} {s s' : Clocked n} {k : Fin n}
    (hs : cpuSlotStep cfg s k = some s') : s'.barrier.time = s.barrier.time ∧
      ∀ j ≠ k, s'.threads.cpu j = s.threads.cpu j ∧ Kept s.barrier s'.barrier j.castSucc := by
  have hcpus := fun j hj => cpuStep_of_ne cfg.toConfig s.threads (j := j) (k := k) hj
  have hne : ∀ j ≠ k, j.castSucc ≠ k.castSucc := fun j hj he => hj (Fin.castSucc_injective n he)
  unfold cpuSlotStep at hs
  split at hs
  · split_ifs at hs
    · obtain ⟨b, hb, rfl⟩ := Option.map_eq_some_iff.mp hs
      have hmoved := nextSlot_moved hb
      exact ⟨hmoved.time, fun j hj => ⟨rfl, hmoved.others _ (hne j hj)⟩⟩
    · obtain ⟨b, hb, rfl⟩ := Option.map_eq_some_iff.mp hs
      have hmoved := nextSlotWait_moved hb
      exact ⟨hmoved.time, fun j hj => ⟨hcpus j hj, hmoved.others _ (hne j hj)⟩⟩
  · obtain ⟨b, hb, rfl⟩ := Option.map_eq_some_iff.mp hs
    have hmoved := detachEvent_moved hb
    exact ⟨hmoved.time, fun j hj => ⟨rfl, hmoved.others _ (hne j hj)⟩⟩
  · cases hs
    exact ⟨rfl, fun j hj => ⟨hcpus j hj, rfl, rfl⟩⟩
  · cases hs
    exact ⟨rfl, fun j hj => ⟨hcpus j hj, rfl, rfl⟩⟩

/-- The loader leaves the CPUs alone and the time as it is. -/
theorem loaderSlotStep_frame {cfg : SlotConfig} {s s' : Clocked n}
    (hs : loaderSlotStep cfg s = some s') : s'.barrier.time = s.barrier.time ∧
      ∀ k, Kept s.barrier s'.barrier (Fin.castSucc k) := by
  unfold loaderSlotStep at hs
  split at hs
  · split_ifs at hs <;> cases hs <;> exact ⟨rfl, fun _ => ⟨rfl, rfl⟩⟩
  · split_ifs at hs
    · obtain ⟨b, hb, rfl⟩ := Option.map_eq_some_iff.mp hs
      have hmoved := nextSlot_moved hb
      exact ⟨hmoved.time, fun k => hmoved.others _ (castSucc_ne_ldEvent k)⟩
    · obtain ⟨b, hb, rfl⟩ := Option.map_eq_some_iff.mp hs
      have hmoved := nextSlotWait_moved hb
      exact ⟨hmoved.time, fun k => hmoved.others _ (castSucc_ne_ldEvent k)⟩
  · obtain ⟨b, hb, rfl⟩ := Option.map_eq_some_iff.mp hs
    have hmoved := detachEvent_moved hb
    exact ⟨hmoved.time, fun k => hmoved.others _ (castSucc_ne_ldEvent k)⟩
  · cases hs

/-- A CPU step runs a process only behind `exec`, and records nothing of earlier slots. -/
theorem cpuSlotStep_now {cfg : SlotConfig} {s s' : Clocked n} {k : Fin n}
    (hs : cpuSlotStep cfg s k = some s') :
    (∀ t, t < s.barrier.time → ∀ j, t ∈ s'.runs j ↔ t ∈ s.runs j) ∧
      ∀ a, RunNow s' a → RunNow s a ∨
        (s.threads.cpu k).point = .exec a ∧ s'.threads = cpuStep cfg.toConfig s.threads k := by
  obtain ⟨htime, hothers⟩ := cpuSlotStep_frame hs
  have hback : ∀ a, ((s'.threads.cpu k).point = .slot (some a) → Passed s' k →
      RunNow s a ∨ (s.threads.cpu k).point = .exec a ∧
        s'.threads = cpuStep cfg.toConfig s.threads k) → RunNow s' a → RunNow s a ∨
        (s.threads.cpu k).point = .exec a ∧ s'.threads = cpuStep cfg.toConfig s.threads k := by
    rintro a hk ⟨j, hj, hpass⟩
    by_cases hjk : j = k
    · subst hjk
      exact hk hj hpass
    · obtain ⟨hcpu, hkept⟩ := hothers j hjk
      exact Or.inl ⟨j, hcpu ▸ hj, hpass.of_kept hcpu htime hkept⟩
  unfold cpuSlotStep at hs
  split at hs
  · next p hp =>
    split_ifs at hs
    · obtain ⟨b, hb, rfl⟩ := Option.map_eq_some_iff.mp hs
      exact ⟨fun _ _ _ => Iff.rfl, fun a => hback a fun hslot hpass =>
        Or.inl ⟨k, hslot, hpass.of_nextSlot hp (nextSlot_moved hb)⟩⟩
    · obtain ⟨b, hb, rfl⟩ := Option.map_eq_some_iff.mp hs
      exact ⟨fun _ _ _ => Iff.rfl, fun a => hback a fun hslot _ =>
        Or.inr ⟨exec_of_slot hslot, rfl⟩⟩
  · next hp =>
    obtain ⟨b, hb, rfl⟩ := Option.map_eq_some_iff.mp hs
    exact ⟨fun _ _ _ => Iff.rfl, fun a => hback a fun hslot _ => nomatch hp.symm.trans hslot⟩
  · next b hp =>
    cases hs
    refine ⟨fun t ht j => ?_, fun a => hback a fun hslot _ => Or.inr ⟨exec_of_slot hslot, rfl⟩⟩
    by_cases hjk : j = k
    · subst hjk
      dsimp only
      rw [Function.update_self, List.mem_append, List.mem_singleton]
      exact or_iff_left ht.ne
    · dsimp only
      rw [Function.update_of_ne hjk]
  · cases hs
    exact ⟨fun _ _ _ => Iff.rfl, fun a => hback a fun hslot _ =>
      Or.inr ⟨exec_of_slot hslot, rfl⟩⟩

/-- A step of a CPU keeps the account of idle slots. -/
theorem LagInv.cpu {cfg : SlotConfig} {first a : ℕ} {s s' : Clocked n} {k : Fin n}
    (h : LagInv first a s) (hpc : s.threads.pc a < cfg.size a)
    (hs : cpuSlotStep cfg s k = some s') : LagInv first a s' := by
  obtain ⟨hruns, hnow⟩ := cpuSlotStep_now hs
  have hstep : (cpuStep cfg.toConfig s.threads k).pc a = s.threads.pc a +
      if (s.threads.cpu k).point = .exec a then 1 else 0 := by
    have hpcs := congrFun (step_pc cfg.toConfig s.threads (.cpu k)) a
    dsimp only [step] at hpcs
    rw [hpcs]
    cases hx : executes s.threads (.cpu k) with
    | none =>
      have hne : (s.threads.cpu k).point ≠ .exec a := fun hp => by
        dsimp only [executes] at hx
        rw [hp] at hx
        cases hx
      rw [if_neg hne, Nat.add_zero]
    | some c =>
      obtain ⟨j, hj, hp⟩ := holds_of_executes hx
      obtain rfl := Actor.cpu.inj hj
      dsimp only
      rw [run_pc, hp]
      by_cases hc : a = c
      · subst hc
        rw [if_pos ⟨rfl, hpc⟩, if_pos rfl]
      · rw [if_neg fun hx => hc hx.1, if_neg fun hx => hc (Point.exec.inj hx).symm]
  refine h.keep (cpuSlotStep_frame hs).1 hruns ?_ fun hx => ?_
  · obtain ht | ht := cpuSlotStep_threads hs
    · rw [ht]
    · rw [ht, hstep]
      exact Nat.le_add_right _ _
  · refine (hnow a hx).imp_right fun ⟨hp, ht⟩ => ?_
    rw [ht, hstep, if_pos hp]
    exact Nat.lt_succ_self _

/-- A step of the loader keeps the account of idle slots. -/
theorem LagInv.loader {cfg : SlotConfig} {first a : ℕ} {s s' : Clocked n} (h : LagInv first a s)
    (hs : loaderSlotStep cfg s = some s') : LagInv first a s' := by
  have hthreads : s'.threads.pc = s.threads.pc ∧ s'.threads.cpu = s.threads.cpu := by
    obtain ht | ht := loaderSlotStep_threads hs
    · rw [ht]
      exact ⟨rfl, rfl⟩
    · obtain ⟨hpc, -, hcpu⟩ := loaderStep_kept cfg.toConfig s.threads
      rw [ht]
      exact ⟨hpc, hcpu⟩
  obtain ⟨htime, hkept⟩ := loaderSlotStep_frame hs
  refine h.keep htime (fun t _ k => ?_) (by rw [hthreads.1]) fun ⟨k, hk, hpass⟩ => Or.inl ?_
  · rw [loaderSlotStep_runs hs]
  · have hcpu := congrFun hthreads.2 k
    exact ⟨k, hcpu ▸ hk, hpass.of_kept hcpu htime (hkept k)⟩

/-- When a slot ends in which some CPU was idle, a process that has more to do is on a CPU. -/
theorem held_of_idle {cfg : SlotConfig} {first a : ℕ} {s : Clocked n} (hwork : WorkInv cfg s)
    (hcap : CapacityInv cfg.toConfig s.threads)
    (hfirst : ∀ i < cfg.numProcesses, arrival cfg i ≤ first) (ha : a < cfg.numProcesses)
    (hprio : (cfg.prio a).toNat < 140) (hpc : s.threads.pc a < cfg.size a) {fsh event : ℕ}
    (ht : s.barrier.timer = .tick fsh event) (hlt : first < s.barrier.time)
    (hidle : ∃ k, s.barrier.time ∉ s.runs k) :
    ∃ k, (s.threads.cpu k).point.holds = some a := by
  have hprocess := hcap.routine.process a
  have hlive : a ∈ live cfg.toConfig s.threads := by
    refine ⟨hwork.clock.loaded_of_arrival ha ((hfirst a ha).trans_lt hlt), hprio, ?_⟩
    by_contra hfin
    have hone : s.threads.finishes a = 1 := by
      have hle := hprocess.finishes_le
      omega
    have hend := hprocess.complete hone
    omega
  have hnow : addedNow s = 0 := by
    refine if_neg fun hx => ?_
    rw [hwork.clock.loader.added] at hx
    obtain ⟨i, hi, htime⟩ := List.mem_map.mp hx
    have hlast := hfirst i ((List.mem_range.mp hi).trans_le hcap.routine.loaded_le)
    omega
  have hready := hwork.ready_of_idle ht hidle
  rw [hnow] at hready
  have hempty := readyCount_eq_zero.mp (Nat.le_zero.mp hready) ⟨_, hprio⟩
  by_contra hnone
  have hmem := (hcap.accepted.placed.ready ⟨_, hprio⟩ a).mpr
    ⟨hlive, hnone, Set.notMem_empty a, rfl⟩
  change a ∈ (s.threads.sched.mlqReadyQueue ⟨_, hprio⟩).toList at hmem
  rw [hempty] at hmem
  cases hmem

/-- The end of a slot keeps the account of idle slots. -/
theorem LagInv.tick {cfg : SlotConfig} {first a : ℕ} {s : Clocked n} (h : LagInv first a s)
    (hn : 0 < n) (hwork : WorkInv cfg s) (hcap : CapacityInv cfg.toConfig s.threads)
    (hfirst : ∀ i < cfg.numProcesses, arrival cfg i ≤ first) (ha : a < cfg.numProcesses)
    (hprio : (cfg.prio a).toNat < 140) (hpc : s.threads.pc a < cfg.size a) {fsh event : ℕ}
    (ht : s.barrier.timer = .tick fsh event) {b : Barrier (n + 1)}
    (hkept : ∀ d, Kept s.barrier b d) (htime : b.time = s.barrier.time + 1) :
    LagInv first a {s with barrier := b} := by
  have hheld := held_of_idle hwork hcap hfirst ha hprio hpc ht
  refine ⟨fun t hlt hle => ?_, ?_, fun ⟨k, hk, hpass⟩ =>
    absurd hpass (not_passed_of_tick hwork.clock ht hkept htime hk)⟩
  · dsimp only at hle
    rw [htime] at hle
    obtain hle | rfl := Nat.lt_succ_iff_lt_or_eq.mp hle
    · exact h.busy t hlt hle
    · by_cases hidle : ∃ k, s.barrier.time ∉ s.runs k
      · obtain ⟨k, hk⟩ := hheld hlt hidle
        exact ⟨k, (hwork.ran_of_holds ht hk).2.2⟩
      · exact ⟨⟨0, hn⟩, not_not.mp (not_exists.mp hidle _)⟩
  · dsimp only
    rw [htime]
    refine (card_idleSlots_succ s.runs first s.barrier.time).trans ?_
    split
    · next hidle =>
      obtain ⟨k, hk⟩ := hheld hidle.1 hidle.2
      obtain ⟨hslot, hpass, -⟩ := hwork.ran_of_holds ht hk
      exact h.now ⟨k, hslot, hpass⟩
    · exact h.idle

/-! ## The bound -/

/-- What every step keeps with at most fifty processes that have all been added up to slot
`first`. -/
structure BoundInv (cfg : SlotConfig) (first a : ℕ) (s : Clocked n) : Prop where
  /-- No CPU is idle while a process waits. -/
  work : WorkInv cfg s
  /-- No process is lost. -/
  capacity : CapacityInv cfg.toConfig s.threads
  /-- No process takes more calls of `run` than it needs. -/
  calls : CallsInv cfg s
  /-- Process `a` has more to do, and this holds. -/
  lag : s.threads.pc a < cfg.size a → LagInv first a s

/-- No step takes an instruction back. -/
theorem pc_le_of_clockStep {cfg : SlotConfig} {s s' : Clocked n} {t : Thread n}
    (hs : ClockStep cfg s t s') (a : ℕ) : s.threads.pc a ≤ s'.threads.pc a := by
  obtain ht | ⟨actor, ht⟩ := threads_of_clockStep hs
  · rw [ht]
  · have hpc := congrFun (step_pc cfg.toConfig s.threads actor) a
    rw [show s'.threads = step cfg.toConfig s.threads actor from ht, hpc]
    cases executes s.threads actor with
    | none => exact le_refl _
    | some b =>
      dsimp only
      rw [run_pc]
      exact Nat.le_add_right _ _

/-- With at most fifty processes, all added up to slot `first`, every step keeps the bound
of process `a`. -/
theorem boundInv_step {cfg : SlotConfig} {first a : ℕ} (hn : 0 < n)
    (hprocesses : cfg.numProcesses ≤ maxQueueSize)
    (hfirst : ∀ i < cfg.numProcesses, arrival cfg i ≤ first) (ha : a < cfg.numProcesses)
    (hprio : (cfg.prio a).toNat < 140) {s s' : Clocked n} {t : Thread n}
    (h : BoundInv cfg first a s) (hs : ClockStep cfg s t s') : BoundInv cfg first a s' := by
  have hcapacity : CapacityInv cfg.toConfig s'.threads := by
    obtain ht | ⟨actor, ht⟩ := threads_of_clockStep hs
    · rw [ht]
      exact h.capacity
    · rw [show s'.threads = step cfg.toConfig s.threads actor from ht]
      exact capacityInv_step hprocesses h.capacity actor
  refine ⟨workInv_step h.work hs, hcapacity, callsInv_step h.calls h.capacity.routine hs,
    fun hpc' => ?_⟩
  have hpc := (pc_le_of_clockStep hs a).trans_lt hpc'
  have hlag := h.lag hpc
  unfold ClockStep at hs
  cases t with
  | cpu k => exact hlag.cpu hpc hs
  | loader => exact hlag.loader hs
  | timer =>
    obtain ⟨b, hb, rfl⟩ := Option.map_eq_some_iff.mp hs
    have hkept := (timerRoutine_kept hb).1
    obtain htime | ⟨fsh, event, ht, htime⟩ := timerRoutine_time hb
    · have hpassed : ∀ k, Passed {s with barrier := b} k → Passed s k := fun k =>
        .of_kept rfl htime (hkept k.castSucc)
      exact hlag.keep htime (fun _ _ _ => Iff.rfl) (le_refl _) fun ⟨k, hk, hpass⟩ =>
        Or.inl ⟨k, hk, hpassed k hpass⟩
    · exact hlag.tick hn h.work h.capacity hfirst ha hprio hpc ht hkept htime
  | main =>
    obtain ⟨b, hb, rfl⟩ := Option.map_eq_some_iff.mp hs
    obtain ⟨_, ⟨⟩⟩ := Option.ite_none_right_eq_some.mp hb
    exact hlag.keep rfl (fun _ _ _ => Iff.rfl) (le_refl _) Or.inl

/-- The invariant holds in every reachable state. -/
theorem boundInv_of_reachable {cfg : SlotConfig} {first a : ℕ} (hn : 0 < n)
    (hprocesses : cfg.numProcesses ≤ maxQueueSize)
    (hfirst : ∀ i < cfg.numProcesses, arrival cfg i ≤ first) (ha : a < cfg.numProcesses)
    (hprio : (cfg.prio a).toNat < 140) {s : Clocked n}
    (h : Reachable (fun s => s = clockBoot) (ClockStep cfg) s) : BoundInv cfg first a s := by
  refine h.invariant (BoundInv cfg first a) ?_ fun _ _ _ hi hs =>
    boundInv_step hn hprocesses hfirst ha hprio hi hs
  rintro s rfl
  exact ⟨workInv_boot cfg, capacityInv_boot cfg.toConfig, callsInv_boot cfg,
    fun _ => lagInv_boot first a⟩

/-- As long as a process has more to do, the programs have calls of `run` left. -/
theorem CallsInv.sum_lt {cfg : SlotConfig} {s : Clocked n} (h : CallsInv cfg s) {a : ℕ}
    (ha : a < cfg.numProcesses) (hpc : s.threads.pc a < cfg.size a) :
    ∑ k, (s.runs k).length < ∑ b ∈ Finset.range cfg.numProcesses, max 1 (cfg.size b) := by
  have hone : 1 ≤ rest cfg.toConfig s.threads a := by
    unfold rest
    split <;> omega
  have hle := Finset.single_le_sum (fun b _ => Nat.zero_le (rest cfg.toConfig s.threads b))
    (Finset.mem_range.mpr ha)
  unfold CallsInv at h
  omega

/-- With at most fifty processes, and whatever the threads do: let all processes have been
added by slot `first`. As soon as `n` CPUs have had, in the slots behind it, the time for all
programs and for `n - 1` times the program of one process, that process has executed its last
instruction. Neither the time slice nor the priorities matter. -/
theorem completion_bound {cfg : SlotConfig} {first a : ℕ}
    (hprocesses : cfg.numProcesses ≤ maxQueueSize)
    (hfirst : ∀ i < cfg.numProcesses, arrival cfg i ≤ first) (ha : a < cfg.numProcesses)
    (hprio : (cfg.prio a).toNat < 140) {s : Clocked n}
    (h : Reachable (fun s => s = clockBoot) (ClockStep cfg) s)
    (hlong : ∑ b ∈ Finset.range cfg.numProcesses, max 1 (cfg.size b) + (n - 1) * cfg.size a ≤
      n * (s.barrier.time - first - 1)) : s.threads.pc a = cfg.size a := by
  have hn : 0 < n := by
    rcases Nat.eq_zero_or_pos n with rfl | hn
    · have hle := Finset.single_le_sum (fun b _ => Nat.zero_le (max 1 (cfg.size b)))
        (Finset.mem_range.mpr ha)
      omega
    · exact hn
  have hinv := boundInv_of_reachable hn hprocesses hfirst ha hprio h
  have hle := (hinv.capacity.routine.process a).pc_le
  by_contra hne
  have hpc : s.threads.pc a < cfg.size a := lt_of_le_of_ne hle hne
  have hlag := hinv.lag hpc
  have hbound := card_mul_period_lt hlag.busy (hinv.calls.sum_lt ha hpc) hlag.idle hpc.le
  rw [Fintype.card_fin] at hbound
  exact absurd hlong (Nat.not_le.mpr hbound)

/-! ## One process on two CPUs -/

/-- The process is there from the start. -/
def atOnce : SlotConfig := {oneProcess with startTime := fun _ => 0}

/-- CPU 0 executes one instruction in each of two slots and detaches in the third. -/
def threeSlots : List (Thread 2) :=
  let zero (i : ℕ) : List (Thread 2) := List.replicate i (.cpu ⟨0, Nat.two_pos⟩)
  let one (i : ℕ) : List (Thread 2) := List.replicate i (.cpu ⟨1, Nat.one_lt_two⟩)
  let slot : List (Thread 2) := List.replicate 10 .timer
  List.replicate 2 .loader ++ zero 4 ++ one 2 ++ slot ++
    List.replicate 3 .loader ++ zero 6 ++ one 3 ++ slot ++ zero 6 ++ one 3 ++ slot

/-- After three slots the process has executed both of its instructions. -/
theorem completion_bound_atOnce : ∃ s : Clocked 2, s.barrier.time = 3 ∧ s.threads.pc 0 = 2 := by
  have hnext : ∀ (s : Clocked 2) t s', clockStep atOnce s t = some s' →
      ClockStep atOnce s t s' := fun _ _ _ h => h
  obtain ⟨s, hrun, htime⟩ := exists_run_of_map (fun (_ : Clocked 2) _ => True) hnext clockBoot
    threeSlots (fun s => s.barrier.time) 3 (by decide +kernel)
  have hone : ∀ i < 1, arrival atOnce i ≤ 0 := fun i hi => by
    obtain rfl := Nat.lt_one_iff.mp hi
    exact le_refl _
  exact ⟨s, htime, completion_bound (n := 2) (by decide) hone Nat.one_pos (by decide)
    ⟨clockBoot, threeSlots, rfl, hrun.unguard⟩ (by rw [htime]; decide)⟩

end OsSim.SlotBound
