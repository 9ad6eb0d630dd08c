import OsSim.CpuSlice
import OsSim.SchedulerDispatch
import OsSim.SlotClock

/-!
# No CPU is idle while a process waits

What the scheduler promises for one call of `get_proc`, over whole time slots: a CPU that
has asked in vain stays idle until the slot ends, and by then the other CPUs have taken
back whatever they have put into the ready queues.
-/

namespace OsSim.SlotWork

open RunSteps SchedulerQueue SchedulerMlq SchedulerStarvation SchedulerDispatch CpuRoutine
open CpuExecution CpuSlice TimerBarrier SlotClock

variable {n : ℕ}

/-! ## Ready processes -/

/-- How many processes are in the ready queues. -/
def readyCount (s : Sched ℕ) : ℕ := ∑ i, (s.mlqReadyQueue i).toList.length

/-- A sum with one summand changed. -/
theorem sum_update_add {ι : Type*} [Fintype ι] [DecidableEq ι] (f : ι → ℕ) (i : ι) (x : ℕ) :
    ∑ j, Function.update f i x j + f i = ∑ j, f j + x := by
  rw [Finset.sum_update_of_mem (Finset.mem_univ i), ← Finset.erase_eq,
    ← Finset.add_sum_erase Finset.univ f (Finset.mem_univ i)]
  omega

/-- The processes that are ready are counted queue by queue. -/
theorem readyCount_update (s s' : Sched ℕ) (i : Fin 140) (q : Queue ℕ)
    (h : s'.mlqReadyQueue = Function.update s.mlqReadyQueue i q) :
    readyCount s' + (s.mlqReadyQueue i).toList.length = readyCount s + q.toList.length := by
  have hlength : (fun j => (s'.mlqReadyQueue j).toList.length) =
      Function.update (fun j => (s.mlqReadyQueue j).toList.length) i q.toList.length := by
    funext j
    rw [h]
    by_cases hj : j = i
    · rw [hj, Function.update_self, Function.update_self]
    · rw [Function.update_of_ne hj, Function.update_of_ne hj]
  unfold readyCount
  rw [hlength]
  exact sum_update_add (fun j => (s.mlqReadyQueue j).toList.length) i q.toList.length

/-- No process is ready if and only if all queues are empty. -/
theorem readyCount_eq_zero {s : Sched ℕ} :
    readyCount s = 0 ↔ ∀ i, (s.mlqReadyQueue i).toList = [] := by
  unfold readyCount
  rw [Finset.sum_eq_zero_iff]
  exact ⟨fun h i => List.length_eq_zero_iff.mp (h i (Finset.mem_univ i)),
    fun h i _ => List.length_eq_zero_iff.mpr (h i)⟩

/-- Insertion adds one process at most. -/
theorem readyCount_enqueueReady_le (prio : ℕ → BitVec 32) (s : Sched ℕ) (a : ℕ) :
    readyCount (enqueueReady prio s a) ≤ readyCount s + 1 := by
  by_cases hlt : (prio a).toNat < 140
  · have hspec := (enqueueReady_spec prio s (i := ⟨_, hlt⟩) rfl).2
    have hcount := readyCount_update _ _ _ _ hspec
    have henq := toList_enqueue (s.mlqReadyQueue ⟨_, hlt⟩) a
    split at henq
    · rw [henq, List.length_append, List.length_singleton] at hcount
      omega
    · rw [henq] at hcount
      omega
  · unfold enqueueReady
    rw [dif_neg hlt]
    exact Nat.le_succ _

@[simp] theorem readyCount_finishProc (pid : ℕ → BitVec 32) (s : Sched ℕ) (a : ℕ) :
    readyCount (finishProc pid s a) = readyCount s := by
  unfold readyCount finishProc
  rfl

/-- Putting a process back makes at most one more ready. -/
theorem readyCount_putMlqProc_le (pid prio : ℕ → BitVec 32) (s : Sched ℕ) (a : ℕ) :
    readyCount (putMlqProc pid prio s a) ≤ readyCount s + 1 := by
  have hle := readyCount_enqueueReady_le prio (finishProc pid s a) a
  rw [readyCount_finishProc] at hle
  exact hle

/-- `get_proc` takes one process, or there is none. -/
theorem readyCount_getMlqProc {s : Sched ℕ} (hs : ∀ i, s.currentSlot i < slot i) :
    ((getMlqProc s).1 = none ∧ readyCount (getMlqProc s).2 = 0) ∨
      ∃ a, (getMlqProc s).1 = some a ∧ readyCount (getMlqProc s).2 + 1 = readyCount s := by
  obtain ⟨hnone, hqueues, hempty⟩ | ⟨a, p, hsome, -, hd⟩ := getMlqProc_first hs
  · refine Or.inl ⟨hnone, readyCount_eq_zero.mpr fun i => ?_⟩
    rw [hqueues]
    exact hempty i
  · refine Or.inr ⟨a, hsome, ?_⟩
    have hupdate : (getMlqProc s).2.mlqReadyQueue =
        Function.update s.mlqReadyQueue p ((getMlqProc s).2.mlqReadyQueue p) := by
      funext j
      by_cases hj : j = p
      · rw [hj, Function.update_self]
      · rw [Function.update_of_ne hj, hd.others j hj]
    have hcount := readyCount_update s _ p _ hupdate
    rw [hd.head, List.length_cons] at hcount
    omega

/-! ## A step of a CPU -/

/-- The CPU has put a process back and has still to ask for one. -/
def putting : Point → ℕ
  | .putBack _ => 1
  | _ => 0

/-- The CPU has asked in vain. -/
def emptyHanded : Point → Bool
  | .test none => true
  | .slot none => true
  | .stopped => true
  | _ => false

theorem putting_le (p : Point) : putting p ≤ 1 := by
  unfold putting
  split
  · exact le_refl _
  · exact Nat.zero_le _

/-- How a step of CPU `k` changes the number of ready processes. -/
structure ReadyStep (m m' : Machine (Fin n)) (k : Fin n) : Prop where
  /-- No queue has used up its slots. -/
  slots : ∀ i, m'.sched.currentSlot i < slot i
  /-- A process comes only from a CPU that will ask for one, and one that asks takes one. -/
  count : readyCount m'.sched = 0 ∨ readyCount m'.sched + putting (m.cpu k).point ≤
    readyCount m.sched + putting (m'.cpu k).point
  /-- A CPU asks in vain only when no process is ready. -/
  inVain : emptyHanded (m'.cpu k).point = true →
    emptyHanded (m.cpu k).point = true ∨ readyCount m'.sched = 0

/-- A step that puts nothing into a queue and takes nothing. -/
theorem ReadyStep.quiet {m m' : Machine (Fin n)} {k : Fin n} {c : Cpu}
    (hs : ∀ i, m.sched.currentSlot i < slot i) (hslots : m'.sched.currentSlot = m.sched.currentSlot)
    (hqueues : m'.sched.mlqReadyQueue = m.sched.mlqReadyQueue)
    (hput : putting (m.cpu k).point = 0)
    (hold : emptyHanded (m.cpu k).point = true ∨ emptyHanded c.point = false) :
    ReadyStep m (m'.setCpu k c) k where
  slots i := by
    change m'.sched.currentSlot i < slot i
    rw [hslots]
    exact hs i
  count := by
    refine Or.inr ?_
    rw [hput]
    unfold readyCount
    change ∑ i, (m'.sched.mlqReadyQueue i).toList.length + 0 ≤ _
    rw [hqueues]
    omega
  inVain h := by
    rw [setCpu_self] at h
    exact Or.inl (hold.resolve_right (by rw [h]; exact Bool.noConfusion))

/-- A step that asks for a process. -/
theorem ReadyStep.get {m : Machine (Fin n)} {k : Fin n} {next : Option ℕ → Cpu}
    (hs : ∀ i, m.sched.currentSlot i < slot i)
    (hnext : ∀ a, emptyHanded (next (some a)).point = false) :
    ReadyStep m (m.getProc k next) k where
  slots := scan_slots _ _ hs
  count := by
    change readyCount (getMlqProc m.sched).2 = 0 ∨
      readyCount (getMlqProc m.sched).2 + putting (m.cpu k).point ≤ _
    have hput := putting_le (m.cpu k).point
    obtain ⟨-, hzero⟩ | ⟨a, -, hone⟩ := readyCount_getMlqProc hs
    · exact Or.inl hzero
    · exact Or.inr (by omega)
  inVain h := by
    obtain ⟨-, hzero⟩ | ⟨a, hsome, -⟩ := readyCount_getMlqProc hs
    · exact Or.inr hzero
    · unfold Machine.getProc at h
      rw [setCpu_self, hsome, hnext a] at h
      cases h

/-- Every step of a CPU changes the ready queues as listed, or puts a process back. -/
theorem cpuStep_ready (cfg : Config) {m : Machine (Fin n)}
    (hs : ∀ i, m.sched.currentSlot i < slot i) (k : Fin n) : ReadyStep m (cpuStep cfg m k) k := by
  have hpoint : ∀ {p : Point} {t : ℤ}, m.cpu k = ⟨p, t⟩ → (m.cpu k).point = p :=
    fun h => by rw [h]
  unfold cpuStep
  split
  · exact .get hs fun _ => rfl
  · next a t hk =>
    have hp := hpoint hk
    split
    · exact .quiet hs rfl rfl (by rw [hp]; rfl) (Or.inr rfl)
    · split
      · refine ⟨fun i => ?_, Or.inr ?_, fun h => ?_⟩
        · have hcounters : (putMlqProc pidOf cfg.prio m.sched a).currentSlot =
              m.sched.currentSlot := (enqueueReady_counters _ _).1
          change (putMlqProc pidOf cfg.prio m.sched a).currentSlot i < slot i
          rw [hcounters]
          exact hs i
        · have htop : putting (.top (some a)) = 0 := rfl
          rw [setCpu_self, hp, htop, Nat.add_zero]
          exact readyCount_putMlqProc_le pidOf cfg.prio m.sched a
        · rw [setCpu_self] at h
          cases h
      · exact .quiet hs rfl rfl (by rw [hp]; rfl) (Or.inr rfl)
  · next a t hk => exact .quiet hs rfl rfl (by rw [hpoint hk]; rfl) (Or.inr rfl)
  · exact .get hs fun _ => rfl
  · exact .get hs fun _ => rfl
  · next t hk =>
    exact .quiet hs rfl rfl (by rw [hpoint hk]; rfl) (Or.inl (by rw [hpoint hk]; rfl))
  · next a t hk => exact .quiet hs rfl rfl (by rw [hpoint hk]; rfl) (Or.inr rfl)
  · next a t hk =>
    refine .quiet hs ?_ ?_ (by rw [hpoint hk]; rfl) (Or.inr rfl) <;> rw [run_sched]
  · next p t hk => exact .quiet hs rfl rfl (by rw [hpoint hk]; rfl) (Or.inr rfl)
  · next t hk =>
    exact ⟨hs, Or.inr (le_refl _), fun h => Or.inl h⟩

/-! ## The invariant -/

/-- CPU `k` is through with the current slot. -/
def Passed (s : Clocked n) (k : Fin n) : Prop :=
  s.barrier.time < slotNow (inSlot (s.threads.cpu k).point) (s.barrier.device k.castSucc)
    (s.barrier.begun k.castSucc)

/-- CPU `k` is not through with the slot before it has moved. -/
theorem Passed.of_kept {s s' : Clocked n} {k : Fin n}
    (hcpu : s'.threads.cpu k = s.threads.cpu k) (htime : s'.barrier.time = s.barrier.time)
    (hkept : Kept s.barrier s'.barrier k.castSucc) (h : Passed s' k) : Passed s k := by
  unfold Passed at h ⊢
  rwa [hcpu, htime, hkept.1, hkept.2] at h

/-- A CPU that has begun `next_slot` is through with no slot that it was not through with
before. -/
theorem Passed.of_nextSlot {s : Clocked n} {b : Barrier (n + 1)} {k : Fin n} {p : Option ℕ}
    (hp : (s.threads.cpu k).point = .slot p)
    (hmoved : Moved s.barrier b k.castSucc .working .waiting 1)
    (h : Passed {s with barrier := b} k) : Passed s k := by
  unfold Passed slotNow at h ⊢
  dsimp only at h
  rw [hmoved.after, hmoved.begun, hmoved.time, if_neg (by simp)] at h
  rw [hmoved.before, hp, if_pos ⟨rfl, rfl⟩]
  exact h

/-- CPU `k` does nothing in the current slot. -/
def Missed (s : Clocked n) (k : Fin n) : Prop :=
  emptyHanded (s.threads.cpu k).point = true ∧
    ((s.threads.cpu k).point = .slot none → Passed s k)

/-- How many processes have been put back by CPUs that have still to ask for one. -/
def puttingCount (m : Machine (Fin n)) : ℕ := ∑ k, putting (m.cpu k).point

/-- How many processes have been added in the current slot. -/
def addedNow (s : Clocked n) : ℕ := if s.barrier.time ∈ s.added then 1 else 0

/-- What every step of the system keeps about idle CPUs and ready processes. -/
structure WorkInv (cfg : SlotConfig) (s : Clocked n) : Prop where
  /-- The clock. -/
  clock : ClockInv cfg s
  /-- No queue has used up its slots. -/
  slots : ∀ i, s.threads.sched.currentSlot i < slot i
  /-- A CPU with a process has called `run` once it is through with the slot. -/
  ran : ∀ k a, (s.threads.cpu k).point = .slot (some a) → Passed s k → s.barrier.time ∈ s.runs k
  /-- When a CPU does nothing, the ready processes are those on their way back to a CPU and the
  one that has just been added. -/
  missed : (∃ k, Missed s k) →
    readyCount s.threads.sched ≤ puttingCount s.threads + addedNow s
  /-- Processes have been added in the past. -/
  added : ∀ t ∈ s.added, t ≤ s.barrier.time
  /-- The loader leaves in a later slot. -/
  late : s.loader = .leave ∨ s.loader = .ended → ∀ t ∈ s.added, t < s.barrier.time
  /-- `done` is set when the loader leaves. -/
  done : s.threads.done = true → s.loader = .leave ∨ s.loader = .ended
  /-- A CPU stops only once `done` is set. -/
  stopped : ∀ k, (s.threads.cpu k).point = .stopped → s.threads.done = true

/-- The invariant of idle CPUs and ready processes holds before the threads start. -/
theorem workInv_boot (cfg : SlotConfig) : WorkInv cfg (clockBoot : Clocked n) where
  clock := clockInv_boot cfg
  slots i := slot_pos i
  ran _ _ h := by cases h
  missed := fun ⟨_, h, _⟩ => by cases h
  added _ h := by cases h
  late h := by rcases h with h | h <;> cases h
  done h := by cases h
  stopped _ h := by cases h

/-- The sum when one CPU has moved. -/
theorem puttingCount_of_ne {m m' : Machine (Fin n)} {k : Fin n}
    (h : ∀ j ≠ k, m'.cpu j = m.cpu j) :
    puttingCount m' + putting (m.cpu k).point = puttingCount m + putting (m'.cpu k).point := by
  have hupdate : (fun j => putting (m'.cpu j).point) =
      Function.update (fun j => putting (m.cpu j).point) k (putting (m'.cpu k).point) := by
    funext j
    by_cases hj : j = k
    · rw [hj, Function.update_self]
    · rw [Function.update_of_ne hj, h j hj]
  unfold puttingCount
  rw [hupdate]
  exact sum_update_add (fun j => putting (m.cpu j).point) k _

/-- A step of CPU `k` in which its process comes and goes as in `ReadyStep`. -/
theorem WorkInv.ofCpu {cfg : SlotConfig} {s s' : Clocked n} {k : Fin n} (h : WorkInv cfg s)
    (hclock : ClockInv cfg s') (hready : ReadyStep s.threads s'.threads k)
    (htime : s'.barrier.time = s.barrier.time)
    (hdevices : ∀ e ≠ k.castSucc, Kept s.barrier s'.barrier e)
    (hcpus : ∀ j ≠ k, s'.threads.cpu j = s.threads.cpu j)
    (hruns : ∀ j ≠ k, s'.runs j = s.runs j)
    (hdone : s'.threads.done = s.threads.done) (hloader : s'.loader = s.loader)
    (hadded : s'.added = s.added)
    (hmissed : Missed s' k → Missed s k ∨ readyCount s'.threads.sched = 0)
    (hran : ∀ a, (s'.threads.cpu k).point = .slot (some a) → Passed s' k →
      s'.barrier.time ∈ s'.runs k)
    (hstop : (s'.threads.cpu k).point = .stopped → s.threads.done = true) : WorkInv cfg s' := by
  have hpassed : ∀ j ≠ k, Passed s' j → Passed s j := fun j hj =>
    .of_kept (hcpus j hj) htime (hdevices j.castSucc fun he => hj (Fin.castSucc_injective n he))
  refine ⟨hclock, hready.slots, fun j a hj hp => ?_, fun hm => ?_, ?_, ?_, ?_, fun j hj => ?_⟩
  · by_cases hjk : j = k
    · subst hjk
      exact hran a hj hp
    · rw [htime, hruns j hjk]
      rw [hcpus j hjk] at hj
      exact h.ran j a hj (hpassed j hjk hp)
  · have hnow : addedNow s' = addedNow s := by
      unfold addedNow
      rw [htime, hadded]
    have hor : (∃ j, Missed s j) ∨ readyCount s'.threads.sched = 0 := by
      obtain ⟨j, hj⟩ := hm
      by_cases hjk : j = k
      · subst hjk
        exact (hmissed hj).imp_left fun hj => ⟨j, hj⟩
      · obtain ⟨hempty, hslot⟩ := hj
        rw [hcpus j hjk] at hempty hslot
        exact Or.inl ⟨j, hempty, fun hp => hpassed j hjk (hslot hp)⟩
    have hputting := puttingCount_of_ne hcpus
    obtain hmiss | hzero := hor
    · have hle := h.missed hmiss
      obtain hzero | hcount := hready.count
      · rw [hzero]
        exact Nat.zero_le _
      · omega
    · rw [hzero]
      exact Nat.zero_le _
  · rw [hadded, htime]
    exact h.added
  · rw [hloader, hadded, htime]
    exact h.late
  · rw [hdone, hloader]
    exact h.done
  · rw [hdone]
    by_cases hjk : j = k
    · subst hjk
      exact hstop hj
    · rw [hcpus j hjk] at hj
      exact h.stopped j hj

/-! ## Every step keeps it -/

/-- Only behind `run` a CPU is in `next_slot` with its process. -/
theorem exec_of_slot {cfg : Config} {m : Machine (Fin n)} {k : Fin n} {a : ℕ}
    (h : ((cpuStep cfg m k).cpu k).point = .slot (some a)) : (m.cpu k).point = .exec a := by
  rw [cpuStep_cpu] at h
  unfold nextCpu at h
  split at h
  · split at h <;> cases h
  · split_ifs at h
  · cases h
  · cases h
  · cases h
  · split_ifs at h; cases h
  · cases h
  · next b t hk =>
    cases h
    rw [hk]
  · cases h
  · cases h

/-- A CPU stops when `done` is set. -/
theorem done_of_stopped {cfg : Config} {m : Machine (Fin n)} {k : Fin n}
    (h : ((cpuStep cfg m k).cpu k).point = .stopped) :
    m.done = true ∨ (m.cpu k).point = .stopped := by
  rw [cpuStep_cpu] at h
  unfold nextCpu at h
  split at h
  · split at h <;> cases h
  · split_ifs at h
  · cases h
  · cases h
  · cases h
  · split_ifs at h with hdone
    exact Or.inl hdone
  · cases h
  · cases h
  · cases h
  · next t hk =>
    rw [hk]
    exact Or.inr rfl

/-- A CPU step keeps the invariant. -/
theorem cpuSlotStep_work {cfg : SlotConfig} {s s' : Clocked n} {k : Fin n} (h : WorkInv cfg s)
    (hs : cpuSlotStep cfg s k = some s') : WorkInv cfg s' := by
  have hclock := cpuSlotStep_inv h.clock hs
  have hcpus := fun j hj => cpuStep_of_ne cfg.toConfig s.threads (j := j) (k := k) hj
  have hdone := (cpuStep_effect cfg.toConfig s.threads k).loader.2
  have hready := cpuStep_ready cfg.toConfig h.slots k
  have hstay : ReadyStep s.threads s.threads k := ⟨h.slots, Or.inr (le_refl _), Or.inl⟩
  unfold cpuSlotStep at hs
  split at hs
  · next p hp =>
    split_ifs at hs with hdev
    · -- the device has begun the call that the CPU was in
      obtain ⟨b, hb, rfl⟩ := Option.map_eq_some_iff.mp hs
      have hmoved := nextSlot_moved hb
      have hpassed : Passed {s with barrier := b} k → Passed s k := .of_nextSlot hp hmoved
      refine h.ofCpu hclock hstay hmoved.time hmoved.others (fun _ _ => rfl) (fun _ _ => rfl)
        rfl rfl rfl (fun hm => Or.inl ⟨hm.1, fun hx => hpassed (hm.2 hx)⟩) (fun a ha hpass => ?_)
        fun hx => h.stopped k hx
      dsimp only
      rw [hmoved.time]
      exact h.ran k a ha (hpassed hpass)
    · obtain ⟨b, hb, rfl⟩ := Option.map_eq_some_iff.mp hs
      have hmoved := nextSlotWait_moved hb
      have htop := cpuStep_slot cfg.toConfig hp
      refine h.ofCpu hclock hready hmoved.time hmoved.others hcpus (fun _ _ => rfl) hdone rfl
        rfl (fun hm => ?_) (fun a ha => ?_) fun hx => ?_
      · have hempty := hm.1
        dsimp only at hempty
        rw [htop] at hempty
        cases hempty
      · cases htop.symm.trans ha
      · cases htop.symm.trans hx
  · next hp =>
    obtain ⟨b, hb, rfl⟩ := Option.map_eq_some_iff.mp hs
    have hmoved := detachEvent_moved hb
    refine h.ofCpu hclock hstay hmoved.time hmoved.others (fun _ _ => rfl) (fun _ _ => rfl)
      rfl rfl rfl (fun hm => Or.inl ⟨hm.1, fun hx => ?_⟩) (fun a ha => ?_)
      fun hx => h.stopped k hx
    · cases hp.symm.trans hx
    · cases hp.symm.trans ha
  · next a hp =>
    cases hs
    have hslot := cpuStep_exec cfg.toConfig hp
    refine h.ofCpu hclock hready rfl (fun _ _ => ⟨rfl, rfl⟩) hcpus
      (fun j hj => Function.update_of_ne hj _ _) hdone rfl rfl (fun hm => ?_) (fun _ _ _ => ?_)
      fun hx => ?_
    · exact (hready.inVain hm.1).imp_left fun hempty =>
        ⟨hempty, fun hx => nomatch hp.symm.trans hx⟩
    · dsimp only
      rw [Function.update_self]
      exact List.mem_append_right _ (List.mem_singleton_self _)
    · dsimp only at hx
      rw [hx] at hslot
      cases hslot
  · next hslot hstop hexec =>
    cases hs
    refine h.ofCpu hclock hready rfl (fun _ _ => ⟨rfl, rfl⟩) hcpus (fun _ _ => rfl) hdone rfl
      rfl (fun hm => ?_) (fun a ha => absurd (exec_of_slot ha) (hexec a)) fun hx =>
        (done_of_stopped hx).resolve_right hstop
    exact (hready.inVain hm.1).imp_left fun hempty => ⟨hempty, fun hx => absurd hx (hslot none)⟩

/-- A step of the loader, which moves no CPU. -/
theorem WorkInv.ofLoader {cfg : SlotConfig} {s s' : Clocked n} (h : WorkInv cfg s)
    (hclock : ClockInv cfg s') (htime : s'.barrier.time = s.barrier.time)
    (hdevices : ∀ e ≠ ldEvent, Kept s.barrier s'.barrier e)
    (hcpus : s'.threads.cpu = s.threads.cpu) (hruns : s'.runs = s.runs)
    (hslots : s'.threads.sched.currentSlot = s.threads.sched.currentSlot)
    (hready : readyCount s'.threads.sched + addedNow s ≤
      readyCount s.threads.sched + addedNow s')
    (hadded : ∀ t ∈ s'.added, t ≤ s'.barrier.time)
    (hlate : s'.loader = .leave ∨ s'.loader = .ended → ∀ t ∈ s'.added, t < s'.barrier.time)
    (hdone : s'.threads.done = true → s'.loader = .leave ∨ s'.loader = .ended)
    (hstop : s.threads.done = true → s'.threads.done = true) : WorkInv cfg s' := by
  have hpassed : ∀ j, Passed s' j → Passed s j := fun j =>
    .of_kept (congrFun hcpus j) htime (hdevices j.castSucc (castSucc_ne_ldEvent j))
  refine ⟨hclock, fun i => ?_, fun j a hj hp => ?_, fun hm => ?_, hadded, hlate, hdone,
    fun j hj => ?_⟩
  · rw [hslots]
    exact h.slots i
  · rw [htime, hruns]
    rw [hcpus] at hj
    exact h.ran j a hj (hpassed j hp)
  · obtain ⟨j, hempty, hslot⟩ := hm
    rw [hcpus] at hempty hslot
    have hle := h.missed ⟨j, hempty, fun hp => hpassed j (hslot hp)⟩
    have hputting : puttingCount s'.threads = puttingCount s.threads := by
      unfold puttingCount
      rw [hcpus]
    omega
  · rw [hcpus] at hj
    exact hstop (h.stopped j hj)

/-- At its tests the loader has added nothing in this slot. -/
theorem added_before {cfg : SlotConfig} {s : Clocked n} (h : ClockInv cfg s)
    (hl : s.loader = .test) : ∀ t ∈ s.added, t < s.barrier.time := by
  obtain ⟨-, -, hold, -⟩ := h.loaderTest hl
  intro t ht
  rw [h.loader.added] at ht
  obtain ⟨i, hi, rfl⟩ := List.mem_map.mp ht
  exact hold i (List.mem_range.mp hi)

/-- A loader step keeps the invariant. -/
theorem loaderSlotStep_work {cfg : SlotConfig} {s s' : Clocked n} (h : WorkInv cfg s)
    (hs : loaderSlotStep cfg s = some s') : WorkInv cfg s' := by
  have hclock := loaderSlotStep_inv h.clock hs
  have hcpu := loaderStep_cpu cfg.toConfig s.threads
  unfold loaderSlotStep at hs
  split at hs
  · next hl =>
    have hbefore := added_before h.clock hl
    have hnotDone : s.threads.done = true → False := fun hx => by
      rcases h.done hx with hx | hx <;> cases hl.symm.trans hx
    split_ifs at hs with hload hstart
    · cases hs
      exact h.ofLoader hclock rfl (fun _ _ => ⟨rfl, rfl⟩) rfl rfl rfl (le_refl _) h.added
        (fun hx => by rcases hx with hx | hx <;> cases hx) (fun hx => (hnotDone hx).elim) id
    · cases hs
      have hadd : loaderStep cfg.toConfig s.threads = {s.threads with
          sched := addMlqProc cfg.prio s.threads.sched s.threads.loaded
          loaded := s.threads.loaded + 1} := if_pos hload
      have hnow : addedNow s = 0 := if_neg fun hx => absurd (hbefore _ hx) (lt_irrefl _)
      have hle := readyCount_enqueueReady_le cfg.prio s.threads.sched s.threads.loaded
      refine h.ofLoader hclock rfl (fun _ _ => ⟨rfl, rfl⟩) hcpu rfl ?_ ?_ ?_
        (fun hx => by rcases hx with hx | hx <;> cases hx) ?_ ?_
      · dsimp only
        rw [hadd]
        exact (enqueueReady_counters _ _).1
      · unfold addedNow at hnow ⊢
        dsimp only
        rw [hnow, hadd, if_pos (List.mem_append_right _ (List.mem_singleton_self _)), Nat.add_zero]
        exact hle
      · dsimp only
        intro t ht
        rcases List.mem_append.mp ht with ht | ht
        · exact h.added t ht
        · exact (List.mem_singleton.mp ht).le
      · dsimp only
        rw [hadd]
        exact fun hx => (hnotDone hx).elim
      · dsimp only
        rw [hadd]
        exact id
    · cases hs
      have hdone : loaderStep cfg.toConfig s.threads = {s.threads with done := true} :=
        if_neg hload
      refine h.ofLoader hclock rfl (fun _ _ => ⟨rfl, rfl⟩) hcpu rfl ?_ ?_ h.added
        (fun _ => hbefore) (fun _ => Or.inl rfl) ?_
      · dsimp only
        rw [hdone]
      · dsimp only
        rw [hdone]
        exact le_refl _
      · dsimp only
        rw [hdone]
        exact fun _ => rfl
  · next hl =>
    have hnotDone : s.threads.done = true → False := fun hx => by
      rcases h.done hx with hx | hx <;> cases hl.symm.trans hx
    split_ifs at hs with hdev
    · obtain ⟨b, hb, rfl⟩ := Option.map_eq_some_iff.mp hs
      have hmoved := nextSlot_moved hb
      have hnow : addedNow {s with barrier := b} = addedNow s := by
        unfold addedNow
        rw [hmoved.time]
      refine h.ofLoader hclock hmoved.time hmoved.others rfl rfl rfl ?_ ?_ ?_ h.done id
      · rw [hnow]
      · rw [hmoved.time]
        exact h.added
      · dsimp only
        rw [hmoved.time]
        exact h.late
    · obtain ⟨b, hb, rfl⟩ := Option.map_eq_some_iff.mp hs
      have hmoved := nextSlotWait_moved hb
      have hnow : addedNow {s with barrier := b, loader := .test} = addedNow s := by
        unfold addedNow
        rw [hmoved.time]
      refine h.ofLoader hclock hmoved.time hmoved.others rfl rfl rfl ?_ ?_
        (fun hx => by rcases hx with hx | hx <;> cases hx) (fun hx => (hnotDone hx).elim) id
      · rw [hnow]
      · rw [hmoved.time]
        exact h.added
  · next hl =>
    obtain ⟨b, hb, rfl⟩ := Option.map_eq_some_iff.mp hs
    have hmoved := detachEvent_moved hb
    have hnow : addedNow {s with barrier := b, loader := .ended} = addedNow s := by
      unfold addedNow
      rw [hmoved.time]
    refine h.ofLoader hclock hmoved.time hmoved.others rfl rfl rfl ?_ ?_ (fun _ => ?_)
      (fun _ => Or.inr rfl) id
    · rw [hnow]
    · rw [hmoved.time]
      exact h.added
    · dsimp only
      rw [hmoved.time]
      exact h.late (Or.inl hl)
  · cases hs

/-- Only one step of the timer moves the time. -/
theorem timerRoutine_time {b b' : Barrier (n + 1)} (h : timerRoutine b = some b') :
    b'.time = b.time ∨ ∃ fsh event, b.timer = .tick fsh event ∧ b'.time = b.time + 1 := by
  unfold timerRoutine at h
  split at h
  · cases h; exact Or.inl rfl
  · cases h; exact Or.inl rfl
  · obtain ⟨_, ⟨⟩⟩ := Option.ite_none_right_eq_some.mp h
    exact Or.inl rfl
  · next fsh event ht =>
    cases h
    exact Or.inr ⟨fsh, event, ht, rfl⟩
  · cases h; exact Or.inl rfl
  · cases h; exact Or.inl rfl
  · cases h

/-- Before the time moves every CPU has stopped or waits for it. -/
theorem stopped_or_waiting {cfg : SlotConfig} {s : Clocked n} (h : ClockInv cfg s)
    {fsh event : ℕ} (ht : s.barrier.timer = .tick fsh event) (k : Fin n) :
    (s.threads.cpu k).point = .stopped ∨ (∃ p, (s.threads.cpu k).point = .slot p) ∧
      s.barrier.device k.castSucc = .waiting ∧
        s.barrier.begun k.castSucc = s.barrier.time + 1 := by
  by_cases hd : s.barrier.device k.castSucc = .detached
  · exact Or.inl ((h.cpu k).detached hd)
  · obtain ⟨t, hlag, hturn⟩ := h.barrier.turns _ hd
    have hdone := h.barrier.seen _ hd (by rw [ht]; trivial)
    rw [ht] at hlag
    obtain rfl : t = s.barrier.time := hlag
    rw [hdone] at hturn
    have hwait : s.barrier.device k.castSucc = .waiting ∧
        s.barrier.begun k.castSucc = s.barrier.time + 1 := by
      generalize s.barrier.device k.castSucc = dev, s.barrier.begun k.castSucc = begun,
        s.barrier.completed k.castSucc = completed at hturn
      cases hturn
      exact ⟨rfl, rfl⟩
    have hslot := (h.cpu k).waiting hwait.1
    refine Or.inr ⟨?_, hwait⟩
    generalize (s.threads.cpu k).point = p at hslot
    cases p with
    | slot q => exact ⟨q, rfl⟩
    | _ => cases hslot

/-- When the time has moved no waiting CPU is through with the new slot. -/
theorem not_passed_of_tick {cfg : SlotConfig} {s : Clocked n} (h : ClockInv cfg s)
    {fsh event : ℕ} (ht : s.barrier.timer = .tick fsh event) {b : Barrier (n + 1)}
    (hkept : ∀ d, Kept s.barrier b d) (htime : b.time = s.barrier.time + 1) {k : Fin n}
    {p : Option ℕ} (hp : (s.threads.cpu k).point = .slot p) :
    ¬Passed {s with barrier := b} k := by
  intro hpass
  obtain hstop | ⟨-, hdev, hbegun⟩ := stopped_or_waiting h ht k
  · cases hp.symm.trans hstop
  · unfold Passed slotNow at hpass
    dsimp only at hpass
    rw [(hkept k.castSucc).1, (hkept k.castSucc).2, hdev, hbegun, htime,
      if_neg (by simp)] at hpass
    exact lt_irrefl _ hpass

/-- The time moves: a new slot begins for all CPUs. -/
theorem WorkInv.tick {cfg : SlotConfig} {s : Clocked n} (h : WorkInv cfg s) {fsh event : ℕ}
    (ht : s.barrier.timer = .tick fsh event) {b : Barrier (n + 1)}
    (hclock : ClockInv cfg {s with barrier := b}) (hkept : ∀ d, Kept s.barrier b d)
    (htime : b.time = s.barrier.time + 1) : WorkInv cfg {s with barrier := b} := by
  have hstart := fun k p => not_passed_of_tick (k := k) (p := p) h.clock ht hkept htime
  refine ⟨hclock, h.slots, fun k a hk hpass => absurd hpass (hstart k _ hk), fun hm => ?_,
    fun t hmem => ?_, fun hl t hmem => ?_, h.done, h.stopped⟩
  · obtain ⟨k, hempty, hslot⟩ := hm
    dsimp only at hempty hslot
    have hstop : (s.threads.cpu k).point = .stopped := by
      obtain hstop | ⟨⟨p, hp⟩, -⟩ := stopped_or_waiting h.clock ht k
      · exact hstop
      · rw [hp] at hempty hslot
        cases p with
        | none => exact absurd (hslot rfl) (hstart k none hp)
        | some a => cases hempty
    have hbefore := h.late (h.done (h.stopped k hstop))
    have hnow : addedNow s = 0 := if_neg fun hx => absurd (hbefore _ hx) (lt_irrefl _)
    have hle := h.missed ⟨k, hempty, fun hx => nomatch hstop.symm.trans hx⟩
    rw [hnow] at hle
    exact hle.trans (Nat.add_le_add_left (Nat.zero_le _) _)
  · dsimp only
    rw [htime]
    exact (h.added t hmem).trans (Nat.le_succ _)
  · dsimp only
    rw [htime]
    exact (h.late hl t hmem).trans (Nat.lt_succ_self _)

/-- A step of the timer that leaves the time as it is. -/
theorem WorkInv.ofTimer {cfg : SlotConfig} {s : Clocked n} (h : WorkInv cfg s)
    {b : Barrier (n + 1)} (hclock : ClockInv cfg {s with barrier := b})
    (hkept : ∀ d, Kept s.barrier b d) (htime : b.time = s.barrier.time) :
    WorkInv cfg {s with barrier := b} := by
  have hpassed : ∀ k, Passed {s with barrier := b} k → Passed s k := fun k =>
    .of_kept rfl htime (hkept k.castSucc)
  refine ⟨hclock, h.slots, fun k a hk hp => ?_, fun ⟨k, hempty, hslot⟩ => ?_, ?_, ?_, h.done,
    h.stopped⟩
  · dsimp only
    rw [htime]
    exact h.ran k a hk (hpassed k hp)
  · have hnow : addedNow {s with barrier := b} = addedNow s := by
      unfold addedNow
      rw [htime]
    rw [hnow]
    exact h.missed ⟨k, hempty, fun hx => hpassed k (hslot hx)⟩
  · dsimp only
    rw [htime]
    exact h.added
  · dsimp only
    rw [htime]
    exact h.late

/-- Every step keeps the invariant. -/
theorem workInv_step {cfg : SlotConfig} {s s' : Clocked n} {t : Thread n} (h : WorkInv cfg s)
    (hs : ClockStep cfg s t s') : WorkInv cfg s' := by
  have hclock := clockInv_step h.clock hs
  unfold ClockStep at hs
  cases t with
  | cpu k => exact cpuSlotStep_work h hs
  | loader => exact loaderSlotStep_work h hs
  | timer =>
    obtain ⟨b, hb, rfl⟩ := Option.map_eq_some_iff.mp hs
    have hkept := (timerRoutine_kept hb).1
    obtain htime | ⟨fsh, event, ht, htime⟩ := timerRoutine_time hb
    · exact h.ofTimer hclock hkept htime
    · exact h.tick ht hclock hkept htime
  | main =>
    obtain ⟨b, hb, rfl⟩ := Option.map_eq_some_iff.mp hs
    obtain ⟨_, ⟨⟩⟩ := Option.ite_none_right_eq_some.mp hb
    exact h.ofTimer hclock (fun _ => ⟨rfl, rfl⟩) rfl

/-- The invariant holds in every reachable state. -/
theorem workInv_of_reachable {cfg : SlotConfig} {s : Clocked n}
    (h : Reachable (fun s => s = clockBoot) (ClockStep cfg) s) : WorkInv cfg s :=
  h.invariant (WorkInv cfg) (fun _ hs => hs ▸ workInv_boot cfg) fun _ _ _ hi hs =>
    workInv_step hi hs

/-! ## What a slot has done when it ends -/

/-- The process of a CPU has been run. -/
theorem WorkInv.ran_of_holds {cfg : SlotConfig} {s : Clocked n} (h : WorkInv cfg s)
    {fsh event : ℕ} (ht : s.barrier.timer = .tick fsh event) {k : Fin n} {a : ℕ}
    (hk : (s.threads.cpu k).point.holds = some a) :
    (s.threads.cpu k).point = .slot (some a) ∧ Passed s k ∧ s.barrier.time ∈ s.runs k := by
  obtain hstop | ⟨⟨p, hp⟩, hdev, hbegun⟩ := stopped_or_waiting h.clock ht k
  · rw [hstop] at hk
    cases hk
  · rw [hp] at hk
    obtain rfl : p = some a := hk
    have hpass : Passed s k := by
      unfold Passed slotNow
      rw [hdev, hbegun, if_neg (by simp)]
      exact Nat.lt_succ_self _
    exact ⟨hp, hpass, h.ran k a hp hpass⟩

/-- A CPU that has not called `run` has asked in vain. -/
theorem WorkInv.missed_of_idle {cfg : SlotConfig} {s : Clocked n} (h : WorkInv cfg s)
    {fsh event : ℕ} (ht : s.barrier.timer = .tick fsh event) {k : Fin n}
    (hk : s.barrier.time ∉ s.runs k) : Missed s k := by
  obtain hstop | ⟨⟨p, hp⟩, hdev, hbegun⟩ := stopped_or_waiting h.clock ht k
  · refine ⟨?_, fun hx => nomatch hstop.symm.trans hx⟩
    rw [hstop]
    rfl
  · cases p with
    | none =>
      refine ⟨by rw [hp]; rfl, fun _ => ?_⟩
      unfold Passed slotNow
      rw [hdev, hbegun, if_neg (by simp)]
      exact Nat.lt_succ_self _
    | some a => exact absurd (h.ran_of_holds ht (by rw [hp]; rfl)).2.2 hk

/-- When a slot ends in which a CPU had nothing to run, nothing is ready but what has just
been added. -/
theorem WorkInv.ready_of_idle {cfg : SlotConfig} {s : Clocked n} (h : WorkInv cfg s)
    {fsh event : ℕ} (ht : s.barrier.timer = .tick fsh event)
    (hidle : ∃ k, s.barrier.time ∉ s.runs k) : readyCount s.threads.sched ≤ addedNow s := by
  obtain ⟨k, hk⟩ := hidle
  have hnone : puttingCount s.threads = 0 := by
    refine Finset.sum_eq_zero fun j _ => ?_
    obtain hstop | ⟨⟨p, hp⟩, -⟩ := stopped_or_waiting h.clock ht j
    · rw [hstop]
      rfl
    · rw [hp]
      rfl
  have hle := h.missed ⟨k, h.missed_of_idle ht hk⟩
  rwa [hnone, Nat.zero_add] at hle

/-- When the timer ends a slot, every process that a CPU has was run in it; and if some CPU
has not called `run` in it, no process waits in a ready queue, unless the loader has added
one in this very slot, and then no more than one. -/
theorem slot_work_conserved {cfg : SlotConfig} {s : Clocked n}
    (h : Reachable (fun s => s = clockBoot) (ClockStep cfg) s) {fsh event : ℕ}
    (ht : s.barrier.timer = .tick fsh event) :
    (∀ k a, (s.threads.cpu k).point.holds = some a → s.barrier.time ∈ s.runs k) ∧
      ((∃ k, s.barrier.time ∉ s.runs k) →
        readyCount s.threads.sched ≤ if s.barrier.time ∈ s.added then 1 else 0) := by
  have hinv := workInv_of_reachable h
  exact ⟨fun _ _ hk => (hinv.ran_of_holds ht hk).2.2, hinv.ready_of_idle ht⟩

/-! ## Two CPUs and one process -/

/-- CPU 0 executes the process that the loader adds in slot 1, and CPU 1 asks in vain. -/
def oneIdle : List (Thread 2) :=
  let start := [.cpu ⟨0, Nat.two_pos⟩, .cpu ⟨0, Nat.two_pos⟩, .cpu ⟨1, Nat.one_lt_two⟩,
    .cpu ⟨1, Nat.one_lt_two⟩, .loader, .loader]
  start ++ List.replicate 10 .timer ++ List.replicate 3 .loader ++
    List.replicate 5 (.cpu ⟨0, Nat.two_pos⟩) ++ List.replicate 3 (.cpu ⟨1, Nat.one_lt_two⟩) ++
    List.replicate 5 .timer

/-- The counters of the timer before it moves the time. -/
def ticking : TimerPoint n → Option (ℕ × ℕ)
  | .tick fsh event => some (fsh, event)
  | _ => none

theorem eq_tick {p : TimerPoint n} {fsh event : ℕ} (h : ticking p = some (fsh, event)) :
    p = .tick fsh event := by
  unfold ticking at h
  split at h
  · obtain ⟨rfl, rfl⟩ := Prod.mk.inj (Option.some.inj h)
    rfl
  · cases h

/-- Slot 1 ends with a process on CPU 0 and none on CPU 1. -/
theorem reachable_oneIdle : ∃ s : Clocked 2,
    Reachable (fun s => s = clockBoot) (ClockStep lateStart) s ∧
      s.barrier.timer = .tick 0 3 ∧ s.barrier.time = 1 ∧
      (s.threads.cpu ⟨0, Nat.two_pos⟩).point.holds = some 0 ∧
      s.runs ⟨1, Nat.one_lt_two⟩ = [] := by
  have hnext : ∀ (s : Clocked 2) t s', clockStep lateStart s t = some s' →
      ClockStep lateStart s t s' := fun _ _ _ h => h
  obtain ⟨s, hrun, hs⟩ := exists_run_of_map (fun (_ : Clocked 2) _ => True) hnext clockBoot
    oneIdle
    (fun s => (ticking s.barrier.timer, s.barrier.time,
      (s.threads.cpu ⟨0, Nat.two_pos⟩).point.holds, s.runs ⟨1, Nat.one_lt_two⟩))
    (some (0, 3), 1, some 0, []) (by decide +kernel)
  obtain ⟨htimer, hs⟩ := Prod.mk.inj hs
  obtain ⟨htime, hs⟩ := Prod.mk.inj hs
  obtain ⟨hholds, hruns⟩ := Prod.mk.inj hs
  exact ⟨s, ⟨clockBoot, oneIdle, rfl, hrun.unguard⟩, eq_tick htimer, htime, hholds, hruns⟩

/-- CPU 0 has run its process in slot 1, and only a process added in it may be ready. -/
theorem slot_work_conserved_oneIdle : ∃ s : Clocked 2,
    1 ∈ s.runs ⟨0, Nat.two_pos⟩ ∧ s.runs ⟨1, Nat.one_lt_two⟩ = [] ∧
      readyCount s.threads.sched ≤ if 1 ∈ s.added then 1 else 0 := by
  obtain ⟨s, hreach, ht, htime, hholds, hruns⟩ := reachable_oneIdle
  obtain ⟨hran, hready⟩ := slot_work_conserved hreach ht
  rw [htime] at hran hready
  exact ⟨s, hran _ 0 hholds, hruns, hready ⟨_, by rw [hruns]; exact List.not_mem_nil⟩⟩

end OsSim.SlotWork
