import OsSim.CpuExecution
import OsSim.TimerBarrier
import OsSim.RunSimulation
import Mathlib.Algebra.BigOperators.Fin
import Mathlib.Algebra.Order.BigOperators.Group.Finset

/-!
# CPUs and loader on the clock

The CPUs and the loader are the devices of the timer. A CPU calls `run` at most once in a
time slot, and the loader adds each process in the slot that its start time and the one
before it in the configuration say, whatever order the threads come in.
-/

namespace OsSim.SlotClock

open RunSteps RunSimulation CpuRoutine CpuExecution TimerBarrier

/-- What `read_config` reads, with the start times. -/
structure SlotConfig extends Config where
  /-- `start_time` of each process. -/
  startTime : ℕ → ℕ

/-- Where the loader is in `ld_routine`. -/
inductive LoaderPoint
  /-- At the tests of its two loops. -/
  | test
  /-- In `next_slot`. -/
  | slot
  /-- Before `detach_event`. -/
  | leave
  /-- Behind `detach_event`. -/
  | ended
  deriving DecidableEq

/-- The threads and their timer. The last two fields record what has happened; no step
reads them. -/
structure Clocked (n : ℕ) where
  /-- The CPUs and what the loader shares with them. -/
  threads : Machine (Fin n)
  /-- The point of the loader. -/
  loader : LoaderPoint
  /-- The timer and its devices. -/
  barrier : Barrier (n + 1)
  /-- The slots in which a CPU has called `run`, in order. -/
  runs : Fin n → List ℕ
  /-- The slots in which processes were added, in order. -/
  added : List ℕ

variable {n : ℕ}

/-- `main` attaches the CPUs first, the loader last. -/
def ldEvent : Fin (n + 1) := Fin.last n

/-- All threads have been created. -/
def clockBoot : Clocked n where
  threads := boot
  loader := .test
  barrier := startTimer
  runs _ := []
  added := []

/-- One step of `cpu_routine` on CPU `k`, with the calls of `next_slot` and
`detach_event`. -/
def cpuSlotStep (cfg : SlotConfig) (s : Clocked n) (k : Fin n) : Option (Clocked n) :=
  match (s.threads.cpu k).point with
  | .slot _ =>
    if s.barrier.device k.castSucc = .working then
      (nextSlot s.barrier k.castSucc).map fun b => {s with barrier := b}
    else
      (nextSlotWait s.barrier k.castSucc).map fun b =>
        {s with barrier := b, threads := cpuStep cfg.toConfig s.threads k}
  | .stopped => (detachEvent s.barrier k.castSucc).map fun b => {s with barrier := b}
  | .exec _ =>
    some {s with
      threads := cpuStep cfg.toConfig s.threads k
      runs := Function.update s.runs k (s.runs k ++ [s.barrier.time])}
  | _ => some {s with threads := cpuStep cfg.toConfig s.threads k}

/-- One step of `ld_routine`; `next_slot` leads back to the same tests from both loops. -/
def loaderSlotStep (cfg : SlotConfig) (s : Clocked n) : Option (Clocked n) :=
  match s.loader with
  | .test =>
    if s.threads.loaded < cfg.numProcesses then
      if s.barrier.time < cfg.startTime s.threads.loaded then some {s with loader := .slot}
      else
        some {s with
          threads := loaderStep cfg.toConfig s.threads
          loader := .slot
          added := s.added ++ [s.barrier.time]}
    else some {s with threads := loaderStep cfg.toConfig s.threads, loader := .leave}
  | .slot =>
    if s.barrier.device ldEvent = .working then
      (nextSlot s.barrier ldEvent).map fun b => {s with barrier := b}
    else (nextSlotWait s.barrier ldEvent).map fun b => {s with barrier := b, loader := .test}
  | .leave => (detachEvent s.barrier ldEvent).map fun b => {s with barrier := b, loader := .ended}
  | .ended => none

/-- The threads of the whole: the CPUs, the loader, the timer and `main`. -/
inductive Thread (n : ℕ)
  /-- A CPU. -/
  | cpu (k : Fin n)
  /-- The loader. -/
  | loader
  /-- The timer. -/
  | timer
  /-- `main`, which stops the timer behind all others. -/
  | main

/-- The step of a thread, if it is not waiting. -/
def clockStep (cfg : SlotConfig) (s : Clocked n) : Thread n → Option (Clocked n)
  | .cpu k => cpuSlotStep cfg s k
  | .loader => loaderSlotStep cfg s
  | .timer => (timerRoutine s.barrier).map fun b => {s with barrier := b}
  | .main => (stopTimer s.barrier).map fun b => {s with barrier := b}

/-- One step of the system. -/
def ClockStep (cfg : SlotConfig) (s : Clocked n) (t : Thread n) (s' : Clocked n) : Prop :=
  clockStep cfg s t = some s'

/-- The slot in which a process is added: its start time, or the slot behind the one of the
process before it. -/
def arrival (cfg : SlotConfig) : ℕ → ℕ
  | 0 => cfg.startTime 0
  | i + 1 => max (cfg.startTime (i + 1)) (arrival cfg i + 1)

/-! ## What a step does -/

/-- A device that is left alone. -/
def Kept (b b' : Barrier (n + 1)) (d : Fin (n + 1)) : Prop :=
  b'.device d = b.device d ∧ b'.begun d = b.begun d

/-- The timer leaves all devices alone. -/
theorem timerRoutine_kept {b b' : Barrier (n + 1)} (h : timerRoutine b = some b') :
    (∀ d, Kept b b' d) ∧ b.time ≤ b'.time := by
  unfold timerRoutine at h
  split at h
  · cases h; exact ⟨fun _ => ⟨rfl, rfl⟩, le_refl _⟩
  · cases h; exact ⟨fun _ => ⟨rfl, rfl⟩, le_refl _⟩
  · obtain ⟨_, ⟨⟩⟩ := Option.ite_none_right_eq_some.mp h
    exact ⟨fun _ => ⟨rfl, rfl⟩, le_refl _⟩
  · cases h; exact ⟨fun _ => ⟨rfl, rfl⟩, Nat.le_succ _⟩
  · cases h; exact ⟨fun _ => ⟨rfl, rfl⟩, le_refl _⟩
  · cases h; exact ⟨fun _ => ⟨rfl, rfl⟩, le_refl _⟩
  · cases h

/-- A device that goes from one point to another; `calls` more calls have begun. -/
structure Moved (b b' : Barrier (n + 1)) (d : Fin (n + 1)) (p p' : DevicePoint) (calls : ℕ) :
    Prop where
  /-- Where it was. -/
  before : b.device d = p
  /-- Where it is. -/
  after : b'.device d = p'
  /-- What it has begun. -/
  begun : b'.begun d = b.begun d + calls
  /-- The time stays. -/
  time : b'.time = b.time
  /-- The other devices are left alone. -/
  others : ∀ e ≠ d, Kept b b' e

theorem nextSlot_moved {b b' : Barrier (n + 1)} {d : Fin (n + 1)} (h : nextSlot b d = some b') :
    Moved b b' d .working .waiting 1 := by
  obtain ⟨hd, ⟨⟩⟩ := Option.ite_none_right_eq_some.mp h
  exact ⟨hd, Function.update_self _ _ _, Function.update_self _ _ _, rfl,
    fun e he => ⟨Function.update_of_ne he _ _, Function.update_of_ne he _ _⟩⟩

theorem nextSlotWait_moved {b b' : Barrier (n + 1)} {d : Fin (n + 1)}
    (h : nextSlotWait b d = some b') : Moved b b' d .waiting .working 0 := by
  obtain ⟨hd, ⟨⟩⟩ := Option.ite_none_right_eq_some.mp h
  exact ⟨hd.1, Function.update_self _ _ _, rfl, rfl,
    fun e he => ⟨Function.update_of_ne he _ _, rfl⟩⟩

theorem detachEvent_moved {b b' : Barrier (n + 1)} {d : Fin (n + 1)}
    (h : detachEvent b d = some b') : Moved b b' d .working .detached 0 := by
  obtain ⟨hd, ⟨⟩⟩ := Option.ite_none_right_eq_some.mp h
  exact ⟨hd, Function.update_self _ _ _, rfl, rfl,
    fun e he => ⟨Function.update_of_ne he _ _, rfl⟩⟩

/-- The loader moves no CPU. -/
theorem loaderStep_cpu (cfg : Config) (m : Machine (Fin n)) : (loaderStep cfg m).cpu = m.cpu := by
  unfold loaderStep
  split <;> rfl

/-! ## What every step keeps -/

/-- The CPU is in `next_slot`. -/
def inSlot : Point → Bool
  | .slot _ => true
  | _ => false

/-- The slot in which a thread can do its work next. -/
def slotNow (slot : Bool) (dev : DevicePoint) (begun : ℕ) : ℕ :=
  if slot = true ∧ dev = .working then begun + 1 else begun

theorem le_slotNow (slot : Bool) (dev : DevicePoint) (begun : ℕ) :
    begun ≤ slotNow slot dev begun := by
  unfold slotNow
  split <;> omega

/-- What holds of a CPU. -/
structure CpuOk (point : Point) (dev : DevicePoint) (begun : ℕ) (runs : List ℕ) : Prop where
  /-- The CPU waits in `next_slot` only. -/
  waiting : dev = .waiting → inSlot point = true
  /-- The CPU detaches behind its loop. -/
  detached : dev = .detached → point = .stopped
  /-- The CPU has called `run` at most once in any slot. -/
  sorted : runs.Pairwise (· < ·)
  /-- The next call of `run` comes in a later slot. -/
  before : dev ≠ .detached → ∀ t ∈ runs, t < slotNow (inSlot point) dev begun

/-- What holds of the loader. -/
structure LoaderOk (cfg : SlotConfig) (point : LoaderPoint) (dev : DevicePoint) (begun loaded : ℕ)
    (added : List ℕ) : Prop where
  /-- The loader waits in `next_slot` only. -/
  waiting : dev = .waiting → point = .slot
  /-- The loader detaches at its end. -/
  detached : dev = .detached ↔ point = .ended
  /-- Processes have been added in their slots. -/
  added : added = (List.range loaded).map (arrival cfg)
  /-- The next process is still to come. -/
  next : point = .test ∨ point = .slot →
    (∀ i < loaded, arrival cfg i < slotNow (decide (point = .slot)) dev begun) ∧
      slotNow (decide (point = .slot)) dev begun ≤ arrival cfg loaded
  /-- The loader leaves when all processes are there. -/
  all : point = .leave ∨ point = .ended → cfg.numProcesses ≤ loaded

/-- What every step of the system keeps about its clock. -/
structure ClockInv (cfg : SlotConfig) (s : Clocked n) : Prop where
  /-- The timer and its devices. -/
  barrier : BarrierInv s.barrier
  /-- What has happened lies in the past. -/
  past : ∀ k, ∀ t ∈ s.runs k, t ≤ s.barrier.time
  /-- Every CPU. -/
  cpu : ∀ k, CpuOk (s.threads.cpu k).point (s.barrier.device k.castSucc)
    (s.barrier.begun k.castSucc) (s.runs k)
  /-- The loader. -/
  loader : LoaderOk cfg s.loader (s.barrier.device ldEvent) (s.barrier.begun ldEvent)
    s.threads.loaded s.added

/-- The invariant of the clock holds before the threads start. -/
theorem clockInv_boot (cfg : SlotConfig) : ClockInv cfg (clockBoot : Clocked n) where
  barrier := startTimer_inv
  past _ t ht := by cases ht
  cpu _ := ⟨fun h => (by cases h), fun h => (by cases h), .nil, fun _ t ht => (by cases ht)⟩
  loader := ⟨fun h => (by cases h), ⟨fun h => (by cases h), fun h => (by cases h)⟩, rfl,
    fun _ => ⟨fun i hi => absurd hi (Nat.not_lt_zero i), Nat.zero_le _⟩,
    fun h => by rcases h with h | h <;> cases h⟩

theorem castSucc_ne_ldEvent (k : Fin n) : k.castSucc ≠ ldEvent :=
  (Fin.castSucc_lt_last k).ne

/-- A step of a CPU keeps the invariant if it keeps what holds of this CPU. -/
theorem ClockInv.ofCpu {cfg : SlotConfig} {s s' : Clocked n} {k : Fin n} (h : ClockInv cfg s)
    (hbarrier : BarrierInv s'.barrier) (htime : s'.barrier.time = s.barrier.time)
    (hdevices : ∀ e ≠ k.castSucc, Kept s.barrier s'.barrier e)
    (hcpus : ∀ j ≠ k, s'.threads.cpu j = s.threads.cpu j)
    (hloaded : s'.threads.loaded = s.threads.loaded) (hloader : s'.loader = s.loader)
    (hadded : s'.added = s.added) (hruns : ∀ j ≠ k, s'.runs j = s.runs j)
    (hpast : ∀ t ∈ s'.runs k, t ≤ s'.barrier.time)
    (hk : CpuOk (s'.threads.cpu k).point (s'.barrier.device k.castSucc)
      (s'.barrier.begun k.castSucc) (s'.runs k)) : ClockInv cfg s' where
  barrier := hbarrier
  past j := by
    by_cases hj : j = k
    · exact hj ▸ hpast
    · rw [hruns j hj, htime]
      exact h.past j
  cpu j := by
    by_cases hj : j = k
    · exact hj ▸ hk
    · obtain ⟨hdev, hbegun⟩ := hdevices j.castSucc fun he => hj (Fin.castSucc_injective n he)
      rw [hcpus j hj, hruns j hj, hdev, hbegun]
      exact h.cpu j
  loader := by
    obtain ⟨hdev, hbegun⟩ := hdevices ldEvent (castSucc_ne_ldEvent k).symm
    rw [hloader, hloaded, hadded, hdev, hbegun]
    exact h.loader

/-- A step of the loader keeps the invariant if it keeps what holds of the loader. -/
theorem ClockInv.ofLoader {cfg : SlotConfig} {s s' : Clocked n} (h : ClockInv cfg s)
    (hbarrier : BarrierInv s'.barrier) (htime : s'.barrier.time = s.barrier.time)
    (hdevices : ∀ e ≠ ldEvent, Kept s.barrier s'.barrier e)
    (hcpus : s'.threads.cpu = s.threads.cpu) (hruns : s'.runs = s.runs)
    (hl : LoaderOk cfg s'.loader (s'.barrier.device ldEvent) (s'.barrier.begun ldEvent)
      s'.threads.loaded s'.added) : ClockInv cfg s' where
  barrier := hbarrier
  past j := by
    rw [hruns, htime]
    exact h.past j
  cpu j := by
    obtain ⟨hdev, hbegun⟩ := hdevices j.castSucc (castSucc_ne_ldEvent j)
    rw [hcpus, hruns, hdev, hbegun]
    exact h.cpu j
  loader := hl

/-- A CPU outside of `next_slot` is at work. -/
theorem CpuOk.working {point : Point} {dev : DevicePoint} {begun : ℕ} {runs : List ℕ}
    (h : CpuOk point dev begun runs) (hslot : inSlot point = false) (hstop : point ≠ .stopped) :
    dev = .working := by
  cases dev with
  | working => rfl
  | waiting => exact absurd (h.waiting rfl) (by simp [hslot])
  | detached => exact absurd (h.detached rfl) hstop

/-- A CPU at work may go to any point. -/
theorem CpuOk.move {point : Point} {begun : ℕ} {runs : List ℕ}
    (h : CpuOk point .working begun runs) (hslot : inSlot point = false) (point' : Point) :
    CpuOk point' .working begun runs where
  waiting hx := by cases hx
  detached hx := by cases hx
  sorted := h.sorted
  before _ t ht := by
    have hlt := h.before (by decide) t ht
    unfold slotNow at hlt
    rw [hslot, if_neg (by simp)] at hlt
    exact hlt.trans_le (le_slotNow _ _ _)

/-- A CPU calls `run` and comes to `next_slot`. -/
theorem CpuOk.run {point point' : Point} {begun : ℕ} {runs : List ℕ}
    (h : CpuOk point .working begun runs) (hslot : inSlot point = false)
    (hslot' : inSlot point' = true) : CpuOk point' .working begun (runs ++ [begun]) where
  waiting hx := by cases hx
  detached hx := by cases hx
  sorted := by
    refine List.pairwise_append.mpr ⟨h.sorted, List.pairwise_singleton _ _, fun t ht u hu => ?_⟩
    have hlt := h.before (by decide) t ht
    unfold slotNow at hlt
    rw [hslot, if_neg (by simp)] at hlt
    rwa [List.mem_singleton.mp hu]
  before _ t ht := by
    have hnow : slotNow (inSlot point') .working begun = begun + 1 := if_pos ⟨hslot', rfl⟩
    rw [hnow]
    rcases List.mem_append.mp ht with ht | ht
    · have hlt := h.before (by decide) t ht
      unfold slotNow at hlt
      rw [hslot, if_neg (by simp)] at hlt
      exact Nat.lt_succ_of_lt hlt
    · rw [List.mem_singleton.mp ht]
      exact Nat.lt_succ_self _

/-- Behind `run` a CPU is in `next_slot`. -/
theorem cpuStep_exec (cfg : Config) {m : Machine (Fin n)} {k : Fin n} {a : ℕ}
    (h : (m.cpu k).point = .exec a) :
    inSlot ((cpuStep cfg m k).cpu k).point = true := by
  rcases hc : m.cpu k with ⟨point, timeLeft⟩
  rw [hc] at h
  obtain rfl : point = .exec a := h
  unfold cpuStep
  rw [hc]
  dsimp only
  rw [setCpu_self]
  rfl

/-- Behind `next_slot` it is not. -/
theorem cpuStep_slot (cfg : Config) {m : Machine (Fin n)} {k : Fin n} {p : Option ℕ}
    (h : (m.cpu k).point = .slot p) : ((cpuStep cfg m k).cpu k).point = .top p := by
  rcases hc : m.cpu k with ⟨point, timeLeft⟩
  rw [hc] at h
  obtain rfl : point = .slot p := h
  unfold cpuStep
  rw [hc]
  dsimp only
  rw [setCpu_self]

/-- At work a device is in the current slot. -/
theorem ClockInv.begun_eq {cfg : SlotConfig} {s : Clocked n} (h : ClockInv cfg s)
    {d : Fin (n + 1)} (hd : s.barrier.device d = .working) :
    s.barrier.begun d = s.barrier.time :=
  ((h.barrier.slots (by rw [hd]; decide)).2 hd).1

/-- A CPU that goes on outside of its calls of the timer. -/
theorem ClockInv.cpuMove {cfg : SlotConfig} {s : Clocked n} {k : Fin n} (h : ClockInv cfg s)
    (hslot : inSlot (s.threads.cpu k).point = false)
    (hstop : (s.threads.cpu k).point ≠ .stopped) :
    ClockInv cfg {s with threads := cpuStep cfg.toConfig s.threads k} := by
  have hcpus := fun j hj => cpuStep_of_ne cfg.toConfig s.threads (j := j) (k := k) hj
  have hloaded := (cpuStep_effect cfg.toConfig s.threads k).loader.1
  have hk := h.cpu k
  have hdev := hk.working hslot hstop
  refine h.ofCpu (k := k) h.barrier rfl (fun e _ => ⟨rfl, rfl⟩) hcpus hloaded rfl rfl
    (fun _ _ => rfl) (h.past k) ?_
  dsimp only
  rw [hdev] at hk ⊢
  exact hk.move hslot _

/-- A CPU step keeps the invariant. -/
theorem cpuSlotStep_inv {cfg : SlotConfig} {s s' : Clocked n} {k : Fin n} (h : ClockInv cfg s)
    (hs : cpuSlotStep cfg s k = some s') : ClockInv cfg s' := by
  have hcpus := fun j hj => cpuStep_of_ne cfg.toConfig s.threads (j := j) (k := k) hj
  have hloaded := (cpuStep_effect cfg.toConfig s.threads k).loader.1
  have hk := h.cpu k
  unfold cpuSlotStep at hs
  split at hs
  · next p hp =>
    split_ifs at hs with hdev
    · obtain ⟨b, hb, rfl⟩ := Option.map_eq_some_iff.mp hs
      have hmoved := nextSlot_moved hb
      refine h.ofCpu (k := k) (nextSlot_inv h.barrier hb) hmoved.time hmoved.others
        (fun _ _ => rfl) rfl rfl rfl (fun _ _ => rfl)
        (fun t ht => (h.past k t ht).trans hmoved.time.ge) ?_
      dsimp only
      rw [hmoved.after, hmoved.begun]
      rw [hdev, hp] at hk
      rw [hp]
      exact ⟨fun _ => rfl, fun hx => (by cases hx), hk.sorted, fun _ => hk.before (by decide)⟩
    · obtain ⟨b, hb, rfl⟩ := Option.map_eq_some_iff.mp hs
      have hmoved := nextSlotWait_moved hb
      refine h.ofCpu (k := k) (nextSlotWait_inv h.barrier hb) hmoved.time hmoved.others hcpus
        hloaded rfl rfl (fun _ _ => rfl) (fun t ht => (h.past k t ht).trans hmoved.time.ge) ?_
      dsimp only
      rw [hmoved.after, hmoved.begun, cpuStep_slot cfg.toConfig hp]
      rw [hmoved.before, hp] at hk
      exact ⟨fun hx => (by cases hx), fun hx => (by cases hx), hk.sorted,
        fun _ => hk.before (by decide)⟩
  · next hp =>
    obtain ⟨b, hb, rfl⟩ := Option.map_eq_some_iff.mp hs
    have hmoved := detachEvent_moved hb
    refine h.ofCpu (k := k) (detachEvent_inv h.barrier hb) hmoved.time hmoved.others
      (fun _ _ => rfl) rfl rfl rfl (fun _ _ => rfl)
      (fun t ht => (h.past k t ht).trans hmoved.time.ge) ?_
    dsimp only
    rw [hmoved.after, hp]
    exact ⟨fun hx => (by cases hx), fun _ => rfl, hk.sorted, fun hx => absurd rfl hx⟩
  · next a hp =>
    cases hs
    have hdev := hk.working (by rw [hp]; rfl) (by rw [hp]; exact Point.noConfusion)
    have hbegun := h.begun_eq hdev
    refine h.ofCpu (k := k) h.barrier rfl (fun e _ => ⟨rfl, rfl⟩) hcpus hloaded rfl rfl
      (fun j hj => Function.update_of_ne hj _ _) ?_ ?_
    · dsimp only
      rw [Function.update_self]
      intro t ht
      rcases List.mem_append.mp ht with ht | ht
      · exact h.past k t ht
      · exact (List.mem_singleton.mp ht).le
    · dsimp only
      rw [Function.update_self, hdev, hbegun]
      rw [hdev, hbegun] at hk
      exact hk.run (by rw [hp]; rfl) (cpuStep_exec cfg.toConfig hp)
  · next hslot hstop _ =>
    cases hs
    refine h.cpuMove ?_ hstop
    generalize (s.threads.cpu k).point = p at hslot
    cases p with
    | slot q => exact absurd rfl (hslot q)
    | _ => rfl

/-- No process is added before its start time. -/
theorem startTime_le_arrival (cfg : SlotConfig) (i : ℕ) : cfg.startTime i ≤ arrival cfg i := by
  cases i with
  | zero => exact le_refl _
  | succ i => exact Nat.le_max_left _ _

/-- The loader adds one process in a slot. -/
theorem arrival_lt_succ (cfg : SlotConfig) (i : ℕ) : arrival cfg i < arrival cfg (i + 1) :=
  Nat.lt_of_succ_le (Nat.le_max_right _ _)

/-- A process arrives by slot `t` if it may start by then and the processes before it
arrive in earlier slots. -/
theorem arrival_le {cfg : SlotConfig} {i t : ℕ} (hstart : cfg.startTime i ≤ t)
    (hbefore : ∀ j < i, arrival cfg j < t) : arrival cfg i ≤ t := by
  cases i with
  | zero => exact hstart
  | succ i => exact Nat.max_le.mpr ⟨hstart, hbefore i (Nat.lt_succ_self i)⟩

/-- The loader at its tests is at work, in the current slot. -/
theorem ClockInv.loaderTest {cfg : SlotConfig} {s : Clocked n} (h : ClockInv cfg s)
    (hl : s.loader = .test) : s.barrier.device ldEvent = .working ∧
      s.barrier.begun ldEvent = s.barrier.time ∧
      (∀ i < s.threads.loaded, arrival cfg i < s.barrier.time) ∧
        s.barrier.time ≤ arrival cfg s.threads.loaded := by
  have hok := h.loader
  rw [hl] at hok
  have hdev : s.barrier.device ldEvent = .working := by
    cases hd : s.barrier.device ldEvent with
    | working => rfl
    | waiting => cases hok.waiting hd
    | detached => cases hok.detached.mp hd
  have hbegun := h.begun_eq hdev
  obtain ⟨hold, hnext⟩ := hok.next (Or.inl rfl)
  unfold slotNow at hold hnext
  rw [if_neg (by simp), hbegun] at hold hnext
  exact ⟨hdev, hbegun, hold, hnext⟩

/-- A loader step keeps the invariant. -/
theorem loaderSlotStep_inv {cfg : SlotConfig} {s s' : Clocked n} (h : ClockInv cfg s)
    (hs : loaderSlotStep cfg s = some s') : ClockInv cfg s' := by
  have hok := h.loader
  unfold loaderSlotStep at hs
  split at hs
  · next hl =>
    obtain ⟨hdev, hbegun, hold, hnext⟩ := h.loaderTest hl
    have hnow : slotNow (decide (LoaderPoint.slot = .slot)) (s.barrier.device ldEvent)
        (s.barrier.begun ldEvent) = s.barrier.time + 1 := by
      rw [hdev, hbegun]
      rfl
    have hcpu := loaderStep_cpu cfg.toConfig s.threads
    split_ifs at hs with hload hstart
    · cases hs
      refine h.ofLoader h.barrier rfl (fun _ _ => ⟨rfl, rfl⟩) rfl rfl ?_
      refine ⟨fun _ => rfl, ⟨fun hx => ?_, fun hx => (by cases hx)⟩, hok.added, fun _ => ?_,
        fun hx => ?_⟩
      · rw [hdev] at hx
        cases hx
      · rw [hnow]
        exact ⟨fun i hi => Nat.lt_succ_of_lt (hold i hi),
          hstart.trans_le (startTime_le_arrival cfg _)⟩
      · rcases hx with hx | hx <;> cases hx
    · cases hs
      have hnowIs : arrival cfg s.threads.loaded = s.barrier.time :=
        le_antisymm (arrival_le (Nat.le_of_not_lt hstart) hold) hnext
      have hloaded : (loaderStep cfg.toConfig s.threads).loaded = s.threads.loaded + 1 := by
        unfold loaderStep
        rw [if_pos hload]
      refine h.ofLoader h.barrier rfl (fun _ _ => ⟨rfl, rfl⟩) hcpu rfl ?_
      dsimp only
      rw [hloaded]
      refine ⟨fun _ => rfl, ⟨fun hx => ?_, fun hx => (by cases hx)⟩, ?_, fun _ => ?_,
        fun hx => ?_⟩
      · rw [hdev] at hx
        cases hx
      · rw [List.range_succ, List.map_append, ← hok.added, List.map_singleton, hnowIs]
      · rw [hnow]
        refine ⟨fun i hi => ?_, hnowIs ▸ Nat.succ_le_of_lt (arrival_lt_succ cfg _)⟩
        rcases Nat.lt_succ_iff_lt_or_eq.mp hi with hi | rfl
        · exact Nat.lt_succ_of_lt (hold i hi)
        · exact hnowIs ▸ Nat.lt_succ_self _
      · rcases hx with hx | hx <;> cases hx
    · cases hs
      have hloaded : (loaderStep cfg.toConfig s.threads).loaded = s.threads.loaded := by
        unfold loaderStep
        rw [if_neg hload]
      refine h.ofLoader h.barrier rfl (fun _ _ => ⟨rfl, rfl⟩) hcpu rfl ?_
      dsimp only
      rw [hloaded, hdev]
      exact ⟨fun hx => (by cases hx), ⟨fun hx => (by cases hx), fun hx => (by cases hx)⟩,
        hok.added,
        fun hx => (by rcases hx with hx | hx <;> cases hx), fun _ => Nat.le_of_not_lt hload⟩
  · next hl =>
    rw [hl] at hok
    split_ifs at hs with hdev
    · obtain ⟨b, hb, rfl⟩ := Option.map_eq_some_iff.mp hs
      have hmoved := nextSlot_moved hb
      refine h.ofLoader (nextSlot_inv h.barrier hb) hmoved.time hmoved.others rfl rfl ?_
      dsimp only
      rw [hmoved.after, hmoved.begun, hl]
      rw [hdev] at hok
      exact ⟨fun _ => rfl, ⟨fun hx => (by cases hx), fun hx => (by cases hx)⟩,
        hok.added, hok.next, hok.all⟩
    · obtain ⟨b, hb, rfl⟩ := Option.map_eq_some_iff.mp hs
      have hmoved := nextSlotWait_moved hb
      refine h.ofLoader (nextSlotWait_inv h.barrier hb) hmoved.time hmoved.others rfl rfl ?_
      dsimp only
      rw [hmoved.after, hmoved.begun]
      rw [hmoved.before] at hok
      exact ⟨fun hx => (by cases hx), ⟨fun hx => (by cases hx), fun hx => (by cases hx)⟩,
        hok.added,
        fun _ => hok.next (Or.inr rfl), fun hx => (by rcases hx with hx | hx <;> cases hx)⟩
  · next hl =>
    obtain ⟨b, hb, rfl⟩ := Option.map_eq_some_iff.mp hs
    rw [hl] at hok
    have hmoved := detachEvent_moved hb
    refine h.ofLoader (detachEvent_inv h.barrier hb) hmoved.time hmoved.others rfl rfl ?_
    dsimp only
    rw [hmoved.after]
    exact ⟨fun hx => (by cases hx), ⟨fun _ => rfl, fun _ => rfl⟩, hok.added,
      fun hx => (by rcases hx with hx | hx <;> cases hx), fun _ => hok.all (Or.inl rfl)⟩
  · cases hs

/-- Every step keeps the invariant. -/
theorem clockInv_step {cfg : SlotConfig} {s s' : Clocked n} {t : Thread n} (h : ClockInv cfg s)
    (hs : ClockStep cfg s t s') : ClockInv cfg s' := by
  unfold ClockStep at hs
  cases t with
  | cpu k => exact cpuSlotStep_inv h hs
  | loader => exact loaderSlotStep_inv h hs
  | timer =>
    obtain ⟨b, hb, rfl⟩ := Option.map_eq_some_iff.mp hs
    obtain ⟨hkept, htime⟩ := timerRoutine_kept hb
    refine ⟨timerRoutine_inv h.barrier hb, fun k t ht => (h.past k t ht).trans htime,
      fun k => ?_, ?_⟩
    · dsimp only
      rw [(hkept k.castSucc).1, (hkept k.castSucc).2]
      exact h.cpu k
    · dsimp only
      rw [(hkept ldEvent).1, (hkept ldEvent).2]
      exact h.loader
  | main =>
    obtain ⟨b, hb, rfl⟩ := Option.map_eq_some_iff.mp hs
    have hinv : BarrierInv b :=
      barrierInv_step h.barrier (show BarrierStep s.barrier .stop b from hb)
    obtain ⟨_, ⟨⟩⟩ := Option.ite_none_right_eq_some.mp hb
    exact ⟨hinv, h.past, h.cpu, h.loader⟩

/-- The invariant holds in every reachable state. -/
theorem clockInv_of_reachable {cfg : SlotConfig} {s : Clocked n}
    (h : Reachable (fun s => s = clockBoot) (ClockStep cfg) s) : ClockInv cfg s :=
  h.invariant (ClockInv cfg) (fun _ hs => hs ▸ clockInv_boot cfg) fun _ _ _ hi hs =>
    clockInv_step hi hs

/-! ## What the clock enforces -/

/-- A CPU step moves the threads as `cpu_routine` does, or not at all. -/
theorem cpuSlotStep_threads {cfg : SlotConfig} {s s' : Clocked n} {k : Fin n}
    (hs : cpuSlotStep cfg s k = some s') :
    s'.threads = s.threads ∨ s'.threads = cpuStep cfg.toConfig s.threads k := by
  unfold cpuSlotStep at hs
  split at hs
  · split_ifs at hs
    · obtain ⟨_, _, rfl⟩ := Option.map_eq_some_iff.mp hs
      exact Or.inl rfl
    · obtain ⟨_, _, rfl⟩ := Option.map_eq_some_iff.mp hs
      exact Or.inr rfl
  · obtain ⟨_, _, rfl⟩ := Option.map_eq_some_iff.mp hs
    exact Or.inl rfl
  · cases hs
    exact Or.inr rfl
  · cases hs
    exact Or.inr rfl

/-- A loader step moves the threads as `ld_routine` does, or not at all. -/
theorem loaderSlotStep_threads {cfg : SlotConfig} {s s' : Clocked n}
    (hs : loaderSlotStep cfg s = some s') :
    s'.threads = s.threads ∨ s'.threads = loaderStep cfg.toConfig s.threads := by
  unfold loaderSlotStep at hs
  split at hs
  · split_ifs at hs
    · cases hs
      exact Or.inl rfl
    · cases hs
      exact Or.inr rfl
    · cases hs
      exact Or.inr rfl
  · split_ifs at hs
    · obtain ⟨_, _, rfl⟩ := Option.map_eq_some_iff.mp hs
      exact Or.inl rfl
    · obtain ⟨_, _, rfl⟩ := Option.map_eq_some_iff.mp hs
      exact Or.inl rfl
  · obtain ⟨_, _, rfl⟩ := Option.map_eq_some_iff.mp hs
    exact Or.inl rfl
  · cases hs

/-- The loader calls `run` on no CPU. -/
theorem loaderSlotStep_runs {cfg : SlotConfig} {s s' : Clocked n}
    (hs : loaderSlotStep cfg s = some s') : s'.runs = s.runs := by
  unfold loaderSlotStep at hs
  split at hs
  · split_ifs at hs <;> cases hs <;> rfl
  · split_ifs at hs <;>
    · obtain ⟨_, _, rfl⟩ := Option.map_eq_some_iff.mp hs
      rfl
  · obtain ⟨_, _, rfl⟩ := Option.map_eq_some_iff.mp hs
    rfl
  · cases hs

/-- On the clock the threads take steps that they can take without it. -/
theorem threads_of_clockStep {cfg : SlotConfig} {s s' : Clocked n} {t : Thread n}
    (hs : ClockStep cfg s t s') : s'.threads = s.threads ∨
      ∃ actor, MachineStep cfg.toConfig s.threads actor s'.threads := by
  unfold ClockStep at hs
  cases t with
  | cpu k => exact (cpuSlotStep_threads hs).imp id fun h => ⟨.cpu k, h⟩
  | loader => exact (loaderSlotStep_threads hs).imp id fun h => ⟨.loader, h⟩
  | timer =>
    obtain ⟨_, _, rfl⟩ := Option.map_eq_some_iff.mp hs
    exact Or.inl rfl
  | main =>
    obtain ⟨_, _, rfl⟩ := Option.map_eq_some_iff.mp hs
    exact Or.inl rfl

/-- The threads of the clocked machine reach no state that they do not reach without a
clock. -/
theorem reachable_threads {cfg : SlotConfig} {s : Clocked n}
    (h : Reachable (fun s => s = clockBoot) (ClockStep cfg) s) :
    Reachable (fun m => m = boot) (MachineStep cfg.toConfig) s.threads := by
  obtain ⟨_, ts, rfl, hrun⟩ := h
  obtain ⟨actors, hthreads⟩ := run_map (fun _ => True) (fun _ _ _ _ _ => trivial)
    (fun _ _ _ _ hs => threads_of_clockStep hs) hrun trivial
  exact ⟨_, actors, rfl, hthreads⟩

/-- The instructions that have been executed. -/
def executedTotal (cfg : SlotConfig) (m : Machine (Fin n)) : ℕ :=
  ∑ a ∈ Finset.range cfg.numProcesses, m.pc a

/-- One more at one place. -/
theorem update_succ_apply {α : Type*} [DecidableEq α] (f : α → ℕ) (a b : α) :
    Function.update f a (f a + 1) b = f b + if b = a then 1 else 0 := by
  by_cases hb : b = a
  · subst hb
    rw [Function.update_self, if_pos rfl]
  · rw [Function.update_of_ne hb, if_neg hb, Nat.add_zero]

/-- `run` executes at most one instruction. -/
theorem executedTotal_run (cfg : SlotConfig) (m : Machine (Fin n)) (a : ℕ) :
    executedTotal cfg (CpuRoutine.run cfg.toConfig m a) ≤ executedTotal cfg m + 1 := by
  unfold executedTotal CpuRoutine.run
  split
  · exact Nat.le_succ _
  · dsimp only
    rw [Finset.sum_congr rfl fun b _ => update_succ_apply m.pc a b, Finset.sum_add_distrib,
      Finset.sum_ite_eq']
    split <;> omega

/-- The instructions executed are no more than the calls of `run`. -/
theorem executedTotal_le {cfg : SlotConfig} {s s' : Clocked n} {t : Thread n}
    (h : executedTotal cfg s.threads ≤ ∑ k, (s.runs k).length) (hs : ClockStep cfg s t s') :
    executedTotal cfg s'.threads ≤ ∑ k, (s'.runs k).length := by
  have hkeep : ∀ actor, executes s.threads actor = none →
      executedTotal cfg (step cfg.toConfig s.threads actor) = executedTotal cfg s.threads := by
    intro actor hx
    unfold executedTotal
    rw [step_pc, hx]
  unfold ClockStep at hs
  cases t with
  | cpu k =>
    dsimp only [clockStep] at hs
    unfold cpuSlotStep at hs
    split at hs
    · next p hp =>
      have hx : executes s.threads (.cpu k) = none := by
        dsimp only [executes]
        rw [hp]
      split_ifs at hs
      · obtain ⟨_, _, rfl⟩ := Option.map_eq_some_iff.mp hs
        exact h
      · obtain ⟨_, _, rfl⟩ := Option.map_eq_some_iff.mp hs
        exact (hkeep _ hx).trans_le h
    · obtain ⟨_, _, rfl⟩ := Option.map_eq_some_iff.mp hs
      exact h
    · next a hp =>
      cases hs
      have hx : executes s.threads (.cpu k) = some a := by
        dsimp only [executes]
        rw [hp]
      have hpc : (cpuStep cfg.toConfig s.threads k).pc =
          (CpuRoutine.run cfg.toConfig s.threads a).pc := by
        have hstep := step_pc cfg.toConfig s.threads (.cpu k)
        rwa [hx] at hstep
      have hlength : ∀ j, (Function.update s.runs k (s.runs k ++ [s.barrier.time]) j).length =
          (s.runs j).length + if j = k then 1 else 0 := by
        intro j
        by_cases hj : j = k
        · subst hj
          rw [Function.update_self, List.length_append, if_pos rfl]
          rfl
        · rw [Function.update_of_ne hj, if_neg hj, Nat.add_zero]
      calc executedTotal cfg (cpuStep cfg.toConfig s.threads k)
          = executedTotal cfg (CpuRoutine.run cfg.toConfig s.threads a) := by
            unfold executedTotal
            rw [hpc]
        _ ≤ executedTotal cfg s.threads + 1 := executedTotal_run cfg s.threads a
        _ ≤ (∑ j, (s.runs j).length) + 1 := Nat.succ_le_succ h
        _ = ∑ j, (Function.update s.runs k (s.runs k ++ [s.barrier.time]) j).length := by
          rw [Finset.sum_congr rfl fun j _ => hlength j, Finset.sum_add_distrib,
            Finset.sum_ite_eq', if_pos (Finset.mem_univ k)]
    · next hslot hstop hexec =>
      cases hs
      have hx : executes s.threads (.cpu k) = none := by
        dsimp only [executes]
        split
        · next a hp => exact absurd hp (hexec a)
        · rfl
      exact (hkeep _ hx).trans_le h
  | loader =>
    rw [loaderSlotStep_runs hs]
    rcases loaderSlotStep_threads hs with ht | ht
    · rwa [ht]
    · rw [ht]
      exact (hkeep .loader rfl).trans_le h
  | timer =>
    obtain ⟨_, _, rfl⟩ := Option.map_eq_some_iff.mp hs
    exact h
  | main =>
    obtain ⟨_, _, rfl⟩ := Option.map_eq_some_iff.mp hs
    exact h

/-- Increasing numbers up to a bound are no more than the numbers up to it. -/
theorem length_le_of_sorted {l : List ℕ} {t : ℕ} (hs : l.Pairwise (· < ·))
    (hle : ∀ x ∈ l, x ≤ t) : l.length ≤ t + 1 := by
  have hnodup : l.Nodup := hs.imp Nat.ne_of_lt
  rw [← List.toFinset_card_of_nodup hnodup, ← Finset.card_range (t + 1)]
  refine Finset.card_le_card fun x hx => ?_
  exact Finset.mem_range.mpr (Nat.lt_succ_of_le (hle x (List.mem_toFinset.mp hx)))

/-- A CPU calls `run` at most once in each time slot, whatever order the threads come in,
so that until the end of slot `_time` no more instructions have been executed than there
are CPUs and slots. -/
theorem one_run_per_slot {cfg : SlotConfig} {s : Clocked n}
    (h : Reachable (fun s => s = clockBoot) (ClockStep cfg) s) :
    (∀ k, (s.runs k).Pairwise (· < ·) ∧ ∀ t ∈ s.runs k, t ≤ s.barrier.time) ∧
      ∑ a ∈ Finset.range cfg.numProcesses, s.threads.pc a ≤ n * (s.barrier.time + 1) := by
  have hinv := clockInv_of_reachable h
  have htotal : executedTotal cfg s.threads ≤ ∑ k, (s.runs k).length :=
    h.invariant (fun s => executedTotal cfg s.threads ≤ ∑ k, (s.runs k).length)
      (fun _ hs => hs ▸ by simp [executedTotal, clockBoot, boot])
      fun _ _ _ hi hs => executedTotal_le hi hs
  refine ⟨fun k => ⟨(hinv.cpu k).sorted, hinv.past k⟩, htotal.trans ?_⟩
  calc ∑ k, (s.runs k).length
      ≤ ∑ _k : Fin n, (s.barrier.time + 1) :=
        Finset.sum_le_sum fun k _ => length_le_of_sorted (hinv.cpu k).sorted (hinv.past k)
    _ = n * (s.barrier.time + 1) := by
      rw [Finset.sum_const, Finset.card_univ, Fintype.card_fin, smul_eq_mul]

/-- A process whose slot has ended has been added. -/
theorem ClockInv.loaded_of_arrival {cfg : SlotConfig} {s : Clocked n} (h : ClockInv cfg s) {i : ℕ}
    (hi : i < cfg.numProcesses) (hlt : arrival cfg i < s.barrier.time) : i < s.threads.loaded := by
  have hok := h.loader
  by_cases hend : s.loader = .leave ∨ s.loader = .ended
  · exact hi.trans_le (hok.all hend)
  · have hpoint : s.loader = .test ∨ s.loader = .slot := by
      cases hl : s.loader with
      | test => exact Or.inl rfl
      | slot => exact Or.inr rfl
      | leave => exact absurd (Or.inl hl) hend
      | ended => exact absurd (Or.inr hl) hend
    have hdev : s.barrier.device ldEvent ≠ .detached :=
      fun hx => hend (Or.inr (hok.detached.mp hx))
    have hnow : s.barrier.time ≤ arrival cfg s.threads.loaded :=
      (h.barrier.slots hdev).1.2.1.trans ((le_slotNow _ _ _).trans (hok.next hpoint).2)
    by_contra hge
    have hmono : StrictMono (arrival cfg) := strictMono_nat_of_lt_succ (arrival_lt_succ cfg)
    exact absurd (hlt.trans_le hnow) (Nat.not_lt.mpr (hmono.monotone (Nat.le_of_not_lt hge)))

/-- Each process is added in the slot that its start time and the process before it say, in
whatever order the threads come: not earlier, and not later, as no slot ends before. -/
theorem arrival_exact {cfg : SlotConfig} {s : Clocked n}
    (h : Reachable (fun s => s = clockBoot) (ClockStep cfg) s) :
    s.added = (List.range s.threads.loaded).map (arrival cfg) ∧
      ∀ i < cfg.numProcesses, arrival cfg i < s.barrier.time → i < s.threads.loaded :=
  ⟨(clockInv_of_reachable h).loader.added,
    fun _ hi hlt => (clockInv_of_reachable h).loaded_of_arrival hi hlt⟩

/-! ## No deadlock -/

/-- A thread other than `main` goes on. -/
def ClockGoesOn (cfg : SlotConfig) (s : Clocked n) : Prop :=
  ∃ t s', t ≠ .main ∧ ClockStep cfg s t s'

theorem clockGoesOn_of_isSome {cfg : SlotConfig} {s : Clocked n} (t : Thread n) (ht : t ≠ .main)
    (h : (clockStep cfg s t).isSome = true) : ClockGoesOn cfg s :=
  let ⟨s', hs⟩ := Option.isSome_iff_exists.mp h
  ⟨t, s', ht, hs⟩

/-- A device at work goes on. -/
theorem ClockInv.working_goesOn {cfg : SlotConfig} {s : Clocked n} (h : ClockInv cfg s)
    {d : Fin (n + 1)} (hd : s.barrier.device d = .working) : ClockGoesOn cfg s := by
  have hnext : (nextSlot s.barrier d).isSome = true := by
    unfold nextSlot
    rw [if_pos hd]
    rfl
  have hdetach : (detachEvent s.barrier d).isSome = true := by
    unfold detachEvent
    rw [if_pos hd]
    rfl
  cases d using Fin.lastCases with
  | last =>
    replace hd : s.barrier.device ldEvent = .working := hd
    refine clockGoesOn_of_isSome .loader (fun hx => by cases hx) ?_
    dsimp only [clockStep]
    unfold loaderSlotStep
    split
    · split_ifs <;> rfl
    · rw [if_pos hd, Option.isSome_map]
      exact hnext
    · rw [Option.isSome_map]
      exact hdetach
    · next hl =>
      have hend := h.loader.detached.mpr hl
      rw [hd] at hend
      cases hend
  | cast k =>
    refine clockGoesOn_of_isSome (.cpu k) (fun hx => by cases hx) ?_
    dsimp only [clockStep]
    unfold cpuSlotStep
    split
    · rw [if_pos hd, Option.isSome_map]
      exact hnext
    · rw [Option.isSome_map]
      exact hdetach
    · rfl
    · rfl

/-- A device whose `next_slot` may return lets the machine go on. -/
theorem ClockInv.waiting_goesOn {cfg : SlotConfig} {s : Clocked n} (h : ClockInv cfg s)
    {d : Fin (n + 1)} (hd : s.barrier.device d = .waiting) (hdone : s.barrier.done d = false) :
    ClockGoesOn cfg s := by
  have hwait : (nextSlotWait s.barrier d).isSome = true := by
    unfold nextSlotWait
    rw [if_pos ⟨hd, hdone⟩]
    rfl
  have hnot : s.barrier.device d ≠ .working := by
    rw [hd]
    exact DevicePoint.noConfusion
  cases d using Fin.lastCases with
  | last =>
    have hl := h.loader.waiting hd
    replace hnot : s.barrier.device ldEvent ≠ .working := hnot
    refine clockGoesOn_of_isSome .loader (fun hx => by cases hx) ?_
    dsimp only [clockStep]
    unfold loaderSlotStep
    rw [hl]
    dsimp only
    rw [if_neg hnot, Option.isSome_map]
    exact hwait
  | cast k =>
    have hslot := (h.cpu k).waiting hd
    refine clockGoesOn_of_isSome (.cpu k) (fun hx => by cases hx) ?_
    dsimp only [clockStep]
    unfold cpuSlotStep
    cases hp : (s.threads.cpu k).point with
    | slot p =>
      dsimp only
      rw [if_neg hnot, Option.isSome_map]
      exact hwait
    | _ =>
      rw [hp] at hslot
      cases hslot

/-- As long as a CPU or the loader has not detached from the timer, not all threads wait,
whatever the scheduler and the loader do. -/
theorem clock_never_stuck {cfg : SlotConfig} {s : Clocked n}
    (h : Reachable (fun s => s = clockBoot) (ClockStep cfg) s)
    (hd : ∃ d, s.barrier.device d ≠ .detached) : ClockGoesOn cfg s := by
  have hinv := clockInv_of_reachable h
  obtain ⟨d, hd⟩ := hd
  obtain ⟨act, b, hne, hstep⟩ := hinv.barrier.progress hd
  unfold BarrierStep at hstep
  cases act with
  | timer =>
    refine clockGoesOn_of_isSome .timer (fun hx => by cases hx) ?_
    dsimp only [clockStep]
    rw [Option.isSome_map, Option.isSome_iff_exists]
    exact ⟨b, hstep⟩
  | begin e => exact hinv.working_goesOn (nextSlot_moved hstep).before
  | wake e =>
    obtain ⟨⟨hwait, hdone⟩, -⟩ := Option.ite_none_right_eq_some.mp hstep
    exact hinv.waiting_goesOn hwait hdone
  | detach e => exact hinv.working_goesOn (detachEvent_moved hstep).before
  | stop => exact absurd rfl hne

/-! ## One CPU and three processes -/

/-- The first process of the configuration starts behind the others. -/
def lateStart : SlotConfig where
  numProcesses := 3
  size _ := 1
  prio _ := 0
  timeSlot := 2
  numProcesses_lt := by decide
  startTime a := 1 - a

/-- The loader and the CPU go through two slots. -/
def twoSlots : List (Thread 1) :=
  let next : List (Thread 1) :=
    [.loader, .cpu ⟨0, Nat.one_pos⟩] ++ List.replicate 8 .timer ++
      [.loader, .cpu ⟨0, Nat.one_pos⟩]
  [.loader, .cpu ⟨0, Nat.one_pos⟩] ++ next ++ [.loader] ++
    List.replicate 3 (.cpu ⟨0, Nat.one_pos⟩) ++ next

/-- The first process is added and executed in slot 1, and slot 2 has begun. -/
theorem reachable_twoSlots : ∃ s : Clocked 1,
    Reachable (fun s => s = clockBoot) (ClockStep lateStart) s ∧ s.barrier.time = 2 ∧
      s.runs ⟨0, Nat.one_pos⟩ = [1] ∧ s.threads.loaded = 1 ∧
        s.barrier.device ldEvent = .working := by
  have hnext : ∀ (s : Clocked 1) t s', clockStep lateStart s t = some s' →
      ClockStep lateStart s t s' := fun _ _ _ h => h
  obtain ⟨s, hrun, hs⟩ := exists_run_of_map (fun (_ : Clocked 1) _ => True) hnext clockBoot
    twoSlots
    (fun s => (s.barrier.time, s.runs ⟨0, Nat.one_pos⟩, s.threads.loaded,
      s.barrier.device ldEvent)) (2, [1], 1, .working) (by decide +kernel)
  obtain ⟨htime, hs⟩ := Prod.mk.inj hs
  obtain ⟨hruns, hs⟩ := Prod.mk.inj hs
  obtain ⟨hloaded, hdev⟩ := Prod.mk.inj hs
  exact ⟨s, ⟨clockBoot, twoSlots, rfl, hrun.unguard⟩, htime, hruns, hloaded, hdev⟩

/-- No more than three instructions have been executed after two slots of one CPU. -/
theorem one_run_per_slot_twoSlots : ∃ s : Clocked 1, s.runs ⟨0, Nat.one_pos⟩ = [1] ∧
    ∑ a ∈ Finset.range 3, s.threads.pc a ≤ 3 := by
  obtain ⟨s, hreach, htime, hruns, -, -⟩ := reachable_twoSlots
  have hle := (one_run_per_slot hreach).2
  rw [htime] at hle
  exact ⟨s, hruns, hle⟩

/-- The first process has been added in its slot. -/
theorem arrival_exact_twoSlots : ∃ s : Clocked 1, s.added = [1] ∧
    ∀ i < 3, arrival lateStart i < 2 → i < 1 := by
  obtain ⟨s, hreach, htime, -, hloaded, -⟩ := reachable_twoSlots
  obtain ⟨hadded, hadd⟩ := arrival_exact hreach
  rw [hloaded] at hadded hadd
  rw [htime] at hadd
  exact ⟨s, hadded, hadd⟩

/-- The machine goes on after two slots, in which the loader has not added all processes.
-/
theorem clock_never_stuck_twoSlots : ∃ s : Clocked 1, s.barrier.time = 2 ∧
    ClockGoesOn lateStart s := by
  obtain ⟨s, hreach, htime, -, -, hdev⟩ := reachable_twoSlots
  exact ⟨s, htime, clock_never_stuck hreach ⟨ldEvent, by rw [hdev]; decide⟩⟩

end OsSim.SlotClock
