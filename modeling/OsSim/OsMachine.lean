import OsSim.CpuCapacity
import OsSim.VirtualFrames

/-!
# The whole machine

The CPUs, the loader, the scheduler, the processes with their registers and page tables,
and the devices they share. A CPU that comes to `run` executes an instruction of its
process on the shared devices; every other step moves a thread only. Instructions are
whole steps, as they are under `mmvm_lock`.
-/

namespace OsSim.OsMachine

open MemoryWords MemoryDevice MemoryPageTable MemoryMapping MemoryLibrary MemoryFrames
open MemoryInstruction ProcessRun SchedulerQueue SchedulerMlq CpuRoutine CpuExecution

/-- What `read_config` reads, with the text of each process. -/
structure OsConfig where
  /-- `num_processes`. -/
  numProcesses : ℕ
  /-- `code->text` of each process. -/
  code : ℕ → List Inst
  /-- The priority of each process. -/
  prio : ℕ → BitVec 32
  /-- `time_slot`. -/
  timeSlot : ℤ
  /-- `memramsz`. -/
  memramsz : CInt
  /-- `memswpsz`; the first is the size of the active swap device. -/
  memswpsz : List CInt
  /-- What `malloc` leaves in `regs` of each process. -/
  regs : ℕ → Fin 10 → Addr
  /-- What `malloc` leaves in `vma0->vm_freerg_list`, which `init_mm` takes for its end. -/
  vmFreergList : ℕ → Addr
  /-- `num_processes` is an `int`. -/
  numProcesses_lt : numProcesses < 2 ^ 31

/-- What the threads see of the configuration. -/
def OsConfig.toConfig (cfg : OsConfig) : Config where
  numProcesses := cfg.numProcesses
  size a := (cfg.code a).length
  prio := cfg.prio
  timeSlot := cfg.timeSlot
  numProcesses_lt := cfg.numProcesses_lt

/-- The state of the machine. -/
structure Os (κ : Type) where
  /-- The threads, the scheduler and the counters of the processes. -/
  threads : Machine κ
  /-- `mm` of each process, which `init_mm` has set up once the process is loaded. -/
  mm : ℕ → MmStruct
  /-- `regs` of each process. -/
  regs : ℕ → Fin 10 → Addr
  /-- `mram`. -/
  mram : MemphyStruct
  /-- `active_mswp`. -/
  activeMswp : MemphyStruct

/-- `main` has set up the devices and created the threads. -/
def osBoot {κ : Type} (cfg : OsConfig) : Os κ where
  threads := boot
  mm _ := initMm
  regs := cfg.regs
  mram := initMemphy (toAddr cfg.memramsz) true
  activeMswp := initMemphy (toAddr (cfg.memswpsz.getD 0 0)) true

variable {κ : Type}

/-- The processes and what the kernel shares among them. -/
def Os.kernel (cfg : OsConfig) (s : Os κ) : Kernel ℕ where
  pcb a := ⟨s.mm a, pidOf a, cfg.code a, s.regs a, s.threads.pc a⟩
  sched := s.threads.sched
  mram := s.mram
  activeMswp := s.activeMswp

/-- The machine with the memory and the registers that a kernel has. -/
def Os.setKernel (s : Os κ) (k : Kernel ℕ) : Os κ where
  threads := s.threads
  mm a := (k.pcb a).mm
  regs a := (k.pcb a).regs
  mram := k.mram
  activeMswp := k.activeMswp

/-- The end of `vm_freerg_list`. An `ALLOC` that finds it as `init_mm` left it walks past
its one region, or copies the node behind it, so the first one follows that word. -/
def Os.freergEnd (cfg : OsConfig) (s : Os κ) (a : ℕ) : Except Fault Unit :=
  match (s.kernel cfg).fetch a with
  | some ins =>
    if ins.opcode = .alloc ∧ cfg.vmFreergList a ≠ 0 then .error (.vmFreergList (cfg.vmFreergList a))
    else .ok ()
  | none => .ok ()

variable [DecidableEq κ]

/-- One step of a thread; a CPU at `run` executes a whole instruction. `ALLOC`, `FREE`,
`READ` and `WRITE` hold `mmvm_lock` while they work on the shared devices, so no other
thread sees them halfway; a `SYSCALL` does not take it, and is a single step here only. -/
def osStep (uninit : Addr → Byte) (cfg : OsConfig) (s : Os κ) (actor : Actor κ) :
    Except Fault (Os κ) :=
  match executes s.threads actor with
  | none => .ok {s with threads := step cfg.toConfig s.threads actor}
  | some a => do
    s.freergEnd cfg a
    let r ← ProcessRun.run uninit (s.kernel cfg) a
    .ok {s.setKernel r.2 with threads := step cfg.toConfig s.threads actor}

/-- The steps of threads in some order. -/
def osRun (uninit : Addr → Byte) (cfg : OsConfig) (actors : List (Actor κ)) : Except Fault (Os κ) :=
  actors.foldlM (osStep uninit cfg) (osBoot cfg)

/-! ## The threads of the machine -/

/-- A step of the machine moves its threads as a step of the threads does. -/
theorem osStep_threads {uninit : Addr → Byte} {cfg : OsConfig} {s s' : Os κ} {actor : Actor κ}
    (h : osStep uninit cfg s actor = .ok s') : s'.threads = step cfg.toConfig s.threads actor := by
  unfold osStep at h
  split at h
  · cases h
    rfl
  · obtain ⟨_, _, h⟩ := RunSteps.ok_of_bind h
    obtain ⟨r, _, h⟩ := RunSteps.ok_of_bind h
    cases h
    rfl

/-- A step that executes nothing is a step of the threads. -/
theorem osStep_of_none {uninit : Addr → Byte} {cfg : OsConfig} {s : Os κ} {actor : Actor κ}
    (h : executes s.threads actor = none) :
    osStep uninit cfg s actor = .ok {s with threads := step cfg.toConfig s.threads actor} := by
  unfold osStep
  rw [h]

omit [DecidableEq κ] in
/-- Where `malloc` left `NULL`, a walk of `vm_freerg_list` ends. -/
theorem freergEnd_of_null {cfg : OsConfig} {a : ℕ} (h : cfg.vmFreergList a = 0) (s : Os κ) :
    s.freergEnd cfg a = .ok () := by
  unfold Os.freergEnd
  split
  · exact if_neg fun hne => hne.2 h
  · rfl

/-- A step that executes an instruction of a process whose list ends in `NULL` is its
`run`. -/
theorem osStep_of_some {uninit : Addr → Byte} {cfg : OsConfig} {s : Os κ} {actor : Actor κ} {a : ℕ}
    (h : executes s.threads actor = some a) (hnull : cfg.vmFreergList a = 0) {r : Int × Kernel ℕ}
    (hr : ProcessRun.run uninit (s.kernel cfg) a = .ok r) : osStep uninit cfg s actor =
      .ok {s.setKernel r.2 with threads := step cfg.toConfig s.threads actor} := by
  unfold osStep
  rw [h]
  dsimp only
  rw [freergEnd_of_null hnull, hr]
  rfl

/-! ## The memory of the machine -/

/-- The memory of the processes. -/
def Os.shared (s : Os κ) : SharedMem ℕ := ⟨s.mm, s.mram, s.activeMswp⟩

omit [DecidableEq κ] in
/-- The kernel sees `pc` and the text of a process. -/
theorem kernel_fetch (cfg : OsConfig) (s : Os κ) (a : ℕ) :
    (s.kernel cfg).fetch a = (cfg.code a)[s.threads.pc a]? := rfl

omit [DecidableEq κ] in
/-- An instruction of one process stores its registers and its memory, and nothing of the
others. -/
theorem setKernel_store (cfg : OsConfig) (s : Os κ) (a : ℕ) (c : ProcMem)
    (regs : Fin 10 → Addr) :
    (s.setKernel ((s.kernel cfg).store a (((s.kernel cfg).pcb a).advance c.mm regs) c)).shared =
        s.shared.store a c ∧
      (s.setKernel ((s.kernel cfg).store a (((s.kernel cfg).pcb a).advance c.mm regs) c)).regs =
        Function.update s.regs a regs := by
  unfold Os.shared SharedMem.store Os.setKernel Kernel.store
  refine ⟨?_, ?_⟩
  · congr 1
    funext b
    by_cases hb : b = a
    · subst hb
      simp only [Function.update_self, Pcb.advance]
    · simp only [Function.update_of_ne hb, Os.kernel]
  · funext b
    by_cases hb : b = a
    · subst hb
      simp only [Function.update_self, Pcb.advance]
    · simp only [Function.update_of_ne hb, Os.kernel]

end OsSim.OsMachine
