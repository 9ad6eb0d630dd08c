import OsSim.MemoryInstruction
import OsSim.SchedulerMlq

/-!
# One instruction of a process under the kernel

`run` fetches the instruction at `pc`, executes it on the memory of the process
and the shared devices, and puts the word of a successful `READ` into a
register. The kernel finds the caller of a system call by its pid.
-/

namespace OsSim.ProcessRun

open MemoryWords MemoryDevice MemoryPageTable MemoryMapping MemoryLibrary MemoryInstruction
open SchedulerQueue SchedulerMlq RunSteps

/-- The fields of `struct pcb_t` that the instructions of a process reach. -/
structure Pcb where
  /-- `mm`. -/
  mm : MmStruct
  /-- `pid`. -/
  pid : UInt
  /-- `code->text`, as long as `code->size` says. -/
  code : List Inst
  /-- `regs`. -/
  regs : Fin 10 → Addr
  /-- `pc`. -/
  pc : ℕ

/-- The processes with what the kernel shares among them. -/
structure Kernel (ι : Type) where
  /-- The control block of every process. -/
  pcb : ι → Pcb
  /-- The queues of the scheduler. -/
  sched : Sched ι
  /-- `mram`. -/
  mram : MemphyStruct
  /-- `active_mswp`. -/
  activeMswp : MemphyStruct

variable {ι : Type}

/-- The pid of a process. -/
def Kernel.pid (k : Kernel ι) (i : ι) : UInt := (k.pcb i).pid

/-- Whether `find_process_by_pid` finds a process under the pid of this one. -/
def Kernel.listed (k : Kernel ι) (i : ι) : Bool := (findProcessByPid k.pid k.sched (k.pid i)).isSome

/-- What the memory functions reach from a process. -/
def Kernel.mem (k : Kernel ι) (i : ι) : ProcMem := ⟨(k.pcb i).mm, k.mram, k.activeMswp, k.listed i⟩

/-- The instruction a process executes next. -/
def Kernel.fetch (k : Kernel ι) (i : ι) : Option Inst := (k.pcb i).code[(k.pcb i).pc]?

/-- `proc->regs[index] = val`, for the word of a successful `READ`. -/
def putReg (regs : Fin 10 → Addr) (index : Addr) (val : Option UInt) :
    Except Fault (Fin 10 → Addr) :=
  match val with
  | none => .ok regs
  | some val =>
    if h : index.toNat < 10 then .ok (Function.update regs ⟨index.toNat, h⟩ (val.setWidth 64))
    else .error (.regs index)

/-- A control block behind an instruction. -/
def Pcb.advance (proc : Pcb) (mm : MmStruct) (regs : Fin 10 → Addr) : Pcb :=
  {proc with mm := mm, pc := proc.pc + 1, regs := regs}

variable [DecidableEq ι]

/-- A process with its new control block, and the devices after its instruction. -/
def Kernel.store (k : Kernel ι) (i : ι) (proc : Pcb) (c : ProcMem) : Kernel ι :=
  {k with pcb := Function.update k.pcb i proc, mram := c.mram, activeMswp := c.activeMswp}

variable (uninit : Addr → Byte)

/-- `run`: the status, and the kernel afterwards. -/
def run (k : Kernel ι) (i : ι) : Except Fault (Int × Kernel ι) :=
  match k.fetch i with
  | none => .ok (1, k)
  | some ins => do
    let r ← execInst uninit (k.mem i) ins
    let regs ← putReg (k.pcb i).regs ins.arg2 r.2.1
    .ok (r.1, k.store i ((k.pcb i).advance r.2.2.mm regs) r.2.2)

/-- What happens to the kernel. -/
inductive KernelOp (ι : Type)
  /-- A process executes an instruction. -/
  | run (i : ι)
  /-- The scheduler is called, by whomever. -/
  | schedule (sched : Sched ι)

/-- One step that does not run into undefined behaviour. -/
def KernelStep (k : Kernel ι) (op : KernelOp ι) (k' : Kernel ι) : Prop :=
  match op with
  | .run i => ∃ n, run uninit k i = .ok (n, k')
  | .schedule sched => k' = {k with sched := sched}

/-- Loaded processes with pids of their own, over devices that `init_memphy` has
set up. -/
structure KernelBoot (k : Kernel ι) : Prop where
  /-- Fresh memory managers. -/
  mm : ∀ i, (k.pcb i).mm = initMm
  /-- Distinct pids. -/
  pid_inj : Function.Injective k.pid
  /-- A fresh RAM. -/
  mram : ∃ size flag, k.mram = initMemphy size flag
  /-- A fresh swap device. -/
  activeMswp : ∃ size flag, k.activeMswp = initMemphy size flag

/-- The ways a `run` can go: no instruction is left, or one is executed. -/
theorem run_cases {k k' : Kernel ι} {i : ι} {n : Int} (h : run uninit k i = .ok (n, k')) :
    (k.fetch i = none ∧ n = 1 ∧ k' = k) ∨
    ∃ ins d c regs, k.fetch i = some ins ∧ execInst uninit (k.mem i) ins = .ok (n, d, c) ∧
      putReg (k.pcb i).regs ins.arg2 d = .ok regs ∧
      k' = k.store i ((k.pcb i).advance c.mm regs) c := by
  unfold run at h
  split at h
  · next hf =>
    cases h
    exact Or.inl ⟨hf, rfl, rfl⟩
  · next ins hf =>
    obtain ⟨⟨n', d, c⟩, he, h⟩ := ok_of_bind h
    obtain ⟨regs, hp, h⟩ := ok_of_bind h
    cases h
    exact Or.inr ⟨ins, d, c, regs, hf, he, hp, rfl⟩

/-- The control block that was stored. -/
theorem store_pcb_self (k : Kernel ι) (i : ι) (proc : Pcb) (c : ProcMem) :
    (k.store i proc c).pcb i = proc := by
  dsimp only [Kernel.store]
  rw [Function.update_self]

/-- An instruction reaches no other control block. -/
theorem store_pcb_of_ne (k : Kernel ι) {i j : ι} (h : j ≠ i) (proc : Pcb) (c : ProcMem) :
    (k.store i proc c).pcb j = k.pcb j := by
  dsimp only [Kernel.store]
  rw [Function.update_of_ne h]

/-- No instruction changes the pid of a process. -/
theorem store_advance_pid (k : Kernel ι) (i : ι) (mm : MmStruct) (regs : Fin 10 → Addr)
    (c : ProcMem) : (k.store i ((k.pcb i).advance mm regs) c).pid = k.pid := by
  funext j
  unfold Kernel.pid
  by_cases hj : j = i
  · rw [hj, store_pcb_self]
    rfl
  · rw [store_pcb_of_ne k hj]

end OsSim.ProcessRun
