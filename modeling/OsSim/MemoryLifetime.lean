import OsSim.MemoryDrain
import OsSim.MemoryIsolation

/-!
# The frames of finished processes

`cpu_routine` takes a process that has run to completion off the running list
and frees its control block; its memory manager is not looked at again. No frame
returns to a free list on the way, so that a list is complete at the end only if
nothing was ever taken from it.
-/

namespace OsSim.MemoryLifetime

open MemoryWords MemoryDevice MemoryPageTable MemoryMapping MemoryLibrary MemoryInstruction
open MemoryDrain MemoryIsolation ProcessRun RunSteps

variable {uninit : Addr → Byte} {ι : Type}

/-- The kernel, and which processes have been finished and freed. -/
structure Life (ι : Type) where
  /-- The processes with what they share. -/
  kernel : Kernel ι
  /-- Whether `free(proc)` has been called. -/
  freed : ι → Bool

/-- What happens in the life of the system. -/
inductive LifeOp (ι : Type)
  /-- A process executes an instruction. -/
  | run (i : ι)
  /-- The scheduler is called, by whomever. -/
  | schedule (sched : SchedulerMlq.Sched ι)
  /-- The finish branch of `cpu_routine`. -/
  | finish (i : ι)

/-- A process whose `pc` is behind its last instruction. -/
def Completed (k : Kernel ι) (i : ι) : Prop := (k.pcb i).pc = (k.pcb i).code.length

instance (k : Kernel ι) (i : ι) : Decidable (Completed k i) := inferInstanceAs (Decidable (_ = _))

/-- All processes are loaded and none has been freed. -/
def LifeBoot (s : Life ι) : Prop := KernelBoot s.kernel ∧ ∀ i, s.freed i = false

/-- The frames a step takes from a device, by what its instruction takes. -/
def taken (count : ProcMem → Inst → ℕ) (s : Life ι) (op : LifeOp ι) : ℕ :=
  match op with
  | .run i => ((s.kernel.fetch i).map (count (s.kernel.mem i))).getD 0
  | .schedule _ | .finish _ => 0

/-- A step takes no frame from RAM. -/
def RamKept (s : Life ι) (op : LifeOp ι) : Prop :=
  taken ramTaken s op = 0 ∨ s.kernel.mram.freeFpList = []

/-- A step takes no frame from swap. -/
def SwapKept (s : Life ι) (op : LifeOp ι) : Prop :=
  taken swapTaken s op = 0 ∨ s.kernel.activeMswp.freeFpList = []

variable [DecidableEq ι]

/-- `finish_proc`, then `free`. -/
def finishAndFree (s : Life ι) (i : ι) : Life ι where
  kernel := {s.kernel with sched := SchedulerMlq.finishProc s.kernel.pid s.kernel.sched i}
  freed := Function.update s.freed i true

/-- One step that does not run into undefined behaviour: a process that has not been
freed executes an instruction, or is finished when none is left. -/
def LifeStep (uninit : Addr → Byte) (s : Life ι) (op : LifeOp ι) (s' : Life ι) : Prop :=
  match op with
  | .run i => s.freed i = false ∧ ∃ k, KernelStep uninit s.kernel (.run i) k ∧
      s' = {s with kernel := k}
  | .schedule sched => s' = {s with kernel := {s.kernel with sched := sched}}
  | .finish i => s.freed i = false ∧ Completed s.kernel i ∧ s' = finishAndFree s i

/-- The entries of every process are present or unwritten. -/
def AllMarked (s : Life ι) : Prop := ∀ i, EntriesMarked (s.kernel.pcb i).mm

omit [DecidableEq ι] in
theorem allMarked_of_lifeBoot {s : Life ι} (h : LifeBoot s) : AllMarked s := by
  intro i
  rw [h.1.mm i]
  exact entriesMarked_initMm

/-- A step leaves of both free lists what its instruction did not take. -/
theorem lifeStep_free {s s' : Life ι} {op : LifeOp ι} (hE : AllMarked s)
    (h : LifeStep uninit s op s') : AllMarked s' ∧
      s'.kernel.mram.freeFpList = s.kernel.mram.freeFpList.drop (taken ramTaken s op) ∧
      s'.kernel.activeMswp.freeFpList =
        s.kernel.activeMswp.freeFpList.drop (taken swapTaken s op) := by
  cases op with
  | schedule sched =>
    cases h
    exact ⟨hE, rfl, rfl⟩
  | finish i =>
    obtain ⟨_, _, rfl⟩ := h
    exact ⟨hE, rfl, rfl⟩
  | run i =>
    obtain ⟨_, k, ⟨n, hrun⟩, rfl⟩ := h
    obtain ⟨hf, _, rfl⟩ | ⟨ins, d, c, regs, hf, he, _, rfl⟩ := run_cases uninit hrun
    · have hnone : ∀ count, taken count s (.run i) = 0 := by
        intro count
        rw [taken, hf]
        rfl
      rw [hnone, hnone]
      exact ⟨hE, rfl, rfl⟩
    · have hsome : ∀ count, taken count s (.run i) = count (s.kernel.mem i) ins := by
        intro count
        rw [taken, hf]
        rfl
      have hstep : InstStep uninit (s.kernel.mem i) ins c := ⟨n, d, he⟩
      obtain ⟨hram, hswp⟩ := inst_free (c := s.kernel.mem i) (hE i) hstep
      rw [hsome, hsome]
      refine ⟨fun j => ?_, hram, hswp⟩
      dsimp only
      by_cases hj : j = i
      · rw [hj, store_pcb_self]
        exact @EntryInvariant.inst uninit _ entryInvariant_entriesMarked (s.kernel.mem i) _ _ (hE i)
          hstep
      · rw [store_pcb_of_ne s.kernel hj]
        exact hE j

/-- In every state of every run each free list is the end of the one it started with,
and it is complete exactly if no step has taken a frame; finishing and freeing
processes brings none back. -/
theorem frames_never_returned {s s' : Life ι} {ops : List (LifeOp ι)} (hb : LifeBoot s)
    (h : Run (LifeStep uninit) s ops s') :
    (s'.kernel.mram.freeFpList <:+ s.kernel.mram.freeFpList ∧
      (s'.kernel.mram.freeFpList.Perm s.kernel.mram.freeFpList ↔
        Run (Guarded RamKept (LifeStep uninit)) s ops s')) ∧
    s'.kernel.activeMswp.freeFpList <:+ s.kernel.activeMswp.freeFpList ∧
      (s'.kernel.activeMswp.freeFpList.Perm s.kernel.activeMswp.freeFpList ↔
        Run (Guarded SwapKept (LifeStep uninit)) s ops s') := by
  have hmarked := allMarked_of_lifeBoot hb
  have hram : ∀ (s : Life ι) op s', AllMarked s → LifeStep uninit s op s' → AllMarked s' ∧
      s'.kernel.mram.freeFpList = s.kernel.mram.freeFpList.drop (taken ramTaken s op) :=
    fun s op s' hE hstep => ⟨(lifeStep_free hE hstep).1, (lifeStep_free hE hstep).2.1⟩
  have hswp : ∀ (s : Life ι) op s', AllMarked s → LifeStep uninit s op s' → AllMarked s' ∧
      s'.kernel.activeMswp.freeFpList =
        s.kernel.activeMswp.freeFpList.drop (taken swapTaken s op) :=
    fun s op s' hE hstep => ⟨(lifeStep_free hE hstep).1, (lifeStep_free hE hstep).2.2⟩
  exact ⟨⟨h.suffix_of_drop hram hmarked, h.perm_iff_of_drop hram hmarked⟩,
    h.suffix_of_drop hswp hmarked, h.perm_iff_of_drop hswp hmarked⟩

/-! ## A process that runs to completion -/

/-- The state after a step, computed. -/
def lifeNext (uninit : Addr → Byte) (s : Life ι) : LifeOp ι → Option (Life ι)
  | .run i =>
    if s.freed i = false then
      (kernelNext uninit s.kernel (.run i)).map fun k => {s with kernel := k}
    else none
  | .schedule sched => some {s with kernel := {s.kernel with sched := sched}}
  | .finish i =>
    if s.freed i = false ∧ Completed s.kernel i then some (finishAndFree s i) else none

theorem lifeStep_of_lifeNext (uninit : Addr → Byte) (s : Life ι) (op : LifeOp ι) (s' : Life ι)
    (h : lifeNext uninit s op = some s') : LifeStep uninit s op s' := by
  cases op with
  | schedule sched => exact (Option.some.inj h).symm
  | run i =>
    rw [lifeNext] at h
    split at h
    · next hf =>
      obtain ⟨k, hk, rfl⟩ := Option.map_eq_some_iff.mp h
      exact ⟨hf, k, kernelStep_of_kernelNext uninit _ _ _ hk, rfl⟩
    · cases h
  | finish i =>
    rw [lifeNext] at h
    split at h
    · next hf => exact ⟨hf.1, hf.2, (Option.some.inj h).symm⟩
    · cases h

/-- One process with a program, over two frames of RAM. -/
def oneProcess (code : List Inst) : Life Unit where
  kernel := ⟨fun _ => loaded 1 code, SchedulerMlq.initScheduler, initMemphy 8192 true,
    initMemphy 0 true⟩
  freed _ := false

theorem lifeBoot_oneProcess (code : List Inst) : LifeBoot (oneProcess code) :=
  ⟨⟨fun _ => rfl, fun _ _ _ => rfl, ⟨_, _, rfl⟩, ⟨_, _, rfl⟩⟩, fun _ => rfl⟩

/-- The scheduler that has dispatched the process it was given. -/
def itsTurn : SchedulerMlq.Sched Unit :=
  (SchedulerMlq.getMlqProc
    (SchedulerMlq.addMlqProc (fun _ => 0) SchedulerMlq.initScheduler ())).2

/-- A program that allocates a variable and releases it. -/
def allocFree : List Inst := [⟨.alloc, 300, 0, 0, 0⟩, ⟨.free, 0, 0, 0, 0⟩]

/-- The only process is dispatched, executes both of its instructions, is finished and
freed. -/
def lifetime : List (LifeOp Unit) := [.schedule itsTurn, .run (), .run (), .finish ()]

/-- The process takes the first frame to its grave. -/
theorem exists_lifetime : ∃ s', Run (LifeStep fun _ => 0) (oneProcess allocFree) lifetime s' ∧
    s'.freed () = true ∧ s'.kernel.mram.freeFpList = [1] ∧
      s'.kernel.activeMswp.freeFpList = [] := by
  obtain ⟨s', hrun, hf⟩ := exists_run_of_map (fun (_ : Life Unit) _ => True)
    (lifeStep_of_lifeNext fun _ => 0) (oneProcess allocFree) lifetime
    (fun s => (s.freed (), s.kernel.mram.freeFpList, s.kernel.activeMswp.freeFpList))
    (true, [1], []) rfl
  obtain ⟨hfreed, hlists⟩ := Prod.mk.inj hf
  obtain ⟨hram, hswp⟩ := Prod.mk.inj hlists
  exact ⟨s', hrun.unguard, hfreed, hram, hswp⟩

/-- Once every process has been freed, the free list of RAM need not be complete. -/
theorem frames_lost_with_process : ¬ ∀ (uninit : Addr → Byte) (s s' : Life Unit)
    (ops : List (LifeOp Unit)), LifeBoot s → Run (LifeStep uninit) s ops s' →
      (∀ i, s'.freed i = true) →
        s'.kernel.mram.freeFpList.Perm s.kernel.mram.freeFpList ∧
          s'.kernel.activeMswp.freeFpList.Perm s.kernel.activeMswp.freeFpList := by
  intro h
  obtain ⟨s', hrun, hfreed, hram, -⟩ := exists_lifetime
  have hp := (h _ _ _ _ (lifeBoot_oneProcess _) hrun fun _ => hfreed).1
  rw [hram] at hp
  exact absurd hp.length_eq (by decide)

/-- One of two frames is left at the end of the list, a step has taken the other one, and
none has taken a frame of the swap device. -/
theorem frames_never_returned_allocFree : ∃ s',
    Run (LifeStep fun _ => 0) (oneProcess allocFree) lifetime s' ∧ s'.freed () = true ∧
      s'.kernel.mram.freeFpList = [1] ∧
      s'.kernel.mram.freeFpList <:+ (oneProcess allocFree).kernel.mram.freeFpList ∧
      ¬Run (Guarded RamKept (LifeStep fun _ => 0)) (oneProcess allocFree) lifetime s' ∧
      Run (Guarded SwapKept (LifeStep fun _ => 0)) (oneProcess allocFree) lifetime s' := by
  obtain ⟨s', hrun, hfreed, hram, hswp⟩ := exists_lifetime
  obtain ⟨⟨hend, hkept⟩, -, hswapKept⟩ :=
    frames_never_returned (lifeBoot_oneProcess allocFree) hrun
  refine ⟨s', hrun, hfreed, hram, hend, fun hall => ?_, hswapKept.mp ?_⟩
  · have hp := hkept.mpr hall
    rw [hram] at hp
    exact absurd hp.length_eq (by decide)
  · rw [hswp]
    exact List.Perm.refl _

end OsSim.MemoryLifetime
