import OsSim.MemorySymbols
import OsSim.ProcessRun

/-!
# What one `run` may change

The control block with the fields that no instruction is meant to reach, and the
frame of one `run`: `pc` advances by one, a `READ` that succeeds writes one register,
everything else stays. The frame holds exactly where the instruction stays inside the
symbol table, its area and the register file.
-/

namespace OsSim.ProcessFrame

open MemoryWords MemoryDevice MemoryPageTable MemoryMapping MemoryPaging MemoryLibrary
open MemoryEffects MemoryInstruction MemoryBounds MemorySymbols ProcessRun
open SchedulerQueue SchedulerMlq RunSteps

variable {uninit : Addr → Byte} {ι : Type} [DecidableEq ι]

/-- The other fields of `struct pcb_t` that its frame is about; pointers
are taken as the addresses they hold. -/
structure PcbRest where
  /-- `priority`. -/
  priority : UInt
  /-- `prio`. -/
  prio : UInt
  /-- `krnl`. -/
  krnl : Addr
  /-- `page_table`. -/
  pageTable : Addr
  /-- `bp`. -/
  bp : UInt

/-- The kernel with whole control blocks. -/
structure ProcTable (ι : Type) where
  /-- What the instructions reach. -/
  kernel : Kernel ι
  /-- What they do not. -/
  rest : ι → PcbRest

/-- The size of the code of a process. -/
def ProcTable.size (s : ProcTable ι) (i : ι) : ℕ := (s.kernel.pcb i).code.length

variable (uninit) in
/-- `run` on whole control blocks. -/
def runProc (s : ProcTable ι) (i : ι) : Except Fault (Int × ProcTable ι) := do
  let r ← run uninit s.kernel i
  .ok (r.1, {s with kernel := r.2})

/-- The frame of one `run` of a process that is going to execute an instruction. -/
structure RunFrame (s : ProcTable ι) (i : ι) (ins : Inst) (n : Int) (s' : ProcTable ι) :
    Prop where
  /-- `pc` increases by one. -/
  pc : (s'.kernel.pcb i).pc = (s.kernel.pcb i).pc + 1
  /-- `pid` stays. -/
  pid : (s'.kernel.pcb i).pid = (s.kernel.pcb i).pid
  /-- `code` stays. -/
  code : (s'.kernel.pcb i).code = (s.kernel.pcb i).code
  /-- `priority`, `prio`, `krnl`, `page_table` and `bp` stay. -/
  rest : s'.rest i = s.rest i
  /-- The registers stay, or a `READ` that succeeded has written the one it names. -/
  regs : (s'.kernel.pcb i).regs = (s.kernel.pcb i).regs ∨
    (ins.opcode = .read ∧ n = 0 ∧ ∃ (r : Fin 10) (val : UInt), ins.arg2.toNat = r ∧
      (s'.kernel.pcb i).regs = Function.update (s.kernel.pcb i).regs r (val.setWidth 64))
  /-- The control blocks of other processes stay. -/
  others : ∀ j, j ≠ i → s'.kernel.pcb j = s.kernel.pcb j ∧ s'.rest j = s.rest j
  /-- The queues stay. -/
  sched : s'.kernel.sched = s.kernel.sched

/-- One `run` returns and keeps its frame. -/
def RunFramed (uninit : Addr → Byte) (s : ProcTable ι) (i : ι) : Prop :=
  ∃ ins n s', s.kernel.fetch i = some ins ∧ runProc uninit s i = .ok (n, s') ∧
    RunFrame s i ins n s'

/-- Only a `READ` that succeeds delivers a word. -/
theorem read_of_delivered {c c' : ProcMem} {ins : Inst} {n : Int} {v : UInt}
    (h : execInst uninit c ins = .ok (n, some v, c')) : ins.opcode = .read ∧ n = 0 := by
  cases execInst_call h with
  | read hop _ => exact ⟨hop, rfl⟩

/-- An instruction that returns keeps the frame. -/
theorem runFrame_of_ok {s s' : ProcTable ι} {i : ι} {ins : Inst} {n : Int}
    (hf : s.kernel.fetch i = some ins) (h : runProc uninit s i = .ok (n, s')) :
    RunFrame s i ins n s' := by
  obtain ⟨r, hr, h⟩ := ok_of_bind h
  cases h
  obtain ⟨hnone, _⟩ | ⟨ins', d, c, regs, hf', he, hp, hk⟩ := run_cases uninit hr
  · rw [hf] at hnone
    cases hnone
  · rw [hf] at hf'
    cases hf'
    have hpcb : r.2.pcb i = (s.kernel.pcb i).advance c.mm regs := by
      rw [hk, store_pcb_self]
    refine ⟨by rw [hpcb]; rfl, by rw [hpcb]; rfl, by rw [hpcb]; rfl, rfl, ?_,
      fun j hj => ⟨by rw [hk, store_pcb_of_ne _ hj], rfl⟩, by rw [hk]; rfl⟩
    dsimp only
    rw [hpcb]
    unfold putReg at hp
    cases d with
    | none =>
      cases hp
      exact Or.inl rfl
    | some val =>
      dsimp only at hp
      split at hp
      · next hlt =>
        cases hp
        have hread := read_of_delivered he
        exact Or.inr ⟨hread.1, hread.2, ⟨_, hlt⟩, val, rfl, rfl⟩
      · cases hp

/-! ## Where `run` returns -/

/-- The memory functions of an instruction stay inside the table and their area. -/
def ExecDefined (c : ProcMem) (ins : Inst) : Prop :=
  match ins.opcode with
  | .calc => True
  | .alloc => getVmaByNum c.mm 0 ≠ none ∧ ((toCInt ins.arg1).toNat < 30 ∨
      foundRegion c.mm 0 ins.arg0 = none ∧ allocGrowth c 0 ins.arg0 = none)
  | .free => toCInt ins.arg0 ≠ 30 ∧ (c.mm.mmap = [] → FreeRefused c (toCInt ins.arg0))
  | .read => toCInt ins.arg0 ≠ 30 ∨ getVmaByNum c.mm 0 = none
  | .write => toCInt ins.arg1 ≠ 30 ∨ getVmaByNum c.mm 0 = none
  | .syscall => True

/-- A `READ` that passes the bounds check names one of the ten registers. -/
def RegisterNamed (c : ProcMem) (ins : Inst) : Prop :=
  ins.opcode = .read → ∀ addr, regionAddr c 0 (toCInt ins.arg0) ins.arg1 = .ok (some addr) →
    ins.arg2.toNat < 10

/-- `__alloc` returns exactly if it does not reach the table with an id outside. -/
theorem alloc_isOk_iff {c : ProcMem} {rgid : CInt} {size : Addr} :
    (∃ r, alloc uninit c 0 rgid size = .ok r) ↔ getVmaByNum c.mm 0 ≠ none ∧
      (rgid.toNat < 30 ∨ foundRegion c.mm 0 size = none ∧ allocGrowth c 0 size = none) := by
  cases hv : getVmaByNum c.mm 0 with
  | none =>
    unfold alloc
    rw [hv]
    simp
  | some area =>
    rw [alloc_eq hv, symrgSlot_eq]
    by_cases hin : rgid.toNat < 30
    · rw [dif_pos hin]
      cases foundRegion c.mm 0 size with
      | some rg => simp [hin, Except.map]
      | none => cases allocGrowth c 0 size <;> simp [hin, Except.map]
    · rw [dif_neg hin]
      cases foundRegion c.mm 0 size with
      | some rg => simp [hin, Except.map]
      | none => cases allocGrowth c 0 size <;> simp [hin, Except.map]

/-- `__free` returns exactly if the id is not 30 and there is an area to free into. -/
theorem free_isOk_iff {c : ProcMem} {rgid : CInt} :
    (∃ r, free c rgid = .ok r) ↔ rgid ≠ 30 ∧ (c.mm.mmap = [] → FreeRefused c rgid) := by
  rcases symbol_cases rgid with ⟨k, rfl⟩ | rfl | hpast
  · rw [← free_refused_iff, free_symbolId]
    have hne := symbolId_ne_thirty k
    by_cases hempty : (c.mm.symrgtbl k).rgStart = 0 ∧ (c.mm.symrgtbl k).rgEnd = 0
    · rw [if_pos hempty]
      exact ⟨fun _ => ⟨hne, fun _ => rfl⟩, fun _ => ⟨_, rfl⟩⟩
    · rw [if_neg hempty]
      unfold enlistVmFreergList
      rw [MmStruct.setSymrg_mmap]
      cases c.mm.mmap with
      | nil => simp [Except.map]
      | cons vma0 next =>
        dsimp only
        split_ifs
        · exact ⟨fun _ => ⟨hne, False.elim⟩, fun _ => ⟨_, rfl⟩⟩
        · exact ⟨fun _ => ⟨hne, False.elim⟩, fun _ => ⟨_, rfl⟩⟩
  · rw [free_thirty]
    simp
  · rw [← free_refused_iff, free_past hpast]
    refine ⟨fun _ => ⟨?_, fun _ => rfl⟩, fun _ => ⟨_, rfl⟩⟩
    rintro rfl
    exact absurd hpast (by decide)

/-- The bounds check returns exactly for ids other than 30, or without an area. -/
theorem regionAddr_isOk_iff {c : ProcMem} {vmaid rgid : CInt} {offset : Addr} :
    (∃ r, regionAddr c vmaid rgid offset = .ok r) ↔
      rgid ≠ 30 ∨ getVmaByNum c.mm vmaid = none := by
  rcases symbol_cases rgid with ⟨k, rfl⟩ | rfl | hpast
  · rw [regionAddr_symbolId]
    refine ⟨fun _ => Or.inl (symbolId_ne_thirty k), fun _ => ?_⟩
    split_ifs
    · exact ⟨_, rfl⟩
    · exact ⟨_, rfl⟩
  · rw [regionAddr_thirty]
    cases getVmaByNum c.mm vmaid <;> simp
  · rw [regionAddr_past hpast]
    refine ⟨fun _ => Or.inl ?_, fun _ => ⟨_, rfl⟩⟩
    rintro rfl
    exact absurd hpast (by decide)

/-- The memory functions of an instruction return exactly where they are defined. -/
theorem execInst_isOk_iff {c : ProcMem} {ins : Inst} :
    (∃ r, execInst uninit c ins = .ok r) ↔ ExecDefined c ins := by
  unfold execInst ExecDefined
  cases ins.opcode with
  | «calc» => exact ⟨fun _ => trivial, fun _ => ⟨_, rfl⟩⟩
  | syscall => exact ⟨fun _ => trivial, fun _ => ⟨_, rfl⟩⟩
  | alloc =>
    rw [← @alloc_isOk_iff uninit]
    simp only [liballoc]
    cases alloc uninit c 0 (toCInt ins.arg1) ins.arg0 <;> simp [bind, Except.bind]
  | free =>
    rw [← free_isOk_iff]
    simp only [libfree]
    cases free c (toCInt ins.arg0) <;> simp [bind, Except.bind]
  | read =>
    rw [← @regionAddr_isOk_iff c 0 (toCInt ins.arg0) ins.arg1]
    simp only [libread, MemoryLibrary.read]
    cases regionAddr c 0 (toCInt ins.arg0) ins.arg1 with
    | error e => simp [bind, Except.bind]
    | ok o => cases o <;> simp [bind, Except.bind]
  | write =>
    rw [← @regionAddr_isOk_iff c 0 (toCInt ins.arg1) ins.arg2]
    simp only [libwrite, MemoryLibrary.write]
    cases regionAddr c 0 (toCInt ins.arg1) ins.arg2 with
    | error e => simp [bind, Except.bind]
    | ok o => cases o <;> simp [bind, Except.bind]

/-- The word an instruction delivers goes into the register file exactly if the register
is named whenever a read passes the check. -/
theorem putReg_isOk_iff {c c' : ProcMem} {ins : Inst} {n : Int} {d : Option UInt}
    {regs : Fin 10 → Addr} (h : execInst uninit c ins = .ok (n, d, c')) :
    (∃ regs', putReg regs ins.arg2 d = .ok regs') ↔ RegisterNamed c ins := by
  unfold putReg RegisterNamed
  cases d with
  | none =>
    refine ⟨fun _ hop addr ha => ?_, fun _ => ⟨_, rfl⟩⟩
    -- a read that passes the check delivers a word
    unfold execInst at h
    rw [hop] at h
    simp only [libread, MemoryLibrary.read, ha, bind, Except.bind] at h
    simp at h
  | some val =>
    cases execInst_call h with
    | @read addr hop ha =>
      dsimp only
      by_cases hlt : ins.arg2.toNat < 10
      · rw [dif_pos hlt]
        exact ⟨fun _ _ _ _ => hlt, fun _ => ⟨_, rfl⟩⟩
      · rw [dif_neg hlt]
        refine ⟨fun hput => ?_, fun hnamed => absurd (hnamed hop addr ha) hlt⟩
        obtain ⟨regs', hregs⟩ := hput
        cases hregs

/-- `run` returns exactly where the instruction is defined and names a register. -/
theorem runProc_isOk_iff {s : ProcTable ι} {i : ι} {ins : Inst}
    (hf : s.kernel.fetch i = some ins) : (∃ n s', runProc uninit s i = .ok (n, s')) ↔
      ExecDefined (s.kernel.mem i) ins ∧ RegisterNamed (s.kernel.mem i) ins := by
  unfold runProc run
  rw [hf]
  cases he : execInst uninit (s.kernel.mem i) ins with
  | error e =>
    have hno : ¬ExecDefined (s.kernel.mem i) ins := by
      rw [← @execInst_isOk_iff uninit, he]
      rintro ⟨r, h⟩
      cases h
    simp [he, bind, Except.bind, hno]
  | ok r =>
    obtain ⟨n, d, c⟩ := r
    have hdef : ExecDefined (s.kernel.mem i) ins := execInst_isOk_iff.mp ⟨_, he⟩
    rw [← @putReg_isOk_iff uninit _ c ins n d (s.kernel.pcb i).regs he]
    simp only [he, bind, Except.bind, hdef, true_and]
    cases putReg (s.kernel.pcb i).regs ins.arg2 d <;> simp

/-- `run` keeps its frame exactly where the instruction it fetches stays inside the symbol
table, its area and the register file. -/
theorem runFramed_iff (uninit : Addr → Byte) (s : ProcTable ι) (i : ι)
    (hpc : (s.kernel.pcb i).pc < s.size i) : RunFramed uninit s i ↔
      ∃ ins, s.kernel.fetch i = some ins ∧ ExecDefined (s.kernel.mem i) ins ∧
        RegisterNamed (s.kernel.mem i) ins := by
  obtain ⟨ins, hf⟩ : ∃ ins, s.kernel.fetch i = some ins := ⟨_, List.getElem?_eq_getElem hpc⟩
  constructor
  · rintro ⟨ins', n, s', hf', hok, _⟩
    exact ⟨ins', hf', (runProc_isOk_iff hf').mp ⟨n, s', hok⟩⟩
  · rintro ⟨ins', hf', hdef⟩
    obtain ⟨n, s', hok⟩ := (runProc_isOk_iff hf').mpr hdef
    exact ⟨ins', n, s', hf', hok, runFrame_of_ok hf' hok⟩

/-! ## A register that is not one -/

/-- A single process, in the running list, over two frames of RAM. -/
def loneProc (code : List Inst) : ProcTable Unit where
  kernel :=
    { pcb := fun _ => ⟨initMm, 1, code, fun _ => 0, 0⟩
      sched := {initScheduler with runningList := enqueue Queue.init ()}
      mram := initMemphy 8192 true
      activeMswp := initMemphy 0 true }
  rest := fun _ => ⟨0, 0, 0, 0, 0⟩

/-- The two instructions of a process that reads a byte into a register. -/
def readInto (register : Addr) : List Inst := [⟨.alloc, 100, 1, 0, 0⟩, ⟨.read, 1, 20, register, 0⟩]

/-- After the allocation the read passes the check. -/
theorem exists_beforeRead (register : Addr) : ∃ s',
    runProc (fun _ => 0) (loneProc (readInto register)) () = .ok (0, s') ∧
      (s'.kernel.pcb ()).pc < s'.size () ∧
      s'.kernel.fetch () = some ⟨.read, 1, 20, register, 0⟩ ∧
      regionAddr (s'.kernel.mem ()) 0 1 20 = .ok (some 20) := by
  have hrun : ((runProc (fun _ => 0) (loneProc (readInto register)) ()).toOption.map fun r =>
      (r.1, (r.2.kernel.pcb ()).pc, r.2.size (), r.2.kernel.fetch (),
        regionAddr (r.2.kernel.mem ()) 0 1 20)) =
      some (0, 1, 2, some ⟨.read, 1, 20, register, 0⟩, .ok (some 20)) := rfl
  obtain ⟨⟨n, s'⟩, h, hobs⟩ := exists_ok_of_map hrun
  simp only [Prod.mk.injEq] at hobs
  obtain ⟨rfl, hpc, hsize, hfetch, hcheck⟩ := hobs
  exact ⟨s', h, by omega, hfetch, hcheck⟩

/-- A read into register 2 keeps the frame, one into register 20 does not. -/
theorem runFramed_iff_readInto :
    (∃ s', runProc (fun _ => 0) (loneProc (readInto 2)) () = .ok (0, s') ∧
      RunFramed (fun _ => 0) s' ()) ∧
    ∃ s', runProc (fun _ => 0) (loneProc (readInto 20)) () = .ok (0, s') ∧
      ¬RunFramed (fun _ => 0) s' () := by
  constructor
  · obtain ⟨s', h, hpc, hfetch, -⟩ := exists_beforeRead 2
    have hdef : ExecDefined (s'.kernel.mem ()) ⟨.read, 1, 20, 2, 0⟩ :=
      Or.inl (by decide : toCInt 1 ≠ 30)
    have hnamed : RegisterNamed (s'.kernel.mem ()) ⟨.read, 1, 20, 2, 0⟩ :=
      fun _ _ _ => (by decide : (2 : Addr).toNat < 10)
    exact ⟨s', h, (runFramed_iff (fun _ => 0) s' () hpc).mpr ⟨_, hfetch, hdef, hnamed⟩⟩
  · obtain ⟨s', h, hpc, hfetch, hcheck⟩ := exists_beforeRead 20
    refine ⟨s', h, fun hframed => ?_⟩
    obtain ⟨ins, hf, -, hnamed⟩ := (runFramed_iff (fun _ => 0) s' () hpc).mp hframed
    cases hfetch.symm.trans hf
    exact absurd (hnamed rfl 20 hcheck) (by decide : ¬(20 : Addr).toNat < 10)

/-- A read that passes the check can leave the register file. -/
theorem not_runFramed_readInto20 : ∃ s', runProc (fun _ => 0) (loneProc (readInto 20)) () =
    .ok (0, s') ∧ (s'.kernel.pcb ()).pc < s'.size () ∧ ¬RunFramed (fun _ => 0) s' () := by
  obtain ⟨s', h, hpc, hfetch, hcheck⟩ := exists_beforeRead 20
  refine ⟨s', h, hpc, ?_⟩
  rintro ⟨ins, n, s'', hf, hok, _⟩
  cases hfetch.symm.trans hf
  have hreg := ((runProc_isOk_iff hfetch).mp ⟨n, s'', hok⟩).2 rfl 20 hcheck
  exact absurd hreg (by decide)

end OsSim.ProcessFrame
