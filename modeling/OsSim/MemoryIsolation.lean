import OsSim.MemoryBytes
import OsSim.MemoryFrames
import OsSim.ProcessRun

/-!
# Isolation of processes

An instruction of one process stores at most one byte of RAM. As long as frames
are owned exclusively, that byte belongs to another process only if the physical
write operation of the system call is aimed at it. What an instruction delivers
is computed from the bytes of frames that its own process owns.
-/

namespace OsSim.MemoryIsolation

open MemoryWords MemoryDevice MemoryPageTable MemoryMapping MemoryPaging MemoryLibrary
open MemoryEffects MemoryInstruction MemoryBytes MemoryFrames ProcessRun RunSteps

variable {uninit : Addr → Byte}

/-! ## Memories that differ in their bytes -/

/-- The same memory with other bytes on both devices. -/
def withBytes (c : ProcMem) (ram swp : Addr → Byte) : ProcMem :=
  {c with mram := {c.mram with storage := ram}, activeMswp := {c.activeMswp with storage := swp}}

/-- Growth does not look at bytes. -/
theorem vmMapRam_withBytes (c : ProcMem) (ram swp : Addr → Byte) (start : Addr) (pages : CInt) :
    vmMapRam (withBytes c ram swp) start pages =
      ((vmMapRam c start pages).1, withBytes (vmMapRam c start pages).2 ram swp) := by
  rw [vmMapRam_eq, vmMapRam_eq]
  change (if loopCount pages ≤ c.mram.freeFpList.length then _ else _ : Addr × ProcMem) = _
  split <;> rfl

/-- The growth of an area does not depend on the bytes of the devices. -/
theorem incVmaLimit_withBytes (c : ProcMem) (ram swp : Addr → Byte) (vmaid : CInt) (incSz : Addr) :
    incVmaLimit (withBytes c ram swp) vmaid incSz =
      ((incVmaLimit c vmaid incSz).1, withBytes (incVmaLimit c vmaid incSz).2 ram swp) := by
  have hmm : (withBytes c ram swp).mm = c.mm := rfl
  rw [incVmaLimit_eq, incVmaLimit_eq, hmm]
  cases growthOf c.mm vmaid incSz with
  | none => rfl
  | some g =>
    dsimp only
    exact congrArg (fun x : Addr × ProcMem => ((0 : Int), x.2))
      (vmMapRam_withBytes {c with mm := g.mm} ram swp g.start g.pages)

/-- The growth call does not depend on the bytes of the devices. -/
theorem syscall_inc_withBytes (c : ProcMem) (ram swp : Addr → Byte) (a2 incSz : Addr) :
    (syscall uninit (withBytes c ram swp) 17 ⟨toAddr sysmemIncOp, a2, incSz⟩).1 =
        (syscall uninit c 17 ⟨toAddr sysmemIncOp, a2, incSz⟩).1 ∧
      (syscall uninit (withBytes c ram swp) 17 ⟨toAddr sysmemIncOp, a2, incSz⟩).2.2 =
        withBytes (syscall uninit c 17 ⟨toAddr sysmemIncOp, a2, incSz⟩).2.2 ram swp := by
  obtain ⟨h1, h2⟩ := syscall_inc uninit c a2 incSz
  obtain ⟨h1', h2'⟩ := syscall_inc uninit (withBytes c ram swp) a2 incSz
  have hl : (withBytes c ram swp).listed = c.listed := rfl
  rw [h1, h2, h1', h2', incVmaLimit_withBytes, hl]
  cases c.listed <;> exact ⟨rfl, rfl⟩

/-- The allocator does not depend on the bytes of the devices. -/
theorem alloc_withBytes (c : ProcMem) (ram swp : Addr → Byte) (vmaid rgid : CInt) (size : Addr) :
    alloc uninit (withBytes c ram swp) vmaid rgid size =
      (alloc uninit c vmaid rgid size).map fun x => (x.1, withBytes x.2 ram swp) := by
  have hmm : (withBytes c ram swp).mm = c.mm := rfl
  unfold alloc
  rw [hmm]
  cases getVmaByNum c.mm vmaid with
  | none => rfl
  | some r =>
    obtain ⟨i, cur⟩ := r
    dsimp only
    cases (getFreeVmrgArea cur.vmFreergList (toCInt size)).1 with
    | some rg =>
      dsimp only
      cases symrgSlot rgid <;> rfl
    | none =>
      dsimp only
      obtain ⟨h1, h2⟩ := @syscall_inc_withBytes uninit {c with mm := c.mm.setVma i {cur with
        vmFreergList := (getFreeVmrgArea cur.vmFreergList (toCInt size)).2}} ram swp
        (toAddr vmaid) size
      unfold withBytes at h1 h2 ⊢
      dsimp only at h1 h2 ⊢
      rw [h1, h2]
      split
      · rfl
      · cases symrgSlot rgid <;> rfl

/-- A release does not depend on the bytes of the devices. -/
theorem free_withBytes (c : ProcMem) (ram swp : Addr → Byte) (rgid : CInt) :
    MemoryLibrary.free (withBytes c ram swp) rgid =
      (MemoryLibrary.free c rgid).map fun x => (x.1, withBytes x.2 ram swp) := by
  have hmm : (withBytes c ram swp).mm = c.mm := rfl
  unfold MemoryLibrary.free
  rw [hmm]
  split
  · rfl
  · cases symrgSlot rgid with
    | error e => rfl
    | ok k =>
      dsimp only [bind, Except.bind]
      split
      · rfl
      · cases enlistVmFreergList (c.mm.setSymrg k ⟨0, 0⟩) (c.mm.symrgtbl k) <;> rfl

/-- A page access finds the same frame and leaves the same page table. -/
theorem pgGetpage_withBytes (c : ProcMem) (ram swp : Addr → Byte) (pgn : CInt) :
    (pgGetpage uninit (withBytes c ram swp) pgn).1 = (pgGetpage uninit c pgn).1 ∧
      (pgGetpage uninit (withBytes c ram swp) pgn).2.mm = (pgGetpage uninit c pgn).2.mm := by
  obtain ⟨h1, h2⟩ := @pgGetpage_eq uninit c pgn
  obtain ⟨h1', h2'⟩ := @pgGetpage_eq uninit (withBytes c ram swp) pgn
  rw [h1, h2, h1', h2']
  exact ⟨rfl, rfl⟩

/-- A byte write leaves the same page table. -/
theorem pgSetval_withBytes (c : ProcMem) (ram swp : Addr → Byte) (addr : Addr) (value : Byte) :
    (pgSetval uninit (withBytes c ram swp) addr value).2.mm =
      (pgSetval uninit c addr value).2.mm := by
  obtain ⟨_, _, he⟩ := pgSetval_frames uninit c addr value
  obtain ⟨_, _, he'⟩ := pgSetval_frames uninit (withBytes c ram swp) addr value
  rw [he, he']
  exact (pgGetpage_withBytes c ram swp (addrPage addr)).2

/-- A byte read delivers the same byte if its cell holds the same byte. -/
theorem pgGetval_withBytes (c : ProcMem) (ram swp : Addr → Byte) (addr : Addr) (data : Byte)
    (hcell : Present ((pgGetval uninit c addr data).2.2.mm.entry (pageIndex addr)) →
      ram (frameAddr ((pgGetval uninit c addr data).2.2.mm.entry (pageIndex addr)) addr) =
        c.mram.storage
          (frameAddr ((pgGetval uninit c addr data).2.2.mm.entry (pageIndex addr)) addr)) :
    (pgGetval uninit (withBytes c ram swp) addr data).2.1 = (pgGetval uninit c addr data).2.1 ∧
      (pgGetval uninit (withBytes c ram swp) addr data).2.2.mm =
        (pgGetval uninit c addr data).2.2.mm := by
  obtain ⟨h1, h2⟩ := @pgGetpage_withBytes uninit c ram swp (addrPage addr)
  obtain ⟨hs, hb⟩ := (pgGetpage_access uninit c (addrPage addr)).sameRegions
  obtain ⟨hs', hb'⟩ := (pgGetpage_access uninit (withBytes c ram swp) (addrPage addr)).sameRegions
  rw [pgGetval_snd] at hcell ⊢
  rw [pgGetval_snd]
  refine ⟨?_, h2⟩
  rw [pgGetval_eq, pgGetval_eq]
  cases hg : pgGetpage uninit c (addrPage addr) with
  | mk r c₁ =>
    cases hg' : pgGetpage uninit (withBytes c ram swp) (addrPage addr) with
    | mk r' c₂ =>
      rw [hg] at h1 hs hb hcell
      rw [hg'] at h1 hs' hb'
      obtain rfl : r' = r := h1
      cases r' with
      | none => rfl
      | some fpn =>
        obtain ⟨hp, hf⟩ := pgGetpage_some hg
        dsimp only at hs hb hs' hb' hcell ⊢
        have hread : memphyRead c₂.mram (byteAddr fpn addr) =
            memphyRead c₁.mram (byteAddr fpn addr) := by
          refine memphyRead_congr ?_ ?_ ?_
          · exact hs'.rdmflg.trans hs.rdmflg.symm
          · exact hs'.maxsz.trans hs.maxsz.symm
          · rw [hb', hb, hf]
            exact hcell hp
        have hlist : c₂.listed = c₁.listed := hs'.listed.trans hs.listed.symm
        rw [hread, hlist]
        cases (if c₁.listed then memphyRead c₁.mram (byteAddr fpn addr) else none) <;> rfl

/-- Whether a device accepts an access does not depend on its bytes. -/
theorem memphyRead_isSome (mp : MemphyStruct) (bytes : Addr → Byte) (addr : Addr) :
    (memphyRead {mp with storage := bytes} addr).isSome = (memphyRead mp addr).isSome := by
  dsimp only [memphyRead, memphySeqRead]
  split
  · split <;> rfl
  · split <;> rfl

/-- Whether a device accepts a write does not depend on its bytes. -/
theorem memphyWrite_isSome (mp : MemphyStruct) (bytes : Addr → Byte) (addr : Addr) (data : Byte) :
    (memphyWrite {mp with storage := bytes} addr data).isSome =
      (memphyWrite mp addr data).isSome := by
  dsimp only [memphyWrite, memphySeqWrite]
  split
  · split <;> rfl
  · split <;> rfl

/-- The system call instruction delivers its status only. -/
theorem libsyscall_withBytes (c : ProcMem) (ram swp : Addr → Byte) (nr : UInt) (a1 a2 a3 : Addr) :
    (libsyscall uninit (withBytes c ram swp) nr a1 a2 a3).1 =
        (libsyscall uninit c nr a1 a2 a3).1 ∧
      (libsyscall uninit (withBytes c ram swp) nr a1 a2 a3).2.mm =
        (libsyscall uninit c nr a1 a2 a3).2.mm := by
  have hl : (withBytes c ram swp).listed = c.listed := rfl
  have hmm : (withBytes c ram swp).mm = c.mm := rfl
  dsimp only [libsyscall, syscall, sysMemmap]
  rw [hl, hmm]
  split
  · split
    · exact ⟨rfl, rfl⟩
    · split
      · exact ⟨rfl, rfl⟩
      · split
        · rw [incVmaLimit_withBytes]
          exact ⟨rfl, rfl⟩
        · split
          · exact ⟨rfl, rfl⟩
          · split
            · have hsome : (memphyRead (withBytes c ram swp).mram a2).isSome =
                  (memphyRead c.mram a2).isSome := memphyRead_isSome c.mram ram a2
              revert hsome
              cases memphyRead (withBytes c ram swp).mram a2 <;> cases memphyRead c.mram a2 <;>
                intro hsome <;> first | exact ⟨rfl, rfl⟩ | cases hsome
            · split
              · have hsome : (memphyWrite (withBytes c ram swp).mram a2 (a3.setWidth 8)).isSome =
                    (memphyWrite c.mram a2 (a3.setWidth 8)).isSome :=
                  memphyWrite_isSome c.mram ram a2 _
                revert hsome
                cases memphyWrite (withBytes c ram swp).mram a2 (a3.setWidth 8) <;>
                  cases memphyWrite c.mram a2 (a3.setWidth 8) <;>
                  intro hsome <;> first | exact ⟨rfl, rfl⟩ | cases hsome
              · exact ⟨rfl, rfl⟩
  · exact ⟨rfl, rfl⟩

/-- Nothing an instruction delivers depends on bytes outside the cell it reads. -/
theorem execInst_withBytes {c c' : ProcMem} {ins : Inst} {n : Int} {d : Option UInt}
    (h : execInst uninit c ins = .ok (n, d, c')) (ram swp : Addr → Byte)
    (hcell : ∀ addr, regionAddr c 0 (toCInt ins.arg0) ins.arg1 = .ok (some addr) →
      Present (c'.mm.entry (pageIndex addr)) →
        ram (frameAddr (c'.mm.entry (pageIndex addr)) addr) =
          c.mram.storage (frameAddr (c'.mm.entry (pageIndex addr)) addr)) :
    ∃ c₂, execInst uninit (withBytes c ram swp) ins = .ok (n, d, c₂) ∧ c₂.mm = c'.mm := by
  have haddr : ∀ rgid offset,
      regionAddr (withBytes c ram swp) 0 rgid offset = regionAddr c 0 rgid offset := fun _ _ => rfl
  unfold execInst
  cases execInst_call h with
  | «calc» hop =>
    rw [hop]
    exact ⟨_, rfl, rfl⟩
  | @alloc o c' hop ha =>
    rw [hop]
    dsimp only [liballoc]
    rw [alloc_withBytes, ha]
    exact ⟨_, rfl, rfl⟩
  | free hop ha =>
    rw [hop]
    dsimp only [libfree]
    rw [free_withBytes, ha]
    exact ⟨_, rfl, rfl⟩
  | readRefused hop ha =>
    rw [hop]
    dsimp only [libread, MemoryLibrary.read]
    rw [haddr, ha]
    exact ⟨_, rfl, rfl⟩
  | @read addr hop ha =>
    obtain ⟨hd, hm⟩ := pgGetval_withBytes c ram swp addr (uninit ins.arg1) (hcell addr ha)
    rw [hop]
    dsimp only [libread, MemoryLibrary.read]
    rw [haddr, ha]
    dsimp only [bind, Except.bind]
    rw [if_neg (by decide)]
    dsimp only
    rw [if_pos rfl, hd]
    exact ⟨_, rfl, hm⟩
  | writeRefused hop ha =>
    rw [hop]
    dsimp only [libwrite, write]
    rw [haddr, ha]
    exact ⟨_, rfl, rfl⟩
  | @write addr hop ha =>
    rw [hop]
    dsimp only [libwrite, write]
    rw [haddr, ha]
    exact ⟨_, rfl, pgSetval_withBytes c ram swp addr _⟩
  | syscall hop =>
    obtain ⟨hn, hm⟩ := @libsyscall_withBytes uninit c ram swp (toCInt ins.arg0) ins.arg1 ins.arg2
      ins.arg3
    rw [hop]
    dsimp only
    rw [hn]
    exact ⟨_, rfl, hm⟩

/-! ## The frames of the processes of a kernel -/

variable {ι : Type}

/-- The memory of the processes of a kernel. -/
def shared (k : Kernel ι) : SharedMem ι := ⟨fun i => (k.pcb i).mm, k.mram, k.activeMswp⟩

/-- The instruction a process executes next keeps frames owned exclusively. -/
def kernelSafe (k : Kernel ι) : KernelOp ι → Prop
  | .run i => ∀ ins, k.fetch i = some ins → MapIdle ins ∧ frameSafe (k.mem i) ins
  | .schedule _ => True

/-- The memory manager translates some page to the frame. -/
def Owns (mm : MmStruct) (frame : ℕ) : Prop :=
  ∃ x, Present (mm.entry x) ∧ entryFrame (mm.entry x) = frame

/-- The status and the word that a `READ` of a process would deliver. -/
def delivered (uninit : Addr → Byte) (k : Kernel ι) (i : ι) (source : UInt) (offset : Addr) :
    Except Fault (Int × Option UInt) :=
  (libread uninit (k.mem i) source offset).map fun r => (r.1, r.2.1)

/-- The next instruction of process `q` is no physical write to the byte of process
`p` at a virtual address. -/
def AimsElsewhere (k : Kernel ι) (q p : ι) (addr : Addr) : Prop :=
  ∀ ins, k.fetch q = some ins → RawWrite ins →
    ins.arg2 ≠ frameAddr ((k.pcb p).mm.entry (pageIndex addr)) addr

/-- The same kernel with other bytes on both devices. -/
def kernelWithBytes (k : Kernel ι) (ram swp : Addr → Byte) : Kernel ι :=
  {k with mram := {k.mram with storage := ram}, activeMswp := {k.activeMswp with storage := swp}}

/-- What process `p` reads from its present pages is the same after the instruction
of process `q`, a physical write to the very byte aside. -/
def ReadsKept (uninit : Addr → Byte) (k k' : Kernel ι) (q p : ι) : Prop :=
  ∀ source offset addr, regionAddr (k.mem p) 0 source offset = .ok (some addr) →
    Present ((k.pcb p).mm.entry (pageIndex addr)) → AimsElsewhere k q p addr →
      delivered uninit k' p source offset = delivered uninit k p source offset

/-- The status and the control block that the instruction of process `q` leaves are
the same whatever swap and the frames of process `p` hold. -/
def DeliversAlike [DecidableEq ι] (uninit : Addr → Byte) (k k' : Kernel ι) (n : Int) (q p : ι) :
    Prop :=
  ∀ ram swp : Addr → Byte,
    (∀ b, ¬Owns (k.pcb p).mm (b.toNat / 4096) → ram b = k.mram.storage b) →
      ∃ k₂, run uninit (kernelWithBytes k ram swp) q = .ok (n, k₂) ∧ k₂.pcb q = k'.pcb q

/-- Distinct processes own distinct frames. -/
theorem frame_ne_of_ne {k : Kernel ι} (hI : (shared k).Inv) {p q : ι} (hpq : p ≠ q)
    {x y : Fin 512} (hx : Present ((k.pcb p).mm.entry x)) (hy : Present ((k.pcb q).mm.entry y)) :
    entryFrame ((k.pcb p).mm.entry x) ≠ entryFrame ((k.pcb q).mm.entry y) := by
  intro he
  exact hpq (congrArg Prod.fst (FramesInv.eq_of_frame_eq hI hx hy he))

variable [DecidableEq ι]

/-- The memory of the processes after an instruction of one of them. -/
theorem shared_store (k : Kernel ι) (i : ι) (proc : Pcb) (c : ProcMem) (h : proc.mm = c.mm) :
    shared (k.store i proc c) = (shared k).store i c := by
  have hmm : (fun j => ((k.store i proc c).pcb j).mm) =
      Function.update (fun j => (k.pcb j).mm) i c.mm := by
    funext j
    dsimp only [Kernel.store]
    by_cases hj : j = i
    · rw [hj, Function.update_self, Function.update_self, h]
    · rw [Function.update_of_ne hj, Function.update_of_ne hj]
  unfold shared SharedMem.store
  rw [hmm]
  rfl

/-- Every step under the condition keeps frames owned exclusively. -/
theorem sharedInv_step {k k' : Kernel ι} {op : KernelOp ι} (hI : (shared k).Inv)
    (hs : kernelSafe k op) (h : KernelStep uninit k op k') : (shared k').Inv := by
  cases op with
  | schedule sched =>
    cases h
    exact hI
  | run i =>
    obtain ⟨n, h⟩ := h
    obtain ⟨_, _, rfl⟩ | ⟨ins, d, c, regs, hf, he, _, rfl⟩ := run_cases uninit h
    · exact hI
    · obtain ⟨hm, hsafe⟩ := hs ins hf
      have hstep : SharedStep uninit (shared k) ⟨i, k.listed i, ins⟩ ((shared k).store i c) :=
        ⟨c, ⟨n, d, he⟩, rfl⟩
      rw [shared_store _ _ _ _ rfl]
      exact @framesInv_step uninit ι _ _ _ ⟨i, k.listed i, ins⟩ hI hm hsafe hstep

/-- Frames are owned exclusively after any steps under the condition. -/
theorem sharedInv_of_run {k k' : Kernel ι} {ops : List (KernelOp ι)} (hb : KernelBoot k)
    (h : Run (Guarded kernelSafe (KernelStep uninit)) k ops k') : (shared k').Inv :=
  h.invariant (fun k => (shared k).Inv) (fun _ _ _ hI hs => sharedInv_step hI hs.1 hs.2)
    (inv_of_sharedBoot ⟨hb.mm, hb.mram, hb.activeMswp⟩)

/-! ## Integrity and confidentiality -/

/-- An instruction of another process leaves the cell of a byte alone. -/
theorem cell_kept {k k' : Kernel ι} {p q : ι} {n : Int} {addr : Addr} (hpq : p ≠ q)
    (hI : (shared k').Inv) (h : run uninit k q = .ok (n, k'))
    (hp : Present ((k.pcb p).mm.entry (pageIndex addr))) (hraw : AimsElsewhere k q p addr) :
    k'.mram.storage (frameAddr ((k.pcb p).mm.entry (pageIndex addr)) addr) =
      k.mram.storage (frameAddr ((k.pcb p).mm.entry (pageIndex addr)) addr) := by
  obtain ⟨_, _, rfl⟩ | ⟨ins, d, c, regs, hf, he, _, rfl⟩ := run_cases uninit h
  · rfl
  · change c.mram.storage _ = _
    cases execInst_store he with
    | unchanged hs => rw [hs]; rfl
    | raw hr hs =>
      rw [hs, Function.update_of_ne (hraw ins hf hr).symm]
      rfl
    | @stored a hop ha hpres hs =>
      rw [hs, Function.update_of_ne]
      · rfl
      · intro hcell
        have hother := store_pcb_of_ne k hpq ((k.pcb q).advance c.mm regs) c
        have hown := store_pcb_self k q ((k.pcb q).advance c.mm regs) c
        refine frame_ne_of_ne hI hpq (x := pageIndex addr) (y := pageIndex a) ?_ ?_ ?_
        · rw [hother]
          exact hp
        · rw [hown]
          exact hpres
        · rw [hother, hown]
          exact (frameAddr_inj hcell).1

/-- An instruction of another process changes neither the memory manager, nor how
the process is found, nor the kind of RAM. -/
theorem mem_kept {k k' : Kernel ι} {p q : ι} {n : Int} (hpq : p ≠ q)
    (h : run uninit k q = .ok (n, k')) : (k'.mem p).mm = (k.mem p).mm ∧
      (k'.mem p).listed = (k.mem p).listed ∧ k'.mram.rdmflg = k.mram.rdmflg ∧
      k'.mram.maxsz = k.mram.maxsz := by
  obtain ⟨_, _, rfl⟩ | ⟨ins, d, c, regs, _, he, _, rfl⟩ := run_cases uninit h
  · exact ⟨rfl, rfl, rfl, rfl⟩
  · obtain ⟨_, hr, hm⟩ := execInst_devices he
    refine ⟨?_, ?_, hr, hm⟩
    · dsimp only [Kernel.mem]
      rw [store_pcb_of_ne k hpq]
    · dsimp only [Kernel.mem, Kernel.listed]
      rw [store_advance_pid]
      rfl

/-- Integrity: the reads of another process deliver what they did before. -/
theorem readsKept {k k' : Kernel ι} {p q : ι} {n : Int} (hpq : p ≠ q) (hI : (shared k').Inv)
    (h : run uninit k q = .ok (n, k')) : ReadsKept uninit k k' q p := by
  obtain ⟨hmm, hlist, hr, hmax⟩ := mem_kept hpq h
  intro source offset addr ha hp hraw
  have haddr : regionAddr (k'.mem p) 0 source offset = .ok (some addr) := by
    rw [← ha]
    unfold regionAddr
    rw [hmm]
  have hread : memphyRead k'.mram (frameAddr ((k.pcb p).mm.entry (pageIndex addr)) addr) =
      memphyRead k.mram (frameAddr ((k.pcb p).mm.entry (pageIndex addr)) addr) :=
    memphyRead_congr hr hmax (cell_kept hpq hI h hp hraw)
  have hp' : Present ((k'.mem p).mm.entry (pageIndex addr)) := by
    rw [hmm]
    exact hp
  unfold delivered
  rw [libread_of_present haddr hp', libread_of_present ha hp, hmm, hlist]
  dsimp only [Except.map]
  change Except.ok (0, some (((if (k.mem p).listed then memphyRead k'.mram
    (frameAddr ((k.pcb p).mm.entry (pageIndex addr)) addr) else none).getD _).signExtend 32)) = _
  rw [hread]
  rfl

/-- Confidentiality: the bytes another process keeps in its frames decide nothing. -/
theorem deliversAlike {k k' : Kernel ι} {p q : ι} {n : Int} (hpq : p ≠ q) (hI : (shared k').Inv)
    (h : run uninit k q = .ok (n, k')) : DeliversAlike uninit k k' n q p := by
  intro ram swp hram
  obtain ⟨hf, hn, hk⟩ | ⟨ins, d, c, regs, hf, he, hregs, rfl⟩ := run_cases uninit h
  · have hf' : (kernelWithBytes k ram swp).fetch q = none := hf
    refine ⟨kernelWithBytes k ram swp, ?_, by rw [hk]; rfl⟩
    unfold run
    rw [hf', hn]
  · have hown := store_pcb_self k q ((k.pcb q).advance c.mm regs) c
    obtain ⟨c₂, he₂, hm₂⟩ := execInst_withBytes he ram swp fun addr _ hpres => by
      refine hram _ fun ⟨x, hx, hfx⟩ => ?_
      rw [frameAddr_div] at hfx
      refine frame_ne_of_ne hI hpq (x := x) (y := pageIndex addr) ?_ ?_ ?_
      · rw [store_pcb_of_ne k hpq]
        exact hx
      · rw [hown]
        exact hpres
      · rw [store_pcb_of_ne k hpq, hown]
        exact hfx
    refine ⟨(kernelWithBytes k ram swp).store q ((k.pcb q).advance c₂.mm regs) c₂, ?_, ?_⟩
    · have hf' : (kernelWithBytes k ram swp).fetch q = some ins := hf
      have hmem : (kernelWithBytes k ram swp).mem q = withBytes (k.mem q) ram swp := rfl
      have hpcb : (kernelWithBytes k ram swp).pcb q = k.pcb q := rfl
      unfold run
      rw [hf']
      dsimp only
      rw [hmem, he₂, hpcb]
      dsimp only [bind, Except.bind]
      rw [hregs]
    · rw [store_pcb_self, store_pcb_self, hm₂]

/-- In every run whose steps all meet the condition, an instruction of one process
leaves what another one reads from a present page as it is, unless it is a
physical write to that very byte; and what it delivers to its own process is the
same whatever the frames of the other one hold. -/
theorem isolated {k k' k'' : Kernel ι} {ops : List (KernelOp ι)} {p q : ι} {n : Int}
    (hb : KernelBoot k) (hrun : Run (Guarded kernelSafe (KernelStep uninit)) k ops k')
    (hs : kernelSafe k' (.run q)) (h : run uninit k' q = .ok (n, k'')) (hpq : p ≠ q) :
    ReadsKept uninit k' k'' q p ∧ DeliversAlike uninit k' k'' n q p := by
  have hI : (shared k'').Inv := sharedInv_step (sharedInv_of_run hb hrun) hs ⟨n, h⟩
  exact ⟨readsKept hpq hI h, deliversAlike hpq hI h⟩

/-! ## Two processes -/

instance (ins : Inst) : Decidable (MapIdle ins) :=
  inferInstanceAs (Decidable (_ → _ → _ → _))

instance (k : Kernel ι) (op : KernelOp ι) : Decidable (kernelSafe k op) :=
  match op with
  | .run _ => decidableForallSome _ _
  | .schedule _ => isTrue trivial

/-- The kernel after a step, computed. -/
def kernelNext (uninit : Addr → Byte) (k : Kernel ι) : KernelOp ι → Option (Kernel ι)
  | .run i => (run uninit k i).toOption.map Prod.snd
  | .schedule sched => some {k with sched := sched}

theorem kernelStep_of_kernelNext (uninit : Addr → Byte) (k : Kernel ι) (op : KernelOp ι)
    (k' : Kernel ι) (h : kernelNext uninit k op = some k') : KernelStep uninit k op k' := by
  cases op with
  | schedule sched => exact (Option.some.inj h).symm
  | run i => exact exists_ok_of_map_snd h

/-- A loaded process. -/
def loaded (pid : UInt) (code : List Inst) : Pcb := ⟨initMm, pid, code, fun _ => 0, 0⟩

/-- Two loaded processes with the given programs, over four frames of RAM. -/
def twoProcesses (code : Fin 2 → List Inst) : Kernel (Fin 2) :=
  ⟨fun i => loaded (BitVec.ofNat 32 (i + 1)) (code i), SchedulerMlq.initScheduler,
    initMemphy 16384 true, initMemphy 0 true⟩

theorem kernelBoot_twoProcesses (code : Fin 2 → List Inst) : KernelBoot (twoProcesses code) := by
  have hinj : ∀ i j : Fin 2, BitVec.ofNat 32 (i + 1) = BitVec.ofNat 32 (j + 1) → i = j := by decide
  exact ⟨fun _ => rfl, fun i j h => hinj i j h, ⟨_, _, rfl⟩, ⟨_, _, rfl⟩⟩

/-- The scheduler when two processes have been added and dispatched. -/
def bothRunning : SchedulerMlq.Sched (Fin 2) :=
  let add := SchedulerMlq.addMlqProc fun _ => 0
  (SchedulerMlq.getMlqProc (SchedulerMlq.getMlqProc
    (add (add SchedulerMlq.initScheduler ⟨0, Nat.two_pos⟩) ⟨1, Nat.one_lt_two⟩)).2).2

/-- Process 0 writes a byte; process 1 is about to write one of its own. -/
def ownBytes : Fin 2 → List Inst
  | 0 => [⟨.alloc, 300, 0, 0, 0⟩, ⟨.write, 100, 0, 0, 0⟩]
  | 1 => [⟨.alloc, 300, 0, 0, 0⟩, ⟨.write, 55, 0, 0, 0⟩]

/-- The write of process 1 leaves the byte of process 0 alone. -/
theorem isolated_ownBytes : ∃ k' k'' : Kernel (Fin 2),
    Run (Guarded kernelSafe (KernelStep fun _ => 0)) (twoProcesses ownBytes)
      [.schedule bothRunning, .run 0, .run 0, .run 1] k' ∧
      run (fun _ => 0) k' 1 = .ok (0, k'') ∧
      ReadsKept (fun _ => 0) k' k'' 1 0 ∧ DeliversAlike (fun _ => 0) k' k'' 0 1 0 := by
  obtain ⟨k', hrun, hf⟩ := exists_run_of_map kernelSafe (kernelStep_of_kernelNext fun _ => 0)
    (twoProcesses ownBytes) [.schedule bothRunning, .run 0, .run 0, .run 1]
    (fun k => (decide (kernelSafe k (.run 1)), (run (fun _ => 0) k 1).toOption.map Prod.fst))
    (true, some 0) rfl
  obtain ⟨hsafe, hnext⟩ := Prod.mk.inj hf
  obtain ⟨⟨_, k''⟩, hk, rfl⟩ := Option.map_eq_some_iff.mp hnext
  have hok := ok_of_toOption hk
  exact ⟨k', k'', hrun, hok, isolated (kernelBoot_twoProcesses _) hrun (of_decide_eq_true hsafe)
    hok (by decide)⟩

/-- Process 1 is about to make a physical write to the frame of process 0. -/
def physicalWrite : Fin 2 → List Inst
  | 0 => [⟨.alloc, 300, 0, 0, 0⟩, ⟨.write, 100, 0, 0, 0⟩]
  | 1 => [⟨.syscall, 17, 5, 0, 55⟩]

/-- The byte of process 0 becomes the one process 1 has chosen. -/
theorem not_isolated_physicalWrite : ∃ k' : Kernel (Fin 2),
    Run (Guarded (fun _ _ => True) (KernelStep fun _ => 0)) (twoProcesses physicalWrite)
      [.schedule bothRunning, .run 0, .run 0] k' ∧
      regionAddr (k'.mem 0) 0 0 0 = .ok (some 0) ∧
      Present ((k'.pcb 0).mm.entry (pageIndex 0)) ∧
      delivered (fun _ => 0) k' 0 0 0 = .ok (0, some 100) ∧
      ∃ k'', run (fun _ => 0) k' 1 = .ok (0, k'') ∧
        delivered (fun _ => 0) k'' 0 0 0 = .ok (0, some 55) := by
  obtain ⟨k', hrun, hf⟩ := exists_run_of_map (fun (_ : Kernel (Fin 2)) _ => True)
    (kernelStep_of_kernelNext fun _ => 0) (twoProcesses physicalWrite)
    [.schedule bothRunning, .run 0, .run 0]
    (fun k => ((regionAddr (k.mem 0) 0 0 0).toOption,
      decide (Present ((k.pcb 0).mm.entry (pageIndex 0))),
      (delivered (fun _ => 0) k 0 0 0).toOption,
      (run (fun _ => 0) k 1).toOption.map fun r =>
        (r.1, (delivered (fun _ => 0) r.2 0 0 0).toOption)))
    (some (some 0), true, some (0, some 100), some (0, some (0, some 55))) rfl
  simp only [Prod.mk.injEq, decide_eq_true_eq] at hf
  obtain ⟨haddr, hpres, hbefore, hnext⟩ := hf
  obtain ⟨⟨n, k''⟩, hk, hr⟩ := Option.map_eq_some_iff.mp hnext
  obtain ⟨rfl, hafter⟩ := Prod.mk.inj hr
  exact ⟨k', hrun, ok_of_toOption haddr, hpres, ok_of_toOption hbefore, k'', ok_of_toOption hk,
    ok_of_toOption hafter⟩

end OsSim.MemoryIsolation
