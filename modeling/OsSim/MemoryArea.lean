import OsSim.MemoryInstruction

/-!
# The heap area of a process

A process has one area, which starts at address zero and ends at its break. No
instruction changes that, whatever its operands are; the break is always a
multiple of the page size. What a growth does is computed from the break alone.
-/

namespace OsSim.MemoryArea

open MemoryWords MemoryDevice MemoryPageTable MemoryMapping MemoryPaging MemoryLibrary
open MemoryEffects MemoryInstruction

variable {uninit : Addr → Byte}

/-- The only area of a process. -/
structure HeapArea (mm : MmStruct) (vma : VmArea) : Prop where
  /-- The process has no other area. -/
  single : mm.mmap = [vma]
  /-- The area has identifier zero. -/
  vmId : vma.vmId = 0
  /-- The area starts at address zero. -/
  vmStart : vma.vmStart = 0
  /-- The area ends at its break. -/
  vmEnd : vma.vmEnd = vma.sbrk
  /-- The break is a multiple of the page size. -/
  aligned : 4096 ∣ vma.sbrk.toNat

/-- The area with its break moved. -/
def setBreak (vma : VmArea) (brk : Addr) : VmArea := {vma with vmEnd := brk, sbrk := brk}

/-- The break behind a growth. -/
def newBreak (vma : VmArea) (incSz : Addr) : Addr := vma.sbrk + paging64PageAlignsz incSz

/-- The memory manager that `init_mm` builds. -/
theorem heapArea_initMm : HeapArea initMm ⟨0, 0, 0, 0, [⟨0, 0⟩]⟩ :=
  ⟨rfl, rfl, rfl, rfl, ⟨0, rfl⟩⟩

/-- The pages that a number of bytes takes. -/
def pagesNeeded (incSz : Addr) : ℕ := (incSz.toNat + 4095) / 4096

/-- Aligning a size takes as many pages, cut to 64 bits. -/
theorem paging64PageAlignsz_toNat (incSz : Addr) :
    (paging64PageAlignsz incSz).toNat = pagesNeeded incSz * 4096 % 2 ^ 64 := by
  have hlt := incSz.isLt
  unfold paging64PageAlignsz pagesNeeded
  rw [BitVec.toNat_mul, BitVec.toNat_udiv, BitVec.toNat_sub, BitVec.toNat_add]
  change ((2 ^ 64 - 1 + (incSz.toNat + 4096) % 2 ^ 64) % 2 ^ 64) / 4096 * 4096 % 2 ^ 64 = _
  omega

/-- An aligned size is a multiple of the page size, even if aligning it wraps. -/
theorem dvd_paging64PageAlignsz (incSz : Addr) : 4096 ∣ (paging64PageAlignsz incSz).toNat := by
  rw [paging64PageAlignsz_toNat]
  omega

/-- The new break is the old one and these pages, cut to 64 bits. -/
theorem newBreak_toNat (vma : VmArea) (incSz : Addr) :
    (newBreak vma incSz).toNat = (vma.sbrk.toNat + pagesNeeded incSz * 4096) % 2 ^ 64 := by
  unfold newBreak
  rw [BitVec.toNat_add, paging64PageAlignsz_toNat, Nat.add_mod_mod]

/-- The break behind a growth is a multiple of the page size, even if it wraps. -/
theorem HeapArea.dvd_newBreak {mm : MmStruct} {vma : VmArea} (h : HeapArea mm vma)
    (incSz : Addr) : 4096 ∣ (newBreak vma incSz).toNat := by
  have ha := h.aligned
  have hd := dvd_paging64PageAlignsz incSz
  unfold newBreak
  rw [BitVec.toNat_add]
  omega

/-- Paging leaves the area alone. -/
theorem HeapArea.congr {mm mm' : MmStruct} {vma : VmArea} (h : HeapArea mm vma)
    (hm : mm'.mmap = mm.mmap) : HeapArea mm' vma :=
  ⟨hm.trans h.single, h.vmId, h.vmStart, h.vmEnd, h.aligned⟩

/-- The free list may change. -/
theorem HeapArea.of_setFree {mm mm' : MmStruct} {vma : VmArea} (h : HeapArea mm vma)
    {l : List VmRg} (hm : mm'.mmap = [{vma with vmFreergList := l}]) :
    HeapArea mm' {vma with vmFreergList := l} :=
  ⟨hm, h.vmId, h.vmStart, h.vmEnd, h.aligned⟩

/-- The break may move by a growth. -/
theorem HeapArea.of_setBreak {mm mm' : MmStruct} {vma : VmArea} (h : HeapArea mm vma)
    {incSz : Addr} (hm : mm'.mmap = [setBreak vma (newBreak vma incSz)]) :
    HeapArea mm' (setBreak vma (newBreak vma incSz)) :=
  ⟨hm, h.vmId, h.vmStart, rfl, h.dvd_newBreak incSz⟩

/-- A search for an area finds the heap for every identifier that is not positive. -/
theorem HeapArea.getVmaByNum_eq {mm : MmStruct} {vma : VmArea} (h : HeapArea mm vma)
    (vmaid : CInt) :
    getVmaByNum mm vmaid = if (0 : CInt).slt vmaid then none else some (0, vma) := by
  unfold getVmaByNum
  rw [h.single, vmaWalk, h.vmId]
  rfl

/-- What the search of `__alloc` finds. -/
theorem HeapArea.foundRegion_eq {mm : MmStruct} {vma : VmArea} (h : HeapArea mm vma)
    (vmaid : CInt) (size : Addr) : foundRegion mm vmaid size =
      if (0 : CInt).slt vmaid then none
      else (getFreeVmrgArea vma.vmFreergList (toCInt size)).1 := by
  unfold foundRegion
  rw [h.getVmaByNum_eq]
  by_cases hv : (0 : CInt).slt vmaid = true
  · rw [if_pos hv, if_pos hv]
  · rw [if_neg hv, if_neg hv]

/-- The search for a free region changes the free regions of the only area, and nothing
else of the areas. -/
theorem HeapArea.afterWalk_mmap {mm : MmStruct} {vma : VmArea} (h : HeapArea mm vma)
    (vmaid : CInt) (size : Addr) : (afterWalk mm vmaid size).mmap = [{vma with
      vmFreergList := if (0 : CInt).slt vmaid then vma.vmFreergList
        else (getFreeVmrgArea vma.vmFreergList (toCInt size)).2}] := by
  unfold afterWalk
  rw [h.getVmaByNum_eq]
  by_cases hv : (0 : CInt).slt vmaid = true
  · rw [if_pos hv, if_pos hv]
    exact h.single
  · rw [if_neg hv, if_neg hv]
    dsimp only [MmStruct.setVma]
    rw [h.single, List.set_cons_zero]

/-- The heap overlaps no other area; only an empty one is refused. -/
theorem HeapArea.validateOverlap_eq {mm : MmStruct} {vma : VmArea} (h : HeapArea mm vma)
    {vmaid : CInt} (hv : ¬(0 : CInt).slt vmaid = true) (brk : Addr) :
    validateOverlapVmArea mm vmaid 0 brk = if brk = 0 then -1 else 0 := by
  unfold validateOverlapVmArea
  have hle : brk ≤ 0 ↔ brk = 0 := BitVec.le_zero_iff
  rw [h.getVmaByNum_eq, if_neg hv, h.single]
  by_cases hz : brk = 0
  · rw [if_pos hz, if_pos (hle.mpr hz)]
  · rw [if_neg hz, if_neg (hz ∘ hle.mp)]
    rfl

/-- A growth is refused for a positive identifier, or when the break would be zero;
otherwise the break moves by the aligned size. -/
theorem HeapArea.growthOf_eq {mm : MmStruct} {vma : VmArea} (h : HeapArea mm vma)
    (vmaid : CInt) (incSz : Addr) : growthOf mm vmaid incSz =
      if (0 : CInt).slt vmaid ∨ newBreak vma incSz = 0 then none
      else some ⟨{mm with mmap := [setBreak vma (newBreak vma incSz)]}, vma.sbrk,
        incNumPage (paging64PageAlignsz incSz)⟩ := by
  unfold growthOf
  rw [h.getVmaByNum_eq]
  by_cases hv : (0 : CInt).slt vmaid = true
  · rw [if_pos hv, if_pos (Or.inl hv)]
  · have hgrown : mm.setVma 0 (setBreak vma (newBreak vma incSz)) =
        {mm with mmap := [setBreak vma (newBreak vma incSz)]} := by
      unfold MmStruct.setVma
      rw [h.single, List.set_cons_zero]
    have hnew : HeapArea {mm with mmap := [setBreak vma (newBreak vma incSz)]} _ :=
      h.of_setBreak rfl
    rw [if_neg hv]
    dsimp only
    change (if validateOverlapVmArea (mm.setVma 0 (setBreak vma (newBreak vma incSz))) vmaid
      vma.vmStart (newBreak vma incSz) < 0 then none else some (Growth.mk (mm.setVma 0
        (setBreak vma (newBreak vma incSz))) _ _)) = _
    rw [hgrown, h.vmStart, hnew.validateOverlap_eq hv]
    by_cases hz : newBreak vma incSz = 0
    · rw [if_pos hz, if_pos (Or.inr hz), if_pos (by decide)]
    · have hor : ¬((0 : CInt).slt vmaid = true ∨ newBreak vma incSz = 0) :=
        fun ho => ho.elim hv hz
      rw [if_neg hz, if_neg hor]
      rfl

/-- On a heap `inc_vma_limit` changes nothing, or moves the break and then maps. -/
theorem HeapArea.incVmaLimit_break {c : ProcMem} {vma : VmArea} (h : HeapArea c.mm vma)
    (vmaid : CInt) (incSz : Addr) : incVmaLimit c vmaid incSz =
      if (0 : CInt).slt vmaid ∨ newBreak vma incSz = 0 then (-1, c)
      else (0, (vmMapRam {c with mm := {c.mm with mmap := [setBreak vma (newBreak vma incSz)]}}
        vma.sbrk (incNumPage (paging64PageAlignsz incSz))).2) := by
  rw [incVmaLimit_eq, h.growthOf_eq]
  by_cases hr : (0 : CInt).slt vmaid = true ∨ newBreak vma incSz = 0
  · rw [if_pos hr, if_pos hr]
  · rw [if_neg hr, if_neg hr]

/-- The growth of `__alloc` is refused as that of the system call is. -/
theorem HeapArea.allocGrowth_eq_none {c : ProcMem} {vma : VmArea} (h : HeapArea c.mm vma)
    (vmaid : CInt) (size : Addr) : allocGrowth c vmaid size = none ↔
      c.listed = false ∨ (0 : CInt).slt vmaid ∨ newBreak vma size = 0 := by
  have hwalk := h.of_setFree (h.afterWalk_mmap vmaid size)
  have hbreak : ∀ l, newBreak {vma with vmFreergList := l} size = newBreak vma size := fun _ => rfl
  unfold allocGrowth
  rw [hwalk.growthOf_eq, hbreak]
  by_cases hlisted : c.listed = true
  · rw [if_pos hlisted, hlisted]
    by_cases hr : (0 : CInt).slt vmaid = true ∨ newBreak vma size = 0
    · rw [if_pos hr]
      exact ⟨fun _ => Or.inr hr, fun _ => rfl⟩
    · rw [if_neg hr]
      exact ⟨(nomatch ·), fun ho => absurd (ho.resolve_left Bool.noConfusion) hr⟩
  · rw [if_neg hlisted]
    exact ⟨fun _ => Or.inl (Bool.eq_false_iff.mpr hlisted), fun _ => rfl⟩

/-! ## Instructions -/

/-- Overwriting entries by the dummy pattern neither allocates nor frees. -/
theorem vmapPgdMemset_regions (mm : MmStruct) (addr : Addr) (pgnum : CInt) :
    (vmapPgdMemset mm addr pgnum).2.mmap = mm.mmap ∧
      (vmapPgdMemset mm addr pgnum).2.symrgtbl = mm.symrgtbl := by
  have hloop : ∀ n k (mm : MmStruct), (vmapPgdMemsetLoop addr n k mm).2.mmap = mm.mmap ∧
      (vmapPgdMemsetLoop addr n k mm).2.symrgtbl = mm.symrgtbl := by
    intro n
    induction n with
    | zero => exact fun _ _ => ⟨rfl, rfl⟩
    | succ n ih =>
      intro k mm
      rw [vmapPgdMemsetLoop]
      split
      · exact ⟨rfl, rfl⟩
      · exact ih _ _
  exact hloop _ _ _

/-- A growth keeps the shape of the area. -/
theorem HeapArea.grow {mm : MmStruct} {vma : VmArea} (h : HeapArea mm vma) {vmaid : CInt}
    {incSz : Addr} {g : Growth} (hg : growthOf mm vmaid incSz = some g) :
    ∃ vma', HeapArea g.mm vma' := by
  rw [h.growthOf_eq] at hg
  split at hg
  · cases hg
  · cases hg
    exact ⟨_, h.of_setBreak rfl⟩

/-- Mapping what has been grown keeps the area of the heap. -/
theorem HeapArea.vmMapRam {c : ProcMem} {g : Growth} {vma : VmArea} (h : HeapArea g.mm vma) :
    HeapArea (vmMapRam {c with mm := g.mm} g.start g.pages).2.mm vma :=
  h.congr (vmMapRam_regions _ _ _).1

/-- What an instruction does to areas and symbols. -/
inductive RegionEffect (uninit : Addr → Byte) (c : ProcMem) (ins : Inst) : ProcMem → Prop
  /-- At most paging and stored bytes change. -/
  | same {c' : ProcMem} (hm : c'.mm.mmap = c.mm.mmap) (hs : c'.mm.symrgtbl = c.mm.symrgtbl) :
      RegionEffect uninit c ins c'
  /-- `__alloc`. -/
  | alloc {o : Option Addr} {c' : ProcMem} (hop : ins.opcode = .alloc)
      (h : alloc uninit c 0 (toCInt ins.arg1) ins.arg0 = .ok (o, c')) :
      RegionEffect uninit c ins c'
  /-- `__free`. -/
  | free {n : Int} {c' : ProcMem} (h : MemoryLibrary.free c (toCInt ins.arg0) = .ok (n, c')) :
      RegionEffect uninit c ins c'
  /-- `inc_vma_limit`, called by the system call. -/
  | inc (hop : ins.opcode = .syscall) (hnr : toCInt ins.arg0 = 17)
      (hm : toCInt ins.arg1 = sysmemIncOp) :
      RegionEffect uninit c ins (incVmaLimit c (toCInt ins.arg2) ins.arg3).2

/-- Every instruction has an effect of the list on areas and symbols. -/
theorem instStep_regions {c c' : ProcMem} {ins : Inst} (hstep : InstStep uninit c ins c') :
    RegionEffect uninit c ins c' := by
  obtain ⟨n, d, he⟩ := hstep
  have haccess : ∀ {p : Addr} {c₁ : ProcMem} {mram : MemphyStruct}, PageAccess c p c₁ →
      RegionEffect uninit c ins {c₁ with mram := mram} :=
    fun ha => .same ha.sameRegions.1.mmap ha.sameRegions.1.symrgtbl
  cases execInst_call he with
  | «calc» _ | readRefused _ _ | writeRefused _ _ => exact .same rfl rfl
  | alloc hop ha => exact .alloc hop ha
  | free _ ha => exact .free ha
  | @read addr _ _ =>
    rw [pgGetval_snd]
    exact haccess (pgGetpage_access uninit c (addrPage addr))
  | @write addr _ _ =>
    obtain ⟨mram, _, hw⟩ := pgSetval_frames uninit c addr (ins.arg0.setWidth 8)
    rw [hw]
    exact haccess (pgGetpage_access uninit c (addrPage addr))
  | syscall hop =>
    have hcall := @libsyscall_call uninit c ins
    generalize (libsyscall uninit c (toCInt ins.arg0) ins.arg1 ins.arg2 ins.arg3).2 = c' at hcall ⊢
    cases hcall with
    | idle | swp | ioWrite => exact .same rfl rfl
    | map =>
      obtain ⟨hmap, hsym⟩ := vmapPgdMemset_regions c.mm ins.arg2 (toCInt ins.arg3)
      exact .same hmap hsym
    | inc _ hnr hm => exact .inc hop hnr hm

/-- No instruction changes the shape of the area. -/
theorem HeapArea.inst {c c' : ProcMem} {ins : Inst} {vma : VmArea} (h : HeapArea c.mm vma)
    (hstep : InstStep uninit c ins c') : ∃ vma', HeapArea c'.mm vma' := by
  have hwalk : ∀ size, ∃ vma', HeapArea (afterWalk c.mm 0 size) vma' :=
    fun size => ⟨_, h.of_setFree (h.afterWalk_mmap 0 size)⟩
  cases instStep_regions hstep with
  | same hm _ => exact ⟨vma, h.congr hm⟩
  | alloc _ ha =>
    obtain ⟨rg, k, _, _, _, rfl⟩ | ⟨_, _, _, rfl⟩ | ⟨i, cur, g, k, _, _, _, hg, _, _, rfl⟩ :=
      alloc_cases ha
    · obtain ⟨vma', hw⟩ := hwalk ins.arg0
      exact ⟨vma', hw.congr rfl⟩
    · exact hwalk ins.arg0
    · obtain ⟨vma', hw⟩ := hwalk ins.arg0
      obtain ⟨vma'', hgrow⟩ := hw.grow hg
      exact ⟨vma'', (HeapArea.vmMapRam hgrow).congr rfl⟩
  | free ha =>
    obtain ⟨_, rfl⟩ | ⟨k, vma0, next, _, hm, _, rfl⟩ := free_cases ha
    · exact ⟨vma, h⟩
    · rw [h.single] at hm
      obtain ⟨rfl, rfl⟩ := List.cons.inj hm
      dsimp only
      split
      · exact ⟨vma, h.congr rfl⟩
      · exact ⟨_, h.of_setFree rfl⟩
  | inc =>
    rw [incVmaLimit_eq]
    cases hg : growthOf c.mm (toCInt ins.arg2) ins.arg3 with
    | none => exact ⟨vma, h⟩
    | some g =>
      obtain ⟨vma', hgrow⟩ := h.grow hg
      exact ⟨vma', HeapArea.vmMapRam hgrow⟩

end OsSim.MemoryArea
