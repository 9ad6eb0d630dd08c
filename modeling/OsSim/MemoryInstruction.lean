import OsSim.MemoryEffects
import OsSim.RunSteps

/-!
# What a memory instruction may change

The growth an instruction asks for and the address it touches are computed from
the state before it. One inversion lemma for a whole instruction: it leaves
paging alone, grows the heap, touches one page, or overwrites entries by the
mapping operation of the system call.
-/

namespace OsSim.MemoryInstruction

open MemoryWords MemoryDevice MemoryPageTable MemoryMapping MemoryPaging MemoryLibrary
open MemoryEffects RunSteps

variable {uninit : Addr → Byte}

/-- A growth that has passed the overlap check and is going to be mapped. -/
structure Growth where
  /-- The memory manager with the break moved. -/
  mm : MmStruct
  /-- The old break, where mapping starts. -/
  start : Addr
  /-- The number of pages asked for. -/
  pages : CInt

/-- The growth `inc_vma_limit` goes on to map; `none` when it refuses. -/
def growthOf (mm : MmStruct) (vmaid : CInt) (incSz : Addr) : Option Growth :=
  match getVmaByNum mm vmaid with
  | none => none
  | some (i, cur) =>
    let newEnd := cur.sbrk + paging64PageAlignsz incSz
    let grown := mm.setVma i {cur with vmEnd := newEnd, sbrk := newEnd}
    if validateOverlapVmArea grown vmaid cur.vmStart newEnd < 0 then none
    else some ⟨grown, cur.sbrk, incNumPage (paging64PageAlignsz incSz)⟩

/-- The memory manager after `get_free_vmrg_area` has gone over the free list. -/
def afterWalk (mm : MmStruct) (vmaid : CInt) (size : Addr) : MmStruct :=
  match getVmaByNum mm vmaid with
  | none => mm
  | some (i, cur) =>
    mm.setVma i {cur with vmFreergList := (getFreeVmrgArea cur.vmFreergList (toCInt size)).2}

/-- The region `get_free_vmrg_area` finds. -/
def foundRegion (mm : MmStruct) (vmaid : CInt) (size : Addr) : Option VmRg :=
  match getVmaByNum mm vmaid with
  | none => none
  | some (_, cur) => (getFreeVmrgArea cur.vmFreergList (toCInt size)).1

/-- The growth an instruction asks for. -/
def instGrowth (c : ProcMem) (ins : Inst) : Option Growth :=
  match ins.opcode with
  | .alloc =>
    if c.listed ∧ foundRegion c.mm 0 ins.arg0 = none then
      growthOf (afterWalk c.mm 0 ins.arg0) 0 ins.arg0
    else none
  | .syscall =>
    if c.listed ∧ (toCInt ins.arg0) = 17 ∧ toCInt ins.arg1 = sysmemIncOp then
      growthOf c.mm (toCInt ins.arg2) ins.arg3
    else none
  | _ => none

/-- The address an instruction touches once it has passed the bounds check. -/
def instTouch (c : ProcMem) (ins : Inst) : Option Addr :=
  match ins.opcode with
  | .read => (regionAddr c 0 (toCInt ins.arg0) ins.arg1).toOption.join
  | .write => (regionAddr c 0 (toCInt ins.arg1) ins.arg2).toOption.join
  | _ => none

/-- A read touches what its bounds check lets through. -/
theorem instTouch_read {c : ProcMem} {ins : Inst} {o : Option Addr} (hop : ins.opcode = .read)
    (h : regionAddr c 0 (toCInt ins.arg0) ins.arg1 = .ok o) : instTouch c ins = o := by
  unfold instTouch
  rw [hop]
  dsimp only
  rw [h]
  rfl

/-- A write touches the address that its bounds check lets pass. -/
theorem instTouch_write {c : ProcMem} {ins : Inst} {o : Option Addr} (hop : ins.opcode = .write)
    (h : regionAddr c 0 (toCInt ins.arg1) ins.arg2 = .ok o) : instTouch c ins = o := by
  unfold instTouch
  rw [hop]
  dsimp only
  rw [h]
  rfl

/-! ## Areas -/

/-- The area found lies at the position reported with it. -/
theorem vmaWalk_get {vmaid : CInt} {l : List VmArea} {k i : ℕ} {cur : VmArea}
    (h : vmaWalk vmaid k l = some (i, cur)) : k ≤ i ∧ l[i - k]? = some cur := by
  induction l generalizing k with
  | nil => cases h
  | cons pvma next ih =>
    rw [vmaWalk] at h
    by_cases hs : (toCInt pvma.vmId).slt vmaid = true
    · rw [if_pos hs] at h
      obtain ⟨hk, hg⟩ := ih h
      have hi : i - k = i - (k + 1) + 1 := by omega
      refine ⟨by omega, ?_⟩
      rw [hi, List.getElem?_cons_succ]
      exact hg
    · rw [if_neg hs] at h
      cases h
      rw [Nat.sub_self]
      exact ⟨Nat.le_refl _, rfl⟩

/-- Storing an area back where it was found changes nothing. -/
theorem setVma_getVmaByNum {mm : MmStruct} {vmaid : CInt} {i : ℕ} {cur : VmArea}
    (h : getVmaByNum mm vmaid = some (i, cur)) : mm.setVma i cur = mm := by
  have hg := (vmaWalk_get h).2
  rw [Nat.sub_zero] at hg
  obtain ⟨hi, he⟩ := List.getElem?_eq_some_iff.mp hg
  unfold MmStruct.setVma
  rw [← he, List.set_getElem_self]

/-- The last area stored at a position is the one that stays. -/
theorem setVma_setVma (mm : MmStruct) (i : ℕ) (a b : VmArea) :
    (mm.setVma i a).setVma i b = mm.setVma i b := by
  dsimp only [MmStruct.setVma]
  rw [List.set_set]

/-- `inc_vma_limit` refuses without a trace, or succeeds whatever `vm_map_ram`
says. -/
theorem incVmaLimit_eq (c : ProcMem) (vmaid : CInt) (incSz : Addr) :
    incVmaLimit c vmaid incSz =
      match growthOf c.mm vmaid incSz with
      | none => (-1, c)
      | some g => (0, (vmMapRam {c with mm := g.mm} g.start g.pages).2) := by
  unfold incVmaLimit growthOf
  cases hv : getVmaByNum c.mm vmaid with
  | none => rfl
  | some r =>
    obtain ⟨i, cur⟩ := r
    dsimp only
    split
    · rw [setVma_setVma]
      exact congrArg (fun mm => ((-1 : Int), {c with mm := mm})) (setVma_getVmaByNum hv)
    · rw [if_neg (not_vmMapRam_lt_zero _ _ _)]

/-- Moving the break changes neither entries nor symbols. -/
theorem growthOf_some {mm : MmStruct} {vmaid : CInt} {incSz : Addr} {g : Growth}
    (h : growthOf mm vmaid incSz = some g) :
    SamePaging mm g.mm ∧ g.mm.symrgtbl = mm.symrgtbl := by
  unfold growthOf at h
  split at h
  · cases h
  · dsimp only at h
    split at h
    · cases h
    · cases h
      exact ⟨⟨rfl, rfl⟩, rfl⟩

/-- Walking the free list changes neither entries nor symbols. -/
theorem afterWalk_same (mm : MmStruct) (vmaid : CInt) (size : Addr) :
    SamePaging mm (afterWalk mm vmaid size) ∧ (afterWalk mm vmaid size).symrgtbl = mm.symrgtbl := by
  unfold afterWalk
  split <;> exact ⟨⟨rfl, rfl⟩, rfl⟩

/-- A growth starts from the paging state before the instruction. -/
theorem instGrowth_same {c : ProcMem} {ins : Inst} {g : Growth} (h : instGrowth c ins = some g) :
    SamePaging c.mm g.mm := by
  unfold instGrowth at h
  split at h
  · split at h
    · exact (afterWalk_same _ _ _).1.trans (growthOf_some h).1
    · cases h
  · split at h
    · exact (growthOf_some h).1
    · cases h
  · cases h

/-- Mapping a range neither allocates nor frees. -/
theorem vmapPageRange_regions (mm : MmStruct) (addr : Addr) {pgnum : CInt} {frames : List Addr}
    (hlen : frames.length = loopCount pgnum) :
    (vmapPageRange mm addr pgnum frames).2.mmap = mm.mmap ∧
      (vmapPageRange mm addr pgnum frames).2.symrgtbl = mm.symrgtbl := by
  unfold vmapPageRange
  exact vmapPageRangeLoop_induct (fun _ _ m => m.mmap = mm.mmap ∧ m.symrgtbl = mm.symrgtbl)
    (fun k f _ m h => ⟨(mapPage_mmap m _ f).trans h.1, (mapPage_symrgtbl m _ f).trans h.2⟩)
    hlen ⟨rfl, rfl⟩

/-- Serving a growth neither allocates nor frees. -/
theorem vmMapRam_regions (c : ProcMem) (mapstart : Addr) (incpgnum : CInt) :
    (vmMapRam c mapstart incpgnum).2.mm.mmap = c.mm.mmap ∧
      (vmMapRam c mapstart incpgnum).2.mm.symrgtbl = c.mm.symrgtbl := by
  rw [vmMapRam_eq]
  split
  · next h => exact vmapPageRange_regions c.mm mapstart (List.length_take_of_le h)
  · exact ⟨rfl, rfl⟩

/-! ## Inversion of the library calls -/

/-- The growth that `__alloc` asks for when its search finds nothing. -/
def allocGrowth (c : ProcMem) (vmaid : CInt) (size : Addr) : Option Growth :=
  if c.listed then growthOf (afterWalk c.mm vmaid size) vmaid size else none

/-- `__alloc` on an area that exists: the region found, a refused growth, or the region
past the old break. -/
theorem alloc_eq {c : ProcMem} {vmaid : CInt} {i : ℕ} {cur : VmArea}
    (hv : getVmaByNum c.mm vmaid = some (i, cur)) (rgid : CInt) (size : Addr) :
    alloc uninit c vmaid rgid size =
      match foundRegion c.mm vmaid size with
      | some rg => (symrgSlot rgid).map fun k =>
          (some rg.rgStart, {c with mm := (afterWalk c.mm vmaid size).setSymrg k rg})
      | none =>
        match allocGrowth c vmaid size with
        | none => .ok (none, {c with mm := afterWalk c.mm vmaid size})
        | some g => (symrgSlot rgid).map fun k => (some (toAddr (toCInt cur.sbrk)),
            {(vmMapRam {c with mm := g.mm} g.start g.pages).2 with
              mm := (vmMapRam {c with mm := g.mm} g.start g.pages).2.mm.setSymrg k
                ⟨toAddr (toCInt cur.sbrk), toAddr (toCInt cur.sbrk) + size⟩}) := by
  unfold alloc
  have hfound : foundRegion c.mm vmaid size =
      (getFreeVmrgArea cur.vmFreergList (toCInt size)).1 := by
    unfold foundRegion
    rw [hv]
  have hwalk : afterWalk c.mm vmaid size = c.mm.setVma i
      {cur with vmFreergList := (getFreeVmrgArea cur.vmFreergList (toCInt size)).2} := by
    unfold afterWalk
    rw [hv]
  unfold allocGrowth
  rw [hv, hfound, hwalk]
  dsimp only
  cases (getFreeVmrgArea cur.vmFreergList (toCInt size)).1 with
  | some rg =>
    dsimp only
    cases symrgSlot rgid <;> rfl
  | none =>
    dsimp only
    rw [(syscall_inc uninit _ _ _).1, (syscall_inc uninit _ _ _).2, toCInt_toAddr, incVmaLimit_eq]
    by_cases hl : c.listed = true
    · rw [if_pos hl, if_pos hl, if_pos hl]
      cases growthOf (c.mm.setVma i
          {cur with vmFreergList := (getFreeVmrgArea cur.vmFreergList (toCInt size)).2})
          vmaid size with
      | none => rfl
      | some g =>
        dsimp only
        rw [if_neg (by decide)]
        cases symrgSlot rgid <;> rfl
    · rw [if_neg hl, if_neg hl, if_neg hl, if_pos rfl]

/-- The ways `__alloc` can end: a free region is reused, growth is refused, or
the region past the old break is entered. -/
theorem alloc_cases {c c' : ProcMem} {vmaid rgid : CInt} {size : Addr} {o : Option Addr}
    (h : alloc uninit c vmaid rgid size = .ok (o, c')) :
    (∃ rg k, foundRegion c.mm vmaid size = some rg ∧ symrgSlot rgid = .ok k ∧
      o = some rg.rgStart ∧ c' = {c with mm := (afterWalk c.mm vmaid size).setSymrg k rg}) ∨
    (foundRegion c.mm vmaid size = none ∧
      (c.listed = false ∨ growthOf (afterWalk c.mm vmaid size) vmaid size = none) ∧
      o = none ∧ c' = {c with mm := afterWalk c.mm vmaid size}) ∨
    (∃ i cur g k, foundRegion c.mm vmaid size = none ∧ c.listed = true ∧
      getVmaByNum c.mm vmaid = some (i, cur) ∧
      growthOf (afterWalk c.mm vmaid size) vmaid size = some g ∧ symrgSlot rgid = .ok k ∧
      o = some (toAddr (toCInt cur.sbrk)) ∧
      c' = {(vmMapRam {c with mm := g.mm} g.start g.pages).2 with
        mm := (vmMapRam {c with mm := g.mm} g.start g.pages).2.mm.setSymrg k
          ⟨toAddr (toCInt cur.sbrk), toAddr (toCInt cur.sbrk) + size⟩}) := by
  cases hv : getVmaByNum c.mm vmaid with
  | none =>
    unfold alloc at h
    rw [hv] at h
    cases h
  | some r =>
    obtain ⟨i, cur⟩ := r
    rw [alloc_eq hv] at h
    cases hf : foundRegion c.mm vmaid size with
    | some rg =>
      rw [hf] at h
      obtain ⟨k, hk, he⟩ := ok_of_map h
      cases he
      exact Or.inl ⟨rg, k, rfl, hk, rfl, rfl⟩
    | none =>
      rw [hf] at h
      unfold allocGrowth at h
      dsimp only at h
      by_cases hl : c.listed = true
      · rw [if_pos hl] at h
        cases hg : growthOf (afterWalk c.mm vmaid size) vmaid size with
        | none =>
          rw [hg] at h
          cases h
          exact Or.inr (Or.inl ⟨rfl, Or.inr rfl, rfl, rfl⟩)
        | some g =>
          rw [hg] at h
          obtain ⟨k, hk, he⟩ := ok_of_map h
          cases he
          exact Or.inr (Or.inr ⟨i, cur, g, k, rfl, hl, rfl, rfl, hk, rfl, rfl⟩)
      · rw [if_neg hl] at h
        cases h
        exact Or.inr (Or.inl ⟨rfl, Or.inl (Bool.eq_false_iff.mpr hl), rfl, rfl⟩)

/-- The ways `__free` can end: refused, or the region leaves the table for the
free list of the first area, which an empty region does not enter. -/
theorem free_cases {c c' : ProcMem} {rgid : CInt} {n : Int} (h : free c rgid = .ok (n, c')) :
    (n = -1 ∧ c' = c) ∨
    (∃ k vma0 next, symrgSlot rgid = .ok k ∧ c.mm.mmap = vma0 :: next ∧ n = 0 ∧
      c' = {c with mm :=
        if (c.mm.symrgtbl k).rgEnd ≤ (c.mm.symrgtbl k).rgStart then c.mm.setSymrg k ⟨0, 0⟩
        else {c.mm.setSymrg k ⟨0, 0⟩ with
          mmap := {vma0 with vmFreergList := c.mm.symrgtbl k :: vma0.vmFreergList} :: next}}) := by
  unfold free at h
  split at h
  · cases h
    exact Or.inl ⟨rfl, rfl⟩
  · obtain ⟨k, hk, h⟩ := ok_of_bind h
    dsimp only at h
    split at h
    · cases h
      exact Or.inl ⟨rfl, rfl⟩
    · unfold enlistVmFreergList at h
      rw [MmStruct.setSymrg_mmap] at h
      cases hm : c.mm.mmap with
      | nil => rw [hm] at h; cases h
      | cons vma0 next =>
        rw [hm] at h
        refine Or.inr ⟨k, vma0, next, hk, rfl, ?_⟩
        dsimp only at h
        by_cases hle : (c.mm.symrgtbl k).rgEnd ≤ (c.mm.symrgtbl k).rgStart
        · rw [if_pos hle] at h
          cases h
          rw [if_pos hle]
          exact ⟨rfl, rfl⟩
        · rw [if_neg hle] at h
          cases h
          rw [if_neg hle]
          exact ⟨rfl, rfl⟩

/-- `__read` is refused by the bounds check, or is the byte access behind it. -/
theorem read_cases {c : ProcMem} {vmaid rgid : CInt} {offset : Addr} {data : Byte}
    {r : Int × Byte × ProcMem} (h : read uninit c vmaid rgid offset data = .ok r) :
    (regionAddr c vmaid rgid offset = .ok none ∧ r = (-1, data, c)) ∨
    (∃ addr, regionAddr c vmaid rgid offset = .ok (some addr) ∧
      r = (0, (pgGetval uninit c addr data).2)) := by
  obtain ⟨o, ha, h⟩ := ok_of_bind h
  cases o with
  | none => cases h; exact Or.inl ⟨ha, rfl⟩
  | some addr => cases h; exact Or.inr ⟨addr, ha, rfl⟩

/-- `__write` is refused by the bounds check, or is the byte access behind it. -/
theorem write_cases {c : ProcMem} {vmaid rgid : CInt} {offset : Addr} {value : Byte}
    {r : Int × ProcMem} (h : write uninit c vmaid rgid offset value = .ok r) :
    (regionAddr c vmaid rgid offset = .ok none ∧ r = (-1, c)) ∨
    (∃ addr, regionAddr c vmaid rgid offset = .ok (some addr) ∧
      r = (0, (pgSetval uninit c addr value).2)) := by
  obtain ⟨o, ha, h⟩ := ok_of_bind h
  cases o with
  | none => cases h; exact Or.inl ⟨ha, rfl⟩
  | some addr => cases h; exact Or.inr ⟨addr, ha, rfl⟩

/-- The library call behind an instruction, with its status, the word it delivers
and the memory it leaves. -/
inductive InstCall (uninit : Addr → Byte) (c : ProcMem) (ins : Inst) :
    Int → Option UInt → ProcMem → Prop
  /-- `calc`. -/
  | «calc» (hop : ins.opcode = .calc) : InstCall uninit c ins 0 none c
  /-- `liballoc`. -/
  | alloc {o : Option Addr} {c' : ProcMem} (hop : ins.opcode = .alloc)
      (h : alloc uninit c 0 (toCInt ins.arg1) ins.arg0 = .ok (o, c')) :
      InstCall uninit c ins (if o.isNone then -1 else 0) none c'
  /-- `libfree`. -/
  | free {n : Int} {c' : ProcMem} (hop : ins.opcode = .free)
      (h : free c (toCInt ins.arg0) = .ok (n, c')) : InstCall uninit c ins n none c'
  /-- `libread` that fails the bounds check. -/
  | readRefused (hop : ins.opcode = .read)
      (ha : regionAddr c 0 (toCInt ins.arg0) ins.arg1 = .ok none) :
      InstCall uninit c ins (-1) none c
  /-- `libread`. -/
  | read {addr : Addr} (hop : ins.opcode = .read)
      (ha : regionAddr c 0 (toCInt ins.arg0) ins.arg1 = .ok (some addr)) :
      InstCall uninit c ins 0
        (some ((pgGetval uninit c addr (uninit ins.arg1)).2.1.signExtend 32))
        (pgGetval uninit c addr (uninit ins.arg1)).2.2
  /-- `libwrite` that fails the bounds check. -/
  | writeRefused (hop : ins.opcode = .write)
      (ha : regionAddr c 0 (toCInt ins.arg1) ins.arg2 = .ok none) :
      InstCall uninit c ins (-1) none c
  /-- `libwrite`. -/
  | write {addr : Addr} (hop : ins.opcode = .write)
      (ha : regionAddr c 0 (toCInt ins.arg1) ins.arg2 = .ok (some addr)) :
      InstCall uninit c ins 0 none (pgSetval uninit c addr (ins.arg0.setWidth 8)).2
  /-- `libsyscall`. -/
  | syscall (hop : ins.opcode = .syscall) : InstCall uninit c ins
      (libsyscall uninit c (toCInt ins.arg0) ins.arg1 ins.arg2 ins.arg3).1 none
      (libsyscall uninit c (toCInt ins.arg0) ins.arg1 ins.arg2 ins.arg3).2

/-- Every instruction that does not run into undefined behaviour is a call of the list. -/
theorem execInst_call {c c' : ProcMem} {ins : Inst} {n : Int} {d : Option UInt}
    (h : execInst uninit c ins = .ok (n, d, c')) : InstCall uninit c ins n d c' := by
  unfold execInst at h
  cases hop : ins.opcode with
  | «calc» =>
    rw [hop] at h
    cases h
    exact .calc hop
  | alloc =>
    rw [hop] at h
    obtain ⟨r, hlib, h⟩ := ok_of_bind h
    obtain ⟨o, ha, hlib⟩ := ok_of_bind hlib
    cases hlib
    cases h
    exact .alloc hop ha
  | free =>
    rw [hop] at h
    obtain ⟨r, ha, h⟩ := ok_of_bind h
    cases h
    exact .free hop ha
  | read =>
    rw [hop] at h
    obtain ⟨r, hlib, h⟩ := ok_of_bind h
    obtain ⟨r', ha, hlib⟩ := ok_of_bind hlib
    obtain ⟨hr, rfl⟩ | ⟨addr, hr, rfl⟩ := read_cases ha
    · rw [if_pos rfl] at hlib
      cases hlib
      cases h
      exact .readRefused hop hr
    · have h0 : (0 : Int) ≠ -1 := by decide
      rw [if_neg h0] at hlib
      cases hlib
      cases h
      exact .read hop hr
  | write =>
    rw [hop] at h
    obtain ⟨r, ha, h⟩ := ok_of_bind h
    cases h
    obtain ⟨hr, he⟩ | ⟨addr, hr, he⟩ := write_cases ha
    · rw [he]
      exact .writeRefused hop hr
    · rw [he]
      exact .write hop hr
  | syscall =>
    rw [hop] at h
    cases h
    exact .syscall hop

/-- The operation behind the system call instruction, with the memory it leaves. -/
inductive SysCall (uninit : Addr → Byte) (c : ProcMem) (ins : Inst) : ProcMem → Prop
  /-- Nothing changes, and no growth was asked for. -/
  | idle (h : ¬(c.listed = true ∧ toCInt ins.arg0 = 17 ∧ toCInt ins.arg1 = sysmemIncOp)) :
      SysCall uninit c ins c
  /-- `SYSMEM_MAP_OP`. -/
  | map (hnr : toCInt ins.arg0 = 17) (hm : toCInt ins.arg1 = sysmemMapOp) :
      SysCall uninit c ins {c with mm := (vmapPgdMemset c.mm ins.arg2 (toCInt ins.arg3)).2}
  /-- `SYSMEM_INC_OP`. -/
  | inc (hl : c.listed = true) (hnr : toCInt ins.arg0 = 17) (hm : toCInt ins.arg1 = sysmemIncOp) :
      SysCall uninit c ins (incVmaLimit c (toCInt ins.arg2) ins.arg3).2
  /-- `SYSMEM_SWP_OP`. -/
  | swp (hm : toCInt ins.arg1 = sysmemSwpOp) : SysCall uninit c ins
      {c with activeMswp := swapCpPage uninit c.mram ins.arg2 c.activeMswp ins.arg3}
  /-- `SYSMEM_IO_WRITE`. -/
  | ioWrite {mram : MemphyStruct} (hnr : toCInt ins.arg0 = 17)
      (hm : toCInt ins.arg1 = sysmemIoWrite)
      (hw : memphyWrite c.mram ins.arg2 (ins.arg3.setWidth 8) = some mram) :
      SysCall uninit c ins {c with mram := mram}

/-- The system call instruction is an operation of the list. -/
theorem libsyscall_call (c : ProcMem) (ins : Inst) : SysCall uninit c ins
    (libsyscall uninit c (toCInt ins.arg0) ins.arg1 ins.arg2 ins.arg3).2 := by
  dsimp only [libsyscall, syscall]
  by_cases hnr : toCInt ins.arg0 = 17
  · rw [if_pos hnr]
    dsimp only [sysMemmap]
    by_cases hl : c.listed = false
    · rw [if_pos hl]
      exact .idle fun h => Bool.noConfusion (hl.symm.trans h.1)
    · rw [if_neg hl]
      split
      · next hm => exact .map hnr hm
      · split
        · next hm => exact .inc (Bool.eq_true_of_not_eq_false hl) hnr hm
        · next hinc =>
          have hidle : SysCall uninit c ins c := .idle fun h => hinc h.2.2
          split
          · next hm => exact .swp hm
          · split
            · split <;> exact hidle
            · split
              · next hm =>
                split
                · exact hidle
                · next mram hw => exact .ioWrite hnr hm hw
              · exact hidle
  · rw [if_neg hnr]
    exact .idle fun h => hnr h.2.1

/-! ## A whole instruction -/

/-- What one instruction does to entries, replacement list and devices. -/
inductive InstEffect (uninit : Addr → Byte) (c : ProcMem) (ins : Inst) : ProcMem → Prop
  /-- At most regions, areas and stored bytes change. -/
  | quiet {mm : MmStruct} {mram mswp : MemphyStruct} (hp : SamePaging c.mm mm)
      (hr : SameFrames c.mram mram) (hs : SameFrames c.activeMswp mswp) :
      InstEffect uninit c ins {c with mm := mm, mram := mram, activeMswp := mswp}
  /-- A growth is mapped. -/
  | grow {g : Growth} {mm : MmStruct} (hg : instGrowth c ins = some g)
      (hp : SamePaging (vmMapRam {c with mm := g.mm} g.start g.pages).2.mm mm) :
      InstEffect uninit c ins {(vmMapRam {c with mm := g.mm} g.start g.pages).2 with mm := mm}
  /-- A page is accessed. -/
  | touch {addr : Addr} {mram : MemphyStruct} (ht : instTouch c ins = some addr)
      (hr : SameFrames (pgGetpage uninit c (addrPage addr)).2.mram mram) :
      InstEffect uninit c ins {(pgGetpage uninit c (addrPage addr)).2 with mram := mram}
  /-- Entries are overwritten by the dummy pattern. -/
  | memset (hop : ins.opcode = .syscall) (hnr : toCInt ins.arg0 = 17)
      (hm : toCInt ins.arg1 = sysmemMapOp) :
      InstEffect uninit c ins
        {c with mm := (vmapPgdMemset c.mm ins.arg2 (toCInt ins.arg3)).2}

/-- A change of memory manager only, with the same paging. -/
theorem InstEffect.ofSamePaging {c : ProcMem} {ins : Inst} {mm : MmStruct}
    (hp : SamePaging c.mm mm) : InstEffect uninit c ins {c with mm := mm} :=
  .quiet hp (SameFrames.refl _) (SameFrames.refl _)

/-- The effect of the system call instruction. -/
theorem libsyscall_effect (c : ProcMem) {ins : Inst} (hop : ins.opcode = .syscall) :
    InstEffect uninit c ins
      (libsyscall uninit c (toCInt ins.arg0) ins.arg1 ins.arg2 ins.arg3).2 := by
  have hsame : InstEffect uninit c ins c := .ofSamePaging (SamePaging.refl _)
  have hcall := @libsyscall_call uninit c ins
  generalize (libsyscall uninit c (toCInt ins.arg0) ins.arg1 ins.arg2 ins.arg3).2 = c' at hcall ⊢
  cases hcall with
  | idle => exact hsame
  | map hnr hm => exact .memset hop hnr hm
  | inc hl hnr hm =>
    rw [incVmaLimit_eq]
    cases hg : growthOf c.mm (toCInt ins.arg2) ins.arg3 with
    | none => exact hsame
    | some g =>
      refine .grow (g := g) ?_ (SamePaging.refl _)
      unfold instGrowth
      rw [hop]
      dsimp only
      rw [if_pos ⟨hl, hnr, hm⟩, hg]
  | swp =>
    exact .quiet (SamePaging.refl _) (SameFrames.refl _) (sameFrames_swapCpPage uninit _ _ _ _)
  | ioWrite _ _ hw =>
    have hf := sameFrames_memphyWrite c.mram ins.arg2 (ins.arg3.setWidth 8)
    rw [hw] at hf
    exact .quiet (SamePaging.refl _) hf (SameFrames.refl _)

/-- Every instruction that does not run into undefined behaviour has one of the
four effects. -/
theorem execInst_effect {c c' : ProcMem} {ins : Inst} {n : Int} {d : Option UInt}
    (h : execInst uninit c ins = .ok (n, d, c')) : InstEffect uninit c ins c' := by
  have hsame : InstEffect uninit c ins c := .ofSamePaging (SamePaging.refl _)
  cases execInst_call h with
  | «calc» _ => exact hsame
  | alloc hop ha =>
    obtain ⟨rg, k, _, _, _, rfl⟩ | ⟨_, _, _, rfl⟩ | ⟨i, cur, g, k, hf, hl, _, hg, _, _, rfl⟩ :=
      alloc_cases ha
    · obtain ⟨hp, _⟩ := afterWalk_same c.mm 0 ins.arg0
      exact .ofSamePaging ⟨hp.entry, hp.fifoPgn⟩
    · exact .ofSamePaging (afterWalk_same c.mm 0 ins.arg0).1
    · refine .grow (g := g) ?_ ⟨rfl, rfl⟩
      unfold instGrowth
      rw [hop]
      dsimp only
      rw [if_pos ⟨hl, hf⟩, hg]
  | free _ ha =>
    obtain ⟨_, rfl⟩ | ⟨k, vma0, next, _, _, _, rfl⟩ := free_cases ha
    · exact hsame
    · refine .ofSamePaging ?_
      split <;> exact ⟨rfl, rfl⟩
  | readRefused _ _ => exact hsame
  | @read addr hop hr =>
    rw [pgGetval_snd]
    exact .touch (instTouch_read hop hr) (SameFrames.refl _)
  | writeRefused _ _ => exact hsame
  | @write addr hop hr =>
    obtain ⟨mram, hf, he⟩ := pgSetval_frames uninit c addr (ins.arg0.setWidth 8)
    rw [he]
    exact .touch (instTouch_write hop hr) hf
  | syscall hop => exact libsyscall_effect c hop

/-! ## Runs of one process -/

/-- The memory of a process as `ld_routine` and `main` set it up: an initialised
memory manager over two fresh random-access devices. -/
def bootMem (memramsz memswpsz : Addr) : ProcMem :=
  ⟨initMm, initMemphy memramsz true, initMemphy memswpsz true, true⟩

/-- One instruction that does not run into undefined behaviour. -/
def InstStep (uninit : Addr → Byte) (c : ProcMem) (ins : Inst) (c' : ProcMem) : Prop :=
  ∃ n d, execInst uninit c ins = .ok (n, d, c')

/-- The memory after an instruction, computed. -/
def instNext (uninit : Addr → Byte) (c : ProcMem) (ins : Inst) : Option ProcMem :=
  (execInst uninit c ins).toOption.map fun r => r.2.2

theorem instStep_of_instNext (uninit : Addr → Byte) (c : ProcMem) (ins : Inst) (c' : ProcMem)
    (h : instNext uninit c ins = some c') : InstStep uninit c ins c' := by
  obtain ⟨r, he, rfl⟩ := exists_ok_of_map h
  exact ⟨r.1, r.2.1, he⟩

/-! ## What holds of the entries after every instruction -/

/-- A property of memory managers that survives whatever an instruction can do to entries
and replacement list. -/
structure EntryInvariant (P : MmStruct → Prop) : Prop where
  /-- Pages may leave the list. -/
  shorten : ∀ {mm mm' : MmStruct}, P mm → mm'.entry = mm.entry →
    (∀ v ∈ mm'.fifoPgn, v ∈ mm.fifoPgn) → P mm'
  /-- An entry may be replaced by a present one, and its page enlisted. -/
  write : ∀ {mm mm' : MmStruct} {i : Fin 512} {e : Addr}, P mm → Present e →
    mm'.entry = Function.update mm.entry i e →
    (∀ v ∈ mm'.fifoPgn, v ∈ mm.fifoPgn ∨ ptIndex v = i) → P mm'

section EntryInvariant

variable {P : MmStruct → Prop} (hP : EntryInvariant P) {mm : MmStruct}

include hP

theorem EntryInvariant.congr {mm' : MmStruct} (h : P mm) (hp : SamePaging mm mm') : P mm' := by
  refine hP.shorten h hp.entry fun v hv => ?_
  rw [← hp.fifoPgn]
  exact hv

/-- Mapping a page keeps an invariant of the entries. -/
theorem EntryInvariant.mapPage (h : P mm) (pgn fpn : Addr) : P (mapPage mm pgn fpn) := by
  refine hP.write h (present_entrySetFpn _ _) (mapPage_entry mm pgn fpn) fun v hv => ?_
  rw [mapPage_fifoPgn] at hv
  rcases List.mem_cons.mp hv with rfl | hv
  · exact Or.inr rfl
  · exact Or.inl hv

/-- Mapping a range of pages keeps an invariant of the entries. -/
theorem EntryInvariant.vmapPageRange (h : P mm) (addr : Addr) {pgnum : CInt} {frames : List Addr}
    (hlen : frames.length = loopCount pgnum) : P (vmapPageRange mm addr pgnum frames).2 := by
  unfold MemoryMapping.vmapPageRange
  exact vmapPageRangeLoop_induct (fun _ _ m => P m) (fun _ _ _ _ hm => hP.mapPage hm _ _)
    hlen (hP.congr h ⟨rfl, rfl⟩)

/-- Overwriting entries by the dummy pattern, which is present. -/
theorem EntryInvariant.vmapPgdMemsetLoop (addr : Addr) (n k : ℕ) (h : P mm) :
    P (vmapPgdMemsetLoop addr n k mm).2 := by
  induction n generalizing k mm with
  | zero => exact h
  | succ n ih =>
    rw [MemoryMapping.vmapPgdMemsetLoop]
    split
    · exact h
    · next ix _ =>
      refine ih (k + 1) ?_
      cases hd : mm.pt with
      | none =>
        refine hP.shorten h ?_ fun v hv => hv
        unfold MmStruct.entry memsetDirectory
        dsimp only
        rw [hd]
        rfl
      | some d =>
        have hpresent : Present dummyPattern := by decide
        refine hP.write (i := ix.pt) h hpresent ?_ fun v hv => Or.inl hv
        unfold MmStruct.entry memsetDirectory
        dsimp only
        rw [hd]
        rfl

/-- An access to a page keeps an invariant of the entries. -/
theorem EntryInvariant.access {c c' : ProcMem} {pgn : Addr} (h : P c.mm)
    (ha : PageAccess c pgn c') : P c'.mm := by
  have hshort : ∀ {fifo : List Addr} {v : Addr}, c.mm.fifoPgn = fifo ++ [v] →
      P {c.mm with fifoPgn := fifo} := by
    intro fifo v hv
    refine hP.shorten h rfl fun w hw => ?_
    rw [hv]
    exact List.mem_append_left _ hw
  cases ha with
  | present | noVictim => exact h
  | free => exact hP.mapPage h _ _
  | lostVictim _ _ hv => exact hshort hv
  | @evict v s fifo rest mswp _ _ hv =>
    obtain ⟨_, hentry, _, _, hfifo⟩ := pteSetSwap_spec {c.mm with fifoPgn := fifo} v 0 s
    refine hP.mapPage (hP.write (hshort hv) (present_entrySetSwap _ _ _) hentry fun w hw => ?_) _ _
    rw [hfifo] at hw
    exact Or.inl hw

/-- A property that the effects on entries keep survives every instruction. -/
theorem EntryInvariant.inst {c c' : ProcMem} {ins : Inst} (h : P c.mm)
    (hstep : InstStep uninit c ins c') : P c'.mm := by
  obtain ⟨n, d, he⟩ := hstep
  cases execInst_effect he with
  | quiet hp => exact hP.congr h hp
  | @grow g mm hg hp =>
    have hgm : P g.mm := hP.congr h (instGrowth_same hg)
    refine hP.congr ?_ hp
    rw [vmMapRam_eq]
    split
    · next hlen => exact hP.vmapPageRange hgm _ (List.length_take_of_le hlen)
    · exact hgm
  | @touch addr mram =>
    have hacc := hP.access h (pgGetpage_access uninit c (addrPage addr))
    exact hacc
  | memset => exact hP.vmapPgdMemsetLoop _ _ _ (hP.congr h ⟨rfl, rfl⟩)

end EntryInvariant

end OsSim.MemoryInstruction
