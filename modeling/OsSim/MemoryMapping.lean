import OsSim.MemoryPageTable

/-!
# Areas, heap growth and bulk mapping

The functions that grow the heap of a process: frames are popped from RAM one by
one, then written into the page table one by one. The status of the mapping step
travels through an unsigned return type, and the comparisons made on it are kept
as unsigned comparisons.
-/

namespace OsSim.MemoryMapping

open MemoryWords MemoryDevice MemoryPageTable

/-- What a memory function reaches from its `caller`: `caller->mm` and, through
`caller->krnl`, the two devices. -/
structure ProcMem where
  /-- `caller->mm`. -/
  mm : MmStruct
  /-- `caller->krnl->mram`. -/
  mram : MemphyStruct
  /-- `caller->krnl->active_mswp`. -/
  activeMswp : MemphyStruct
  /-- Whether `find_process_by_pid` finds the caller in the kernel's queues,
  which no memory function changes. -/
  listed : Bool

/-- The `int` product `pgit * PAGING64_PAGESZ`, widened to an address. -/
def pageOffset (pgit : ℕ) : Addr := toAddr (BitVec.ofNat 32 pgit * BitVec.ofNat 32 paging64Pagesz)

/-- `calloc` of a directory that does not exist yet. -/
def ensureDirectory (dir : Option Directory) : Option Directory :=
  some (dir.getD callocDirectory)

/-- All five directories exist afterwards. -/
def ensureDirectories (mm : MmStruct) : MmStruct :=
  {mm with
    pgd := ensureDirectory mm.pgd
    p4d := ensureDirectory mm.p4d
    pud := ensureDirectory mm.pud
    pmd := ensureDirectory mm.pmd
    pt := ensureDirectory mm.pt}

/-- `0xdeadbeef | PAGING_PTE_PRESENT_MASK`. -/
def dummyPattern : Addr := (0xdeadbeef#32 ||| pagingPtePresentMask).setWidth 64

/-- Write the dummy pattern at one index of an existing directory. -/
def memsetDirectory (dir : Option Directory) (idx : Fin 512) : Option Directory :=
  dir.map fun d => Function.update d idx dummyPattern

/-- The loop of `vmap_pgd_memset`, from iteration `pgit` on. -/
def vmapPgdMemsetLoop (addr : Addr) : ℕ → ℕ → MmStruct → Int × MmStruct
  | 0, _, mm => (0, mm)
  | n + 1, pgit, mm =>
    match getPdFromAddress (addr + pageOffset pgit) with
    | none => (-1, mm)
    | some ix =>
      vmapPgdMemsetLoop addr n (pgit + 1) {mm with
        pgd := memsetDirectory mm.pgd ix.pgd
        p4d := memsetDirectory mm.p4d ix.p4d
        pud := memsetDirectory mm.pud ix.pud
        pmd := memsetDirectory mm.pmd ix.pmd
        pt := memsetDirectory mm.pt ix.pt}

/-- `vmap_pgd_memset`. -/
def vmapPgdMemset (mm : MmStruct) (addr : Addr) (pgnum : CInt) : Int × MmStruct :=
  vmapPgdMemsetLoop addr (loopCount pgnum) 0 (ensureDirectories mm)

/-- `pte_set_fpn` followed by `enlist_pgn_node`, as the mapping code pairs them. -/
def mapPage (mm : MmStruct) (pgn fpn : Addr) : MmStruct :=
  let mm := (pteSetFpn mm pgn fpn).2
  {mm with fifoPgn := enlistPgnNode mm.fifoPgn pgn}

/-- The loop of `vmap_page_range`, from iteration `pgit` on. -/
def vmapPageRangeLoop (addr : Addr) : ℕ → ℕ → List Addr → MmStruct → Addr × MmStruct
  | 0, _, _, mm => (0, mm)
  | n + 1, pgit, fpit, mm =>
    let pgn := (addr + pageOffset pgit) >>> paging64AddrPtShift
    let fpn := fpit.headD (toAddr (BitVec.ofNat 32 pgit))
    let ret := (pteSetFpn mm pgn fpn).1
    if ret ≠ 0 then (BitVec.ofInt 64 ret, (pteSetFpn mm pgn fpn).2)
    else vmapPageRangeLoop addr n (pgit + 1) fpit.tail (mapPage mm pgn fpn)

/-- `vmap_page_range`; the region it reports back is not read by any caller. -/
def vmapPageRange (mm : MmStruct) (addr : Addr) (pgnum : CInt) (frames : List Addr) :
    Addr × MmStruct :=
  vmapPageRangeLoop addr (loopCount pgnum) 0 frames (ensureDirectories mm)

/-- The loop of `alloc_pages_range` for the remaining requests: status, frames
popped so far, device. A failure keeps the frames it has popped. -/
def allocPagesRangeLoop : ℕ → MemphyStruct → Addr × List Addr × MemphyStruct
  | 0, mram => (0, [], mram)
  | n + 1, mram =>
    match memphyGetFreefp mram with
    | none => (-3000, [], mram)
    | some (fpn, mram) =>
      let rest := allocPagesRangeLoop n mram
      (rest.1, fpn :: rest.2.1, rest.2.2)

/-- `alloc_pages_range`. -/
def allocPagesRange (mram : MemphyStruct) (reqPgnum : CInt) : Addr × List Addr × MemphyStruct :=
  allocPagesRangeLoop (loopCount reqPgnum) mram

/-- `vm_map_ram`. The status is an `addr_t`, so the first test never holds. -/
def vmMapRam (c : ProcMem) (mapstart : Addr) (incpgnum : CInt) : Addr × ProcMem :=
  let alloc := allocPagesRange c.mram incpgnum
  let c := {c with mram := alloc.2.2}
  if alloc.1 < 0 ∧ alloc.1 ≠ -3000 then (-1, c)
  else if alloc.1 = -3000 then (-1, c)
  else (0, {c with mm := (vmapPageRange c.mm mapstart incpgnum alloc.2.1).2})

/-- The list walk of `get_vma_by_num`, with the position of the area found. -/
def vmaWalk (vmaid : CInt) : ℕ → List VmArea → Option (ℕ × VmArea)
  | _, [] => none
  | i, pvma :: next =>
    if (toCInt pvma.vmId).slt vmaid then vmaWalk vmaid (i + 1) next else some (i, pvma)

/-- `get_vma_by_num`; `none` is `NULL`. -/
def getVmaByNum (mm : MmStruct) (vmaid : CInt) : Option (ℕ × VmArea) := vmaWalk vmaid 0 mm.mmap

/-- `OVERLAP`. -/
def overlap (x1 x2 y1 y2 : Addr) : Bool := !(decide (x2 ≤ y1) || decide (y2 ≤ x1))

/-- `validate_overlap_vm_area`. Areas are told apart by their position. -/
def validateOverlapVmArea (mm : MmStruct) (vmaid : CInt) (vmastart vmaend : Addr) : Int :=
  if vmaend ≤ vmastart then -1
  else
    match getVmaByNum mm vmaid with
    | none => -1
    | some (i, cur) =>
      if mm.mmap.zipIdx.any fun vma =>
          vma.2 != i && overlap cur.vmStart cur.vmEnd vma.1.vmStart vma.1.vmEnd
      then -1 else 0

/-- The page count of `inc_vma_limit`; a zero increment still asks for one page. -/
def incNumPage (incAmt : Addr) : CInt :=
  if toCInt (incAmt / 4096#64) = 0 then 1 else toCInt (incAmt / 4096#64)

/-- `inc_vma_limit`. The result of `vm_map_ram` is compared as an unsigned word. -/
def incVmaLimit (c : ProcMem) (vmaid : CInt) (incSz : Addr) : Int × ProcMem :=
  match getVmaByNum c.mm vmaid with
  | none => (-1, c)
  | some (i, curVma) =>
    let incAmt := paging64PageAlignsz incSz
    let incnumpage := incNumPage incAmt
    let oldSbrk := curVma.sbrk
    let oldEnd := curVma.vmEnd
    let newEnd := oldSbrk + incAmt
    let grown := c.mm.setVma i {curVma with vmEnd := newEnd, sbrk := newEnd}
    if validateOverlapVmArea grown vmaid curVma.vmStart newEnd < 0 then
      (-1, {c with mm := grown.setVma i {curVma with vmEnd := oldEnd, sbrk := oldSbrk}})
    else
      let mapped := vmMapRam {c with mm := grown} oldSbrk incnumpage
      if mapped.1 < 0 then
        (-1, {mapped.2 with
          mm := mapped.2.mm.setVma i {curVma with vmEnd := oldEnd, sbrk := oldSbrk}})
      else (0, mapped.2)

/-- `init_vm_rg`. -/
def initVmRg (rgStart rgEnd : Addr) : VmRg := ⟨rgStart, rgEnd⟩

/-- `enlist_vm_rg_node`: a new head. -/
def enlistVmRgNode (rglist : List VmRg) (rgnode : VmRg) : List VmRg := rgnode :: rglist

/-- `init_mm`. The list head of the fresh area is read from memory that
`malloc` returned, taken to be zero. -/
def initMm : MmStruct :=
  let vma0 : VmArea := ⟨0, 0, 0, 0, enlistVmRgNode [] (initVmRg 0 0)⟩
  { pgd := some callocDirectory
    p4d := some callocDirectory
    pud := some callocDirectory
    pmd := some callocDirectory
    pt := some callocDirectory
    mmap := [vma0]
    symrgtbl := fun _ => ⟨0, 0⟩
    fifoPgn := [] }

/-! ## What the mapping functions do -/

/-- The page number of iteration `pgit` of a mapping loop. -/
def rangePage (addr : Addr) (pgit : ℕ) : Addr := (addr + pageOffset pgit) >>> paging64AddrPtShift

/-- Page offsets below the range of an `int`. -/
theorem pageOffset_toNat {k : ℕ} (hk : k < 2 ^ 19) : (pageOffset k).toNat = k * 4096 := by
  have hm : (BitVec.ofNat 32 k * BitVec.ofNat 32 paging64Pagesz).toNat = k * 4096 := by
    rw [BitVec.toNat_mul, BitVec.toNat_ofNat, BitVec.toNat_ofNat]
    change k % 4294967296 * 4096 % 4294967296 = k * 4096
    omega
  unfold pageOffset toAddr
  rw [BitVec.signExtend_eq_setWidth_of_msb_false (BitVec.msb_eq_false_iff_two_mul_lt.mpr
    (by rw [hm]; omega)), BitVec.toNat_setWidth, hm]
  omega

/-- The page numbers of a range that does not wrap count up from its first page. -/
theorem rangePage_toNat {start : Addr} {k : ℕ} (hk : k < 2 ^ 19)
    (hw : start.toNat + k * 4096 < 2 ^ 64) :
    (rangePage start k).toNat = start.toNat / 4096 + k := by
  unfold rangePage
  rw [BitVec.toNat_ushiftRight, BitVec.toNat_add, pageOffset_toNat hk,
    Nat.shiftRight_eq_div_pow]
  change (start.toNat + k * 4096) % 2 ^ 64 / 4096 = _
  omega

@[simp] theorem mapPage_entry (mm : MmStruct) (pgn fpn : Addr) : (mapPage mm pgn fpn).entry =
    Function.update mm.entry (ptIndex pgn) (entrySetFpn (mm.entry (ptIndex pgn)) fpn) :=
  (pteSetFpn_spec mm pgn fpn).2.1

@[simp] theorem mapPage_mmap (mm : MmStruct) (pgn fpn : Addr) :
    (mapPage mm pgn fpn).mmap = mm.mmap :=
  (pteSetFpn_spec mm pgn fpn).2.2.1

@[simp] theorem mapPage_symrgtbl (mm : MmStruct) (pgn fpn : Addr) :
    (mapPage mm pgn fpn).symrgtbl = mm.symrgtbl :=
  (pteSetFpn_spec mm pgn fpn).2.2.2.1

@[simp] theorem mapPage_fifoPgn (mm : MmStruct) (pgn fpn : Addr) :
    (mapPage mm pgn fpn).fifoPgn = pgn :: mm.fifoPgn := by
  dsimp only [mapPage, enlistPgnNode]
  rw [(pteSetFpn_spec mm pgn fpn).2.2.2.2]

@[simp] theorem ensureDirectories_entry (mm : MmStruct) :
    (ensureDirectories mm).entry = mm.entry := rfl

/-- The mapping loop rule: what one mapped page preserves, with the frames still
to be used as an argument, holds of the result once every frame is used. -/
theorem vmapPageRangeLoop_induct {addr : Addr} (P : ℕ → List Addr → MmStruct → Prop)
    (hstep : ∀ k f fs mm, P k (f :: fs) mm → P (k + 1) fs (mapPage mm (rangePage addr k) f))
    {n k : ℕ} {frames : List Addr} {mm : MmStruct} (hlen : frames.length = n)
    (h : P k frames mm) : P (k + n) [] (vmapPageRangeLoop addr n k frames mm).2 := by
  induction n generalizing k frames mm with
  | zero =>
    cases List.length_eq_zero_iff.mp hlen
    exact h
  | succ n ih =>
    cases frames with
    | nil => cases hlen
    | cons f fs =>
      have hnext := hstep k f fs mm h
      have hr := ih (Nat.succ.inj hlen) hnext
      have hz : ¬(pteSetFpn mm (rangePage addr k) f).1 ≠ 0 :=
        not_not.mpr (pteSetFpn_spec mm (rangePage addr k) f).1
      rw [vmapPageRangeLoop]
      dsimp only [List.headD_cons, List.tail_cons]
      change P _ [] (if (pteSetFpn mm (rangePage addr k) f).1 ≠ 0 then _ else _ : Addr × MmStruct).2
      rw [if_neg hz, Nat.add_succ, ← Nat.succ_add]
      exact hr

/-- A bulk request is served from the head of the free list, or fails after
taking everything that is there. -/
theorem allocPagesRangeLoop_eq (n : ℕ) (mram : MemphyStruct) : allocPagesRangeLoop n mram =
    if n ≤ mram.freeFpList.length then
      (0, mram.freeFpList.take n, {mram with freeFpList := mram.freeFpList.drop n})
    else (-3000, mram.freeFpList, {mram with freeFpList := []}) := by
  induction n generalizing mram with
  | zero => simp only [allocPagesRangeLoop, Nat.zero_le, if_true, List.take_zero, List.drop_zero]
  | succ n ih =>
    rw [allocPagesRangeLoop]
    cases hl : mram.freeFpList with
    | nil =>
      rw [memphyGetFreefp_none.mpr hl, List.length_nil, if_neg (Nat.not_succ_le_zero n)]
      cases mram
      cases hl
      rfl
    | cons f fs =>
      rw [memphyGetFreefp_cons hl]
      dsimp only
      rw [ih]
      dsimp only
      simp only [List.length_cons, Nat.add_le_add_iff_right, List.take_succ_cons,
        List.drop_succ_cons]
      split <;> rfl

/-- `vm_map_ram` maps the whole range when RAM has the frames; otherwise it
returns -1, maps nothing and has emptied the free list. -/
theorem vmMapRam_eq (c : ProcMem) (mapstart : Addr) (incpgnum : CInt) :
    vmMapRam c mapstart incpgnum =
      if loopCount incpgnum ≤ c.mram.freeFpList.length then
        (0, {c with
          mram := {c.mram with freeFpList := c.mram.freeFpList.drop (loopCount incpgnum)}
          mm := (vmapPageRange c.mm mapstart incpgnum
            (c.mram.freeFpList.take (loopCount incpgnum))).2})
      else (-1, {c with mram := {c.mram with freeFpList := []}}) := by
  have h3 : (-3000 : Addr) ≠ 0 := by decide
  unfold vmMapRam allocPagesRange
  rw [allocPagesRangeLoop_eq]
  split
  · dsimp only
    rw [if_neg (fun h => BitVec.not_lt_zero h.1), if_neg h3.symm]
  · dsimp only
    rw [if_neg (fun h => h.2 rfl), if_pos rfl]

/-- The unsigned comparison never sees a failure of the mapping step. -/
theorem not_vmMapRam_lt_zero (c : ProcMem) (mapstart : Addr) (incpgnum : CInt) :
    ¬(vmMapRam c mapstart incpgnum).1 < 0 := BitVec.not_lt_zero

end OsSim.MemoryMapping
