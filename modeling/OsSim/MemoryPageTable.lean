import OsSim.MemoryDevice
import Mathlib.Data.Nat.Bitwise

/-!
# Page tables and page-table entries

The five directories of a process are flat arrays of 512 words; only the last
one holds entries that are ever translated. A setter works on the entry that the
low nine bits of the page number select, so page numbers that agree modulo 512
share their entry.
-/

namespace OsSim.MemoryPageTable

open MemoryWords

/-- One directory: 512 words. -/
abbrev Directory := Fin 512 → Addr

/-- `calloc(512, sizeof(uint64_t))`. -/
def callocDirectory : Directory := fun _ => 0

/-- `struct vm_rg_struct`; the link `rg_next` is the order of the list it is in. -/
structure VmRg where
  /-- First address of the region. -/
  rgStart : Addr
  /-- First address past the region. -/
  rgEnd : Addr
  deriving DecidableEq

/-- `struct vm_area_struct`; the link `vm_next` is the order of the area list. -/
structure VmArea where
  /-- Identifier searched by `getVmaByNum`. -/
  vmId : Addr
  /-- First address of the area. -/
  vmStart : Addr
  /-- First address past the area. -/
  vmEnd : Addr
  /-- Break of the area. -/
  sbrk : Addr
  /-- Free regions, head first. -/
  vmFreergList : List VmRg

/-- `PAGING_MAX_SYMTBL_SZ`. -/
def pagingMaxSymtblSz : ℕ := 30

/-- `struct mm_struct` of the MM64 build; a directory pointer may be `NULL`. -/
structure MmStruct where
  /-- Page global directory. -/
  pgd : Option Directory
  /-- Page level-4 directory. -/
  p4d : Option Directory
  /-- Page upper directory. -/
  pud : Option Directory
  /-- Page middle directory. -/
  pmd : Option Directory
  /-- The table that holds the page-table entries. -/
  pt : Option Directory
  /-- Areas, in list order. -/
  mmap : List VmArea
  /-- Region of every symbol id. -/
  symrgtbl : Fin 30 → VmRg
  /-- Page numbers of `fifo_pgn`, newest first. -/
  fifoPgn : List Addr

/-- The five indices of a page; an index outside its table cannot be built. -/
structure PdIndices where
  /-- Index into `pgd`. -/
  pgd : Fin 512
  /-- Index into `p4d`. -/
  p4d : Fin 512
  /-- Index into `pud`. -/
  pud : Fin 512
  /-- Index into `pmd`. -/
  pmd : Fin 512
  /-- Index into `pt`. -/
  pt : Fin 512

/-- One index field of an address, `(addr & MASK) >> LOBIT`. -/
def pdField (addr : Addr) (hibit lobit : ℕ) : Addr := (addr &&& genmask64 hibit lobit) >>> lobit

/-- `get_pd_from_address`; `none` is the return value -1. -/
def getPdFromAddress (addr : Addr) : Option PdIndices :=
  let pgd := pdField addr 56 48
  let p4d := pdField addr 47 39
  let pud := pdField addr 38 30
  let pmd := pdField addr 29 21
  let pt := pdField addr 20 12
  if h : pgd.toNat < 512 ∧ p4d.toNat < 512 ∧ pud.toNat < 512 ∧ pmd.toNat < 512 ∧
      pt.toNat < 512 then
    some ⟨⟨pgd.toNat, h.1⟩, ⟨p4d.toNat, h.2.1⟩, ⟨pud.toNat, h.2.2.1⟩,
      ⟨pmd.toNat, h.2.2.2.1⟩, ⟨pt.toNat, h.2.2.2.2⟩⟩
  else none

/-- `get_pd_from_pagenum`. -/
def getPdFromPagenum (pgn : Addr) : Option PdIndices :=
  getPdFromAddress (pgn <<< paging64AddrPtShift)

/-- The entry update of `pte_set_swap`. -/
def entrySetSwap (pte : Addr) (swptyp : CInt) (swpoff : Addr) : Addr :=
  let pte := setbit pte pagingPtePresentMask
  let pte := setbit pte pagingPteSwappedMask
  let pte := setval pte (swptyp.setWidth 64) pagingPteSwptypMask 0
  setval pte swpoff pagingPteSwpoffMask 5

/-- The entry update of `pte_set_fpn`. -/
def entrySetFpn (pte fpn : Addr) : Addr :=
  let pte := setbit pte pagingPtePresentMask
  let pte := clrbit pte pagingPteSwappedMask
  setval pte fpn pagingPteFpnMask 0

/-- `pte_set_swap`. -/
def pteSetSwap (mm : MmStruct) (pgn : Addr) (swptyp : CInt) (swpoff : Addr) : Int × MmStruct :=
  match getPdFromPagenum pgn with
  | none => (-1, mm)
  | some ix =>
    let pt := mm.pt.getD callocDirectory
    (0, {mm with pt := some (Function.update pt ix.pt (entrySetSwap (pt ix.pt) swptyp swpoff))})

/-- `mm->dir[idx] |= PAGING_PTE_PRESENT_MASK`, skipped for a `NULL` directory. -/
def markPresent (dir : Option Directory) (idx : Fin 512) : Option Directory :=
  dir.map fun d => Function.update d idx (setbit (d idx) pagingPtePresentMask)

/-- `pte_set_fpn`. -/
def pteSetFpn (mm : MmStruct) (pgn fpn : Addr) : Int × MmStruct :=
  match getPdFromPagenum pgn with
  | none => (-1, mm)
  | some ix =>
    let pt := mm.pt.getD callocDirectory
    (0, {mm with
      pgd := markPresent mm.pgd ix.pgd
      p4d := markPresent mm.p4d ix.p4d
      pud := markPresent mm.pud ix.pud
      pmd := markPresent mm.pmd ix.pmd
      pt := some (Function.update pt ix.pt (entrySetFpn (pt ix.pt) fpn))})

/-- `pte_get_entry`. -/
def pteGetEntry (mm : MmStruct) (pgn : Addr) : UInt :=
  match getPdFromPagenum pgn with
  | none => 0
  | some ix =>
    match mm.pt with
    | none => 0
    | some pt => (pt ix.pt).setWidth 32

/-- `pte_set_entry`: the 32-bit value is zero extended. -/
def pteSetEntry (mm : MmStruct) (pgn : Addr) (pteVal : UInt) : Int × MmStruct :=
  match getPdFromPagenum pgn with
  | none => (-1, mm)
  | some ix =>
    let pt := mm.pt.getD callocDirectory
    (0, {mm with pt := some (Function.update pt ix.pt (pteVal.setWidth 64))})

/-- `enlist_pgn_node`: a new head. -/
def enlistPgnNode (plist : List Addr) (pgn : Addr) : List Addr := pgn :: plist

/-- The word stored at one index of the last directory. -/
def MmStruct.entry (mm : MmStruct) (i : Fin 512) : Addr := mm.pt.getD callocDirectory i

/-- Store back the fields of the area at one position. -/
def MmStruct.setVma (mm : MmStruct) (i : ℕ) (vma : VmArea) : MmStruct :=
  {mm with mmap := mm.mmap.set i vma}

/-- `symrgtbl[k] = rg`, on the two address fields. -/
def MmStruct.setSymrg (mm : MmStruct) (k : Fin 30) (rg : VmRg) : MmStruct :=
  {mm with symrgtbl := Function.update mm.symrgtbl k rg}

@[simp] theorem MmStruct.setVma_entry (mm : MmStruct) (i : ℕ) (vma : VmArea) :
    (mm.setVma i vma).entry = mm.entry := rfl

@[simp] theorem MmStruct.setVma_fifoPgn (mm : MmStruct) (i : ℕ) (vma : VmArea) :
    (mm.setVma i vma).fifoPgn = mm.fifoPgn := rfl

@[simp] theorem MmStruct.setVma_symrgtbl (mm : MmStruct) (i : ℕ) (vma : VmArea) :
    (mm.setVma i vma).symrgtbl = mm.symrgtbl := rfl

@[simp] theorem MmStruct.setSymrg_entry (mm : MmStruct) (k : Fin 30) (rg : VmRg) :
    (mm.setSymrg k rg).entry = mm.entry := rfl

@[simp] theorem MmStruct.setSymrg_fifoPgn (mm : MmStruct) (k : Fin 30) (rg : VmRg) :
    (mm.setSymrg k rg).fifoPgn = mm.fifoPgn := rfl

@[simp] theorem MmStruct.setSymrg_mmap (mm : MmStruct) (k : Fin 30) (rg : VmRg) :
    (mm.setSymrg k rg).mmap = mm.mmap := rfl

/-- The index a page number selects in the last directory. -/
def ptIndex (pgn : Addr) : Fin 512 := ⟨pgn.toNat % 512, Nat.mod_lt _ (by decide)⟩

/-- An entry that `pg_getpage` accepts without a fault. -/
def Present (e : Addr) : Prop := pagingPagePresent (e.setWidth 32) = true

/-- An entry marked by `pte_set_swap`. -/
def Swapped (e : Addr) : Prop := pagingPageSwapped (e.setWidth 32) = true

instance (e : Addr) : Decidable (Present e) := inferInstanceAs (Decidable (_ = true))

instance (e : Addr) : Decidable (Swapped e) := inferInstanceAs (Decidable (_ = true))

/-- An entry of a page that lies in RAM. -/
def Resident (e : Addr) : Prop := Present e ∧ ¬Swapped e

instance (e : Addr) : Decidable (Resident e) := inferInstanceAs (Decidable (_ ∧ _))

/-- The frame number an entry translates to. -/
def entryFrame (e : Addr) : ℕ := (pagingFpn (e.setWidth 32)).toNat

/-- A nine-bit field of an address is its residue after the shift. -/
theorem pdField_toNat (a : Addr) {hi lo : ℕ} (hlo : lo ≤ 55)
    (hmask : genmask64 hi lo = 511#64 <<< lo) :
    (pdField a hi lo).toNat = (a.toNat >>> lo) % 512 := by
  have hm : 511 <<< lo % 2 ^ 64 = 511 <<< lo := by
    apply Nat.mod_eq_of_lt
    rw [Nat.shiftLeft_eq]
    calc 511 * 2 ^ lo ≤ 511 * 2 ^ 55 :=
        Nat.mul_le_mul_left _ (Nat.pow_le_pow_right (by decide) hlo)
      _ < 2 ^ 64 := by decide
  have h9 : (2 : ℕ) ^ 9 - 1 = 511 := by decide
  unfold pdField
  rw [hmask, BitVec.toNat_ushiftRight, BitVec.toNat_and, BitVec.toNat_shiftLeft]
  change (a.toNat &&& (511 <<< lo % 2 ^ 64)) >>> lo = _
  rw [hm, Nat.shiftRight_and_distrib, Nat.shiftLeft_shiftRight, ← h9,
    Nat.and_two_pow_sub_one_eq_mod]

/-- A nine-bit field is an index into a directory. -/
theorem pdField_lt (a : Addr) {hi lo : ℕ} (hlo : lo ≤ 55)
    (hmask : genmask64 hi lo = 511#64 <<< lo) : (pdField a hi lo).toNat < 512 := by
  rw [pdField_toNat a hlo hmask]
  exact Nat.mod_lt _ (by decide)

/-- The five masks never produce an index past the tables. -/
theorem getPdFromAddress_eq (addr : Addr) : ∃ ix, getPdFromAddress addr = some ix ∧
    (ix.pt : ℕ) = (addr.toNat >>> 12) % 512 := by
  have hgd := @pdField_lt addr 56 48 (by decide) (by decide)
  have h4d := @pdField_lt addr 47 39 (by decide) (by decide)
  have hud := @pdField_lt addr 38 30 (by decide) (by decide)
  have hmd := @pdField_lt addr 29 21 (by decide) (by decide)
  have hpt := @pdField_lt addr 20 12 (by decide) (by decide)
  unfold getPdFromAddress
  refine ⟨_, dif_pos ⟨hgd, h4d, hud, hmd, hpt⟩, ?_⟩
  exact pdField_toNat addr (by decide) (by decide)

/-- A page number selects the entry given by its residue modulo 512. -/
theorem getPdFromPagenum_eq (pgn : Addr) :
    ∃ ix, getPdFromPagenum pgn = some ix ∧ ix.pt = ptIndex pgn := by
  obtain ⟨ix, hix, hpt⟩ := getPdFromAddress_eq (pgn <<< paging64AddrPtShift)
  refine ⟨ix, hix, Fin.ext ?_⟩
  rw [hpt]
  change ((pgn <<< 12).toNat >>> 12) % 512 = pgn.toNat % 512
  rw [BitVec.toNat_shiftLeft, Nat.shiftLeft_eq, Nat.shiftRight_eq_div_pow]
  omega

/-- Reading an entry, independently of whether the table exists yet. -/
theorem pteGetEntry_eq (mm : MmStruct) (pgn : Addr) :
    pteGetEntry mm pgn = (mm.entry (ptIndex pgn)).setWidth 32 := by
  obtain ⟨ix, hix, hpt⟩ := getPdFromPagenum_eq pgn
  unfold pteGetEntry MmStruct.entry
  rw [hix]
  dsimp only
  rw [← hpt]
  cases mm.pt <;> rfl

/-- What `pte_set_fpn` does: it succeeds, updates the selected entry and touches
nothing but the directories. -/
theorem pteSetFpn_spec (mm : MmStruct) (pgn fpn : Addr) :
    (pteSetFpn mm pgn fpn).1 = 0 ∧
      (pteSetFpn mm pgn fpn).2.entry =
        Function.update mm.entry (ptIndex pgn) (entrySetFpn (mm.entry (ptIndex pgn)) fpn) ∧
      (pteSetFpn mm pgn fpn).2.mmap = mm.mmap ∧
      (pteSetFpn mm pgn fpn).2.symrgtbl = mm.symrgtbl ∧
      (pteSetFpn mm pgn fpn).2.fifoPgn = mm.fifoPgn := by
  obtain ⟨ix, hix, hpt⟩ := getPdFromPagenum_eq pgn
  unfold pteSetFpn
  rw [hix]
  dsimp only
  rw [hpt]
  exact ⟨rfl, rfl, rfl, rfl, rfl⟩

/-- What `pte_set_swap` does: it succeeds and touches only the selected entry. -/
theorem pteSetSwap_spec (mm : MmStruct) (pgn : Addr) (swptyp : CInt) (swpoff : Addr) :
    (pteSetSwap mm pgn swptyp swpoff).1 = 0 ∧
      (pteSetSwap mm pgn swptyp swpoff).2.entry = Function.update mm.entry (ptIndex pgn)
        (entrySetSwap (mm.entry (ptIndex pgn)) swptyp swpoff) ∧
      (pteSetSwap mm pgn swptyp swpoff).2.mmap = mm.mmap ∧
      (pteSetSwap mm pgn swptyp swpoff).2.symrgtbl = mm.symrgtbl ∧
      (pteSetSwap mm pgn swptyp swpoff).2.fifoPgn = mm.fifoPgn := by
  obtain ⟨ix, hix, hpt⟩ := getPdFromPagenum_eq pgn
  unfold pteSetSwap
  rw [hix]
  dsimp only
  rw [hpt]
  exact ⟨rfl, rfl, rfl, rfl, rfl⟩

/-- What `pte_set_entry` does: it succeeds and touches only the selected entry. -/
theorem pteSetEntry_spec (mm : MmStruct) (pgn : Addr) (pteVal : UInt) :
    (pteSetEntry mm pgn pteVal).1 = 0 ∧
      (pteSetEntry mm pgn pteVal).2.entry =
        Function.update mm.entry (ptIndex pgn) (pteVal.setWidth 64) ∧
      (pteSetEntry mm pgn pteVal).2.mmap = mm.mmap ∧
      (pteSetEntry mm pgn pteVal).2.symrgtbl = mm.symrgtbl ∧
      (pteSetEntry mm pgn pteVal).2.fifoPgn = mm.fifoPgn := by
  obtain ⟨ix, hix, hpt⟩ := getPdFromPagenum_eq pgn
  unfold pteSetEntry
  rw [hix]
  dsimp only
  rw [hpt]
  exact ⟨rfl, rfl, rfl, rfl, rfl⟩

/-- Presence is bit 31 of an entry. -/
theorem present_iff (e : Addr) : Present e ↔ e.getLsbD 31 = true := by
  unfold Present pagingPagePresent
  have hm : pagingPtePresentMask = BitVec.twoPow 32 31 := by decide
  rw [hm, BitVec.and_twoPow, BitVec.getLsbD_setWidth]
  cases h : e.getLsbD 31 <;> simp

/-- The swapped mark is bit 30 of an entry. -/
theorem swapped_iff (e : Addr) : Swapped e ↔ e.getLsbD 30 = true := by
  unfold Swapped pagingPageSwapped
  have hm : pagingPteSwappedMask = BitVec.twoPow 32 30 := by decide
  rw [hm, BitVec.and_twoPow, BitVec.getLsbD_setWidth]
  have h0 : BitVec.twoPow 32 30 ≠ 0#32 := by decide
  cases h : e.getLsbD 30 <;> simp [h0]

/-- The frame field is the low thirteen bits of an entry. -/
theorem entryFrame_eq (e : Addr) : entryFrame e = e.toNat % 8192 := by
  have hm : pagingPteFpnMask = 8191#32 := by decide
  have h13 : (2 : ℕ) ^ 13 - 1 = 8191 := by decide
  unfold entryFrame pagingFpn getval
  rw [hm, BitVec.ushiftRight_zero, BitVec.toNat_and, BitVec.toNat_setWidth]
  change e.toNat % 2 ^ 32 &&& 8191 = _
  rw [← h13, Nat.and_two_pow_sub_one_eq_mod]
  omega

/-- One bit of a field update. -/
theorem setval_getLsbD (v value : Addr) (mask : UInt) (offst i : ℕ) :
    (setval v value mask offst).getLsbD i =
      (v.getLsbD i && ((~~~mask).setWidth 64).getLsbD i ||
        (value <<< offst).getLsbD i && (mask.setWidth 64).getLsbD i) := by
  unfold setval
  rw [BitVec.getLsbD_or, BitVec.getLsbD_and, BitVec.getLsbD_and]

/-- Mapping a page to a frame marks it present. -/
theorem present_entrySetFpn (e fpn : Addr) : Present (entrySetFpn e fpn) := by
  have hf : ((~~~pagingPteFpnMask).setWidth 64 : Addr).getLsbD 31 = true := by decide
  have hs : ((~~~pagingPteSwappedMask).setWidth 64 : Addr).getLsbD 31 = true := by decide
  have hp : (pagingPtePresentMask.setWidth 64 : Addr).getLsbD 31 = true := by decide
  rw [present_iff]
  dsimp only [entrySetFpn]
  rw [setval_getLsbD, hf, clrbit, BitVec.getLsbD_and, hs, setbit, BitVec.getLsbD_or, hp]
  simp only [Bool.or_true, Bool.and_true, Bool.true_or]

/-- Mapping a page to a frame clears the swapped mark. -/
theorem not_swapped_entrySetFpn (e fpn : Addr) : ¬Swapped (entrySetFpn e fpn) := by
  have hf : (pagingPteFpnMask.setWidth 64 : Addr).getLsbD 30 = false := by decide
  have hs : ((~~~pagingPteSwappedMask).setWidth 64 : Addr).getLsbD 30 = false := by decide
  rw [swapped_iff]
  dsimp only [entrySetFpn]
  rw [setval_getLsbD, hf, clrbit, BitVec.getLsbD_and, hs]
  simp only [Bool.and_false, Bool.false_and, Bool.or_false, Bool.false_eq_true, not_false_eq_true]

/-- A freshly mapped page is resident. -/
theorem resident_entrySetFpn (e fpn : Addr) : Resident (entrySetFpn e fpn) :=
  ⟨present_entrySetFpn e fpn, not_swapped_entrySetFpn e fpn⟩

/-- The frame field keeps thirteen bits of the frame number. -/
theorem entryFrame_entrySetFpn (e fpn : Addr) :
    entryFrame (entrySetFpn e fpn) = fpn.toNat % 8192 := by
  have hm : (pagingPteFpnMask.setWidth 64 : Addr) = 8191#64 := by decide
  have hn : ((~~~pagingPteFpnMask).setWidth 64 : Addr) &&& 8191#64 = 0#64 := by decide
  have h13 : (2 : ℕ) ^ 13 - 1 = 8191 := by decide
  have hlow : ∀ x : Addr, x.toNat % 8192 = (x &&& 8191#64).toNat := by
    intro x
    rw [BitVec.toNat_and]
    change _ = x.toNat &&& 8191
    rw [← h13, Nat.and_two_pow_sub_one_eq_mod]
  have hval : entrySetFpn e fpn &&& 8191#64 = fpn &&& 8191#64 := by
    dsimp only [entrySetFpn, setval]
    rw [hm, BitVec.shiftLeft_zero, BitVec.and_or_distrib_right, BitVec.and_assoc, hn,
      BitVec.and_assoc, BitVec.and_self]
    simp only [BitVec.and_zero, BitVec.zero_or]
  rw [entryFrame_eq, hlow, hlow, hval]

/-- `pte_set_swap` leaves the present mark set. -/
theorem present_entrySetSwap (e : Addr) (swptyp : CInt) (swpoff : Addr) :
    Present (entrySetSwap e swptyp swpoff) := by
  have ht : ((~~~pagingPteSwptypMask).setWidth 64 : Addr).getLsbD 31 = true := by decide
  have ho : ((~~~pagingPteSwpoffMask).setWidth 64 : Addr).getLsbD 31 = true := by decide
  have hp : (pagingPtePresentMask.setWidth 64 : Addr).getLsbD 31 = true := by decide
  rw [present_iff]
  dsimp only [entrySetSwap]
  rw [setval_getLsbD, ho, setval_getLsbD, ht, setbit, BitVec.getLsbD_or, setbit,
    BitVec.getLsbD_or, hp]
  simp only [Bool.or_true, Bool.and_true, Bool.true_or]

/-- `pte_set_swap` sets the swapped mark. -/
theorem swapped_entrySetSwap (e : Addr) (swptyp : CInt) (swpoff : Addr) :
    Swapped (entrySetSwap e swptyp swpoff) := by
  have ht : ((~~~pagingPteSwptypMask).setWidth 64 : Addr).getLsbD 30 = true := by decide
  have ho : ((~~~pagingPteSwpoffMask).setWidth 64 : Addr).getLsbD 30 = true := by decide
  have hp : (pagingPteSwappedMask.setWidth 64 : Addr).getLsbD 30 = true := by decide
  rw [swapped_iff]
  dsimp only [entrySetSwap]
  rw [setval_getLsbD, ho, setval_getLsbD, ht, setbit, BitVec.getLsbD_or, hp]
  simp only [Bool.or_true, Bool.and_true, Bool.true_or]

end OsSim.MemoryPageTable
