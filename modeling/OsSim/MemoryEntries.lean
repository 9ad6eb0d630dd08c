import OsSim.MemoryPageTable
import OsSim.RunSteps

/-!
# The page-table entry as a record of bit fields

The frame field of a resident page overlaps both fields of a swapped one, the masks are
32-bit words and the entries 64-bit words. Every setter writes its own fields and marks
whatever the entry held before, keeps the other bits of the low half and clears the high
half; so what was set last is what is read, after any history.
-/

namespace OsSim.MemoryEntries

open MemoryWords MemoryPageTable RunSteps

/-! ## Bits of the mask macros -/

/-- A mask selects the bits between its bounds. -/
theorem genmask_getLsbD {hi : ℕ} (hhi : hi < 32) (lo i : ℕ) :
    (genmask hi lo).getLsbD i = decide (lo ≤ i ∧ i ≤ hi) := by
  have hone : ∀ j, (~~~0#32).getLsbD j = decide (j < 32) := by
    intro j
    rw [BitVec.getLsbD_not, BitVec.getLsbD_zero, Bool.not_false, Bool.and_true]
  unfold genmask
  rw [BitVec.getLsbD_and, BitVec.getLsbD_shiftLeft, BitVec.getLsbD_ushiftRight, hone, hone, Bool.eq_iff_iff]
  simp only [Bool.and_eq_true, Bool.not_eq_true', decide_eq_true_eq, decide_eq_false_iff_not]
  omega

/-- A field update writes the bits between the bounds, keeps the other bits of the low
half and clears the high half. -/
theorem setval_genmask {hi lo : ℕ} (hhi : hi < 32) (v value : Addr) (i : ℕ) :
    (setval v value (genmask hi lo) lo).getLsbD i =
      if lo ≤ i ∧ i ≤ hi then value.getLsbD (i - lo) else decide (i < 32) && v.getLsbD i := by
  rw [setval_getLsbD, BitVec.getLsbD_setWidth, BitVec.getLsbD_setWidth, BitVec.getLsbD_not,
    BitVec.getLsbD_shiftLeft, genmask_getLsbD hhi]
  by_cases hin : lo ≤ i ∧ i ≤ hi
  · have h32 : i < 32 := by omega
    have hlo : ¬i < lo := by omega
    have h64 : i < 64 := by omega
    simp only [hin, h32, hlo, h64, decide_true, decide_false, and_self, Bool.not_true,
      Bool.and_false, Bool.false_or, Bool.not_false, Bool.and_true, Bool.true_and, if_true]
  · have hrange : ∀ b : Bool, (v.getLsbD i && (decide (i < 64) && (decide (i < 32) && b))) =
        (decide (i < 32) && v.getLsbD i && b) := by
      intro b
      by_cases h32 : i < 32
      · have h64 : i < 64 := by omega
        simp only [h32, h64, decide_true, Bool.true_and]
      · simp only [h32, decide_false, Bool.false_and, Bool.and_false]
    rw [hrange]
    simp only [hin, decide_false, Bool.not_false, Bool.and_true, Bool.and_false, Bool.or_false,
      if_false]

/-- A field reads the bits between the bounds. -/
theorem getval_genmask {hi lo : ℕ} (hhi : hi < 32) (v : UInt) (i : ℕ) :
    (getval v (genmask hi lo) lo).getLsbD i = (decide (lo + i ≤ hi) && v.getLsbD (lo + i)) := by
  unfold getval
  rw [BitVec.getLsbD_ushiftRight, BitVec.getLsbD_and, genmask_getLsbD hhi, Bool.eq_iff_iff]
  simp only [Bool.and_eq_true, decide_eq_true_eq]
  constructor
  · rintro ⟨hv, _, hle⟩
    exact ⟨hle, hv⟩
  · rintro ⟨hle, hv⟩
    exact ⟨hv, Nat.le_add_right _ _, hle⟩

/-- A field update leaves a 32-bit word, whatever the entry was. -/
theorem setval_lt (v value : Addr) (mask : UInt) (offst : ℕ) :
    (setval v value mask offst).toNat < 2 ^ 32 := by
  have hmask : ∀ m : UInt, (m.setWidth 64 : Addr).toNat < 2 ^ 32 := by
    intro m
    rw [BitVec.toNat_setWidth]
    exact (Nat.mod_le _ _).trans_lt m.isLt
  unfold setval
  rw [BitVec.toNat_or, BitVec.toNat_and, BitVec.toNat_and]
  exact Nat.or_lt_two_pow (Nat.and_lt_two_pow _ (hmask _)) (Nat.and_lt_two_pow _ (hmask _))

/-- The mask of one bit. -/
theorem bit_getLsbD {nr : ℕ} (hnr : nr < 32) (i : ℕ) : (bit nr).getLsbD i = decide (i = nr) := by
  have hbit : bit nr = BitVec.twoPow 32 nr := (BitVec.twoPow_eq 32 nr).symm
  rw [hbit, BitVec.getLsbD_twoPow, Bool.eq_iff_iff]
  simp only [Bool.and_eq_true, decide_eq_true_eq]
  omega

/-- Setting a bit keeps the others. -/
theorem setbit_of_ne {nr i : ℕ} (hnr : nr < 32) (hne : i ≠ nr) (v : Addr) :
    (setbit v (bit nr)).getLsbD i = v.getLsbD i := by
  unfold setbit
  rw [BitVec.getLsbD_or, BitVec.getLsbD_setWidth, bit_getLsbD hnr, decide_eq_false hne,
    Bool.and_false, Bool.or_false]

/-- Clearing a bit keeps the others of the low half. -/
theorem clrbit_of_ne {nr i : ℕ} (hnr : nr < 32) (hne : i ≠ nr) (hi : i < 32) (v : Addr) :
    (clrbit v (bit nr)).getLsbD i = v.getLsbD i := by
  have h64 : i < 64 := by omega
  unfold clrbit
  rw [BitVec.getLsbD_and, BitVec.getLsbD_setWidth, BitVec.getLsbD_not, bit_getLsbD hnr,
    decide_eq_false hne, decide_eq_true hi, decide_eq_true h64]
  simp only [Bool.not_false, Bool.and_true]

/-! ## The two setters -/

/-- `GETVAL(pte, PAGING_PTE_SWPTYP_MASK, PAGING_PTE_SWPTYP_LOBIT)`. -/
def pagingSwptyp (pte : UInt) : UInt := getval pte pagingPteSwptypMask 0

/-- Both setters leave a 32-bit word. -/
theorem entrySetFpn_lt (e fpn : Addr) : (entrySetFpn e fpn).toNat < 2 ^ 32 := setval_lt _ _ _ _

theorem entrySetSwap_lt (e : Addr) (swptyp : CInt) (swpoff : Addr) :
    (entrySetSwap e swptyp swpoff).toNat < 2 ^ 32 := setval_lt _ _ _ _

/-- `pte_set_fpn` keeps the bits from the fields up to the marks. -/
theorem entrySetFpn_kept {i : ℕ} (hlo : 12 < i) (hhi : i < 30) (e fpn : Addr) :
    (entrySetFpn e fpn).getLsbD i = e.getLsbD i := by
  have hout : ¬(0 ≤ i ∧ i ≤ 12) := by omega
  unfold entrySetFpn pagingPteFpnMask
  dsimp only
  rw [setval_genmask (by decide), if_neg hout, decide_eq_true (by omega), Bool.true_and]
  unfold pagingPteSwappedMask pagingPtePresentMask
  rw [clrbit_of_ne (by decide) (by omega) (by omega), setbit_of_ne (by decide) (by omega)]

/-- `pte_set_swap` keeps the bits from the end of its own fields on. -/
theorem entrySetSwap_kept {i : ℕ} (hlo : 25 < i) (hhi : i < 30) (e : Addr) (swptyp : CInt)
    (swpoff : Addr) : (entrySetSwap e swptyp swpoff).getLsbD i = e.getLsbD i := by
  have hoff : ¬(5 ≤ i ∧ i ≤ 25) := by omega
  have htyp : ¬(0 ≤ i ∧ i ≤ 4) := by omega
  have h32 : decide (i < 32) = true := decide_eq_true (by omega)
  unfold entrySetSwap pagingPteSwpoffMask pagingPteSwptypMask
  dsimp only
  rw [setval_genmask (by decide), if_neg hoff, setval_genmask (by decide), if_neg htyp, h32,
    Bool.true_and, Bool.true_and]
  unfold pagingPteSwappedMask pagingPtePresentMask
  rw [setbit_of_ne (by decide) (by omega), setbit_of_ne (by decide) (by omega)]

/-- A mask between the fields and the marks reads what it read before. -/
theorem and_bit_eq {e e' : Addr} {nr : ℕ} (hnr : nr < 32) (h : e'.getLsbD nr = e.getLsbD nr) :
    e'.setWidth 32 &&& bit nr = e.setWidth 32 &&& bit nr := by
  apply BitVec.eq_of_getLsbD_eq
  intro i hi
  rw [BitVec.getLsbD_and, BitVec.getLsbD_and, bit_getLsbD hnr, BitVec.getLsbD_setWidth,
    BitVec.getLsbD_setWidth]
  by_cases he : i = nr
  · rw [he, h]
  · rw [decide_eq_false he, Bool.and_false, Bool.and_false]

/-- The offset that `pte_set_swap` writes is the one `PAGING_SWP` reads. -/
theorem pagingSwp_entrySetSwap (e : Addr) (swptyp : CInt) {swpoff : Addr}
    (ho : swpoff.toNat < 2 ^ 21) :
    pagingSwp ((entrySetSwap e swptyp swpoff).setWidth 32) = swpoff.setWidth 32 := by
  apply BitVec.eq_of_getLsbD_eq
  intro i hi
  change (getval _ (genmask 25 5) 5).getLsbD i = _
  rw [getval_genmask (by decide), BitVec.getLsbD_setWidth, BitVec.getLsbD_setWidth]
  unfold entrySetSwap pagingPteSwpoffMask
  dsimp only
  rw [setval_genmask (by decide)]
  by_cases hin : 5 + i ≤ 25
  · rw [if_pos ⟨Nat.le_add_right _ _, hin⟩, decide_eq_true hin, decide_eq_true hi,
      decide_eq_true (by omega), Nat.add_sub_cancel_left, Bool.true_and]
  · have hzero : swpoff.getLsbD i = false :=
      Nat.testBit_lt_two_pow (ho.trans_le (Nat.pow_le_pow_right (by decide) (by omega)))
    rw [decide_eq_false hin, Bool.false_and, hzero, Bool.and_false]

/-- The swap type is read back from an entry, and the offset does not reach it. -/
theorem pagingSwptyp_entrySetSwap (e : Addr) {swptyp : CInt} (swpoff : Addr)
    (ht : swptyp.toNat < 2 ^ 5) :
    pagingSwptyp ((entrySetSwap e swptyp swpoff).setWidth 32) = swptyp := by
  apply BitVec.eq_of_getLsbD_eq
  intro i hi
  change (getval _ (genmask 4 0) 0).getLsbD i = _
  rw [getval_genmask (by decide), BitVec.getLsbD_setWidth, Nat.zero_add]
  unfold entrySetSwap pagingPteSwpoffMask pagingPteSwptypMask
  dsimp only
  by_cases hin : i ≤ 4
  · have hout : ¬(5 ≤ i ∧ i ≤ 25) := by omega
    have h64 : i < 64 := by omega
    rw [setval_genmask (by decide), if_neg hout, setval_genmask (by decide),
      if_pos ⟨Nat.zero_le _, hin⟩, decide_eq_true hin, decide_eq_true hi, Nat.sub_zero,
      BitVec.getLsbD_setWidth, decide_eq_true h64]
    rfl
  · have hzero : swptyp.getLsbD i = false :=
      Nat.testBit_lt_two_pow (ht.trans_le (Nat.pow_le_pow_right (by decide) (by omega)))
    rw [decide_eq_false hin, Bool.false_and, hzero]

/-! ## Any history of an entry -/

/-- The calls of the two setters. -/
inductive PteCall
  /-- `pte_set_fpn`. -/
  | setFpn (pgn fpn : Addr)
  /-- `pte_set_swap`. -/
  | setSwap (pgn : Addr) (swptyp : CInt) (swpoff : Addr)

/-- A call of a setter. -/
def setPte (mm : MmStruct) : PteCall → Int × MmStruct
  | .setFpn pgn fpn => pteSetFpn mm pgn fpn
  | .setSwap pgn swptyp swpoff => pteSetSwap mm pgn swptyp swpoff

/-- A step of an entry's history. -/
def PteStep (mm : MmStruct) (call : PteCall) (mm' : MmStruct) : Prop := mm' = (setPte mm call).2

/-- A page table that is fresh from `calloc`, or not there yet. -/
def ZeroedTable (mm : MmStruct) : Prop := mm.entry = callocDirectory

/-- The dirty and the reserved bit of an entry as it is read. -/
def keptBits (pte : UInt) : UInt × UInt :=
  (pte &&& pagingPteDirtyMask, pte &&& pagingPteReserveMask)

/-- What the entry of a page holds, and reads as after either setter. -/
structure PteCodec (mm : MmStruct) (pgn : Addr) : Prop where
  /-- The entry is a 32-bit word. -/
  fits : (mm.entry (ptIndex pgn)).toNat < 2 ^ 32
  /-- A frame number is read back from a resident entry. -/
  fpn : ∀ f : Addr, f.toNat < 2 ^ 13 →
    let pte := pteGetEntry (pteSetFpn mm pgn f).2 pgn
    pagingPagePresent pte = true ∧ pagingPageSwapped pte = false ∧ (pagingFpn pte).toNat = f.toNat
  /-- A swap type and a swap offset are read back from a swapped entry. -/
  swap : ∀ (t : CInt) (o : Addr), t.toNat < 2 ^ 5 → o.toNat < 2 ^ 21 →
    let pte := pteGetEntry (pteSetSwap mm pgn t o).2 pgn
    pagingPageSwapped pte = true ∧ (pagingSwp pte).toNat = o.toNat ∧ pagingSwptyp pte = t
  /-- Neither setter changes the dirty or the reserved bit. -/
  kept : ∀ (f : Addr) (t : CInt) (o : Addr),
    keptBits (pteGetEntry (pteSetFpn mm pgn f).2 pgn) = keptBits (pteGetEntry mm pgn) ∧
      keptBits (pteGetEntry (pteSetSwap mm pgn t o).2 pgn) = keptBits (pteGetEntry mm pgn)

/-- The entry that `pte_set_fpn` leaves is read. -/
theorem pteGetEntry_setFpn (mm : MmStruct) (pgn fpn : Addr) :
    pteGetEntry (pteSetFpn mm pgn fpn).2 pgn =
      (entrySetFpn (mm.entry (ptIndex pgn)) fpn).setWidth 32 := by
  rw [pteGetEntry_eq, (pteSetFpn_spec mm pgn fpn).2.1, Function.update_self]

/-- `pte_get_entry` reads the entry that `pte_set_swap` leaves. -/
theorem pteGetEntry_setSwap (mm : MmStruct) (pgn : Addr) (swptyp : CInt) (swpoff : Addr) :
    pteGetEntry (pteSetSwap mm pgn swptyp swpoff).2 pgn =
      (entrySetSwap (mm.entry (ptIndex pgn)) swptyp swpoff).setWidth 32 := by
  rw [pteGetEntry_eq, (pteSetSwap_spec mm pgn swptyp swpoff).2.1, Function.update_self]

/-- A step leaves 32-bit words in the table. -/
theorem fits_step {mm mm' : MmStruct} {call : PteCall} (h : ∀ i, (mm.entry i).toNat < 2 ^ 32)
    (hstep : PteStep mm call mm') : ∀ i, (mm'.entry i).toNat < 2 ^ 32 := by
  have hupdate : ∀ (k : Fin 512) (e : Addr), e.toNat < 2 ^ 32 →
      ∀ i, (Function.update mm.entry k e i).toNat < 2 ^ 32 := by
    intro k e he i
    by_cases hi : i = k
    · rw [hi, Function.update_self]
      exact he
    · rw [Function.update_of_ne hi]
      exact h i
  subst hstep
  cases call with
  | setFpn pgn fpn =>
    rw [setPte, (pteSetFpn_spec mm pgn fpn).2.1]
    exact hupdate _ _ (entrySetFpn_lt _ _)
  | setSwap pgn swptyp swpoff =>
    rw [setPte, (pteSetSwap_spec mm pgn swptyp swpoff).2.1]
    exact hupdate _ _ (entrySetSwap_lt _ _ _)

/-- After any history of the table, either setter is read back at every page. -/
theorem pteCodec {mm : MmStruct} (h : Reachable ZeroedTable PteStep mm) (pgn : Addr) :
    PteCodec mm pgn := by
  have hfits : ∀ i, (mm.entry i).toNat < 2 ^ 32 := by
    refine h.invariant (fun mm => ∀ i, (mm.entry i).toNat < 2 ^ 32) (fun mm hz i => ?_)
      fun _ _ _ hI hstep => fits_step hI hstep
    rw [hz]
    exact Nat.two_pow_pos 32
  refine ⟨hfits _, fun f hf => ?_, fun t o ht ho => ?_, fun f t o => ?_⟩
  · dsimp only
    rw [pteGetEntry_setFpn]
    refine ⟨present_entrySetFpn _ _, Bool.eq_false_iff.mpr (not_swapped_entrySetFpn _ _), ?_⟩
    exact (entryFrame_entrySetFpn _ f).trans (Nat.mod_eq_of_lt hf)
  · dsimp only
    rw [pteGetEntry_setSwap, pagingSwp_entrySetSwap _ _ ho, pagingSwptyp_entrySetSwap _ _ ht]
    refine ⟨swapped_entrySetSwap _ _ _, ?_, rfl⟩
    rw [BitVec.toNat_setWidth]
    exact Nat.mod_eq_of_lt (ho.trans (by decide))
  · rw [pteGetEntry_setFpn, pteGetEntry_setSwap, pteGetEntry_eq]
    constructor
    · exact congrArg₂ Prod.mk
        (and_bit_eq (by decide) (entrySetFpn_kept (by decide) (by decide) _ _))
        (and_bit_eq (by decide) (entrySetFpn_kept (by decide) (by decide) _ _))
    · exact congrArg₂ Prod.mk
        (and_bit_eq (by decide) (entrySetSwap_kept (by decide) (by decide) _ _ _))
        (and_bit_eq (by decide) (entrySetSwap_kept (by decide) (by decide) _ _ _))

/-- A process whose table does not exist yet. -/
def untabled : MmStruct := ⟨none, none, none, none, none, [], fun _ => ⟨0, 0⟩, []⟩

/-- Page 3, swapped out and brought in again: a bit of the old offset is still there. -/
theorem pteCodec_broughtIn : ∃ mm : MmStruct,
    pteGetEntry mm 3 = 0x80004009#32 ∧ PteCodec mm 3 := by
  have hrun : Run PteStep untabled [.setSwap 3 7 512, .setFpn 3 9] _ :=
    .cons rfl (.cons rfl (.nil _))
  have hzero : ZeroedTable untabled := rfl
  refine ⟨_, ?_, pteCodec ⟨_, _, hzero, hrun⟩ 3⟩
  decide

end OsSim.MemoryEntries
