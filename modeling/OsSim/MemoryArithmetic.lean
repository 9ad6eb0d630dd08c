import OsSim.MemoryGrowth
import OsSim.MemoryRegions

/-!
# Exact sizes

A size passes through `addr_t`, `int` and the round-up macro on its way to a region
and to the break. Where each of these conversions loses something is computed from
the operands; everywhere else the region has the size asked for and the break moves
by that size rounded up.
-/

namespace OsSim.MemoryArithmetic

open MemoryWords MemoryDevice MemoryPageTable MemoryMapping MemoryPaging MemoryLibrary
open MemoryEffects MemoryInstruction MemoryArea MemoryFrames MemoryDrain MemoryGrowth RunSteps
open MemoryRegions (Within within_setSymrg)

variable {uninit : Addr → Byte} {ι : Type*}

/-! ## The growth of an area -/

/-- The break and the size rounded up stay below 2^64. -/
def NoWrap (vma : VmArea) (incSz : Addr) : Prop :=
  vma.sbrk.toNat + pagesNeeded incSz * 4096 < 2 ^ 64

instance (vma : VmArea) (incSz : Addr) : Decidable (NoWrap vma incSz) := Nat.decLt _ _

/-- The pages between the break and the break that much higher. -/
def addedPages (vma : VmArea) (incSz : Addr) : List Addr :=
  (List.range (pagesNeeded incSz)).map fun k => BitVec.ofNat 64 (vma.sbrk.toNat / 4096 + k)

/-- `inc_vma_limit` changes nothing, or raises the break by the size rounded up and maps
exactly the pages of the added range to frames from the head of the free list. -/
def IncExact (c : ProcMem) (vma : VmArea) (vmaid : CInt) (incSz : Addr) : Prop :=
  incVmaLimit c vmaid incSz = (-1, c) ∨
  (incVmaLimit c vmaid incSz).1 = 0 ∧
    ((incVmaLimit c vmaid incSz).2.mm.mmap.map fun vma => vma.sbrk.toNat) =
      [vma.sbrk.toNat + pagesNeeded incSz * 4096] ∧
    MapsPages c.mm (incVmaLimit c vmaid incSz).2.mm (addedPages vma incSz) ∧
    (incVmaLimit c vmaid incSz).2.mram.freeFpList = c.mram.freeFpList.drop (pagesNeeded incSz)

/-- The growth is refused, or it does not wrap, its page offsets fit an `int`, and it is
not empty, for which a page past the break would be mapped. -/
def IncFits (c : ProcMem) (vma : VmArea) (vmaid : CInt) (incSz : Addr) : Prop :=
  (0 : CInt).slt vmaid ∨ newBreak vma incSz = 0 ∨
    NoWrap vma incSz ∧ pagesNeeded incSz ≤ 2 ^ 19 ∧ (incSz ≠ 0 ∨ c.mram.freeFpList = [])

/-- A growth that does not wrap moves the break up. -/
theorem newBreak_toNat_of_noWrap {vma : VmArea} {incSz : Addr} (h : NoWrap vma incSz) :
    (newBreak vma incSz).toNat = vma.sbrk.toNat + pagesNeeded incSz * 4096 := by
  rw [newBreak_toNat]
  exact Nat.mod_eq_of_lt h

/-- Only the size zero takes no page. -/
theorem pagesNeeded_eq_zero {incSz : Addr} : pagesNeeded incSz = 0 ↔ incSz = 0 := by
  unfold pagesNeeded
  constructor
  · intro h
    exact BitVec.eq_of_toNat_eq (show incSz.toNat = 0 by omega)
  · rintro rfl
    rfl

/-- The mapping loop counts the pages of the added range if there are any and its offsets
fit an `int`. -/
theorem rangePages_eq_addedPages {vma : VmArea} {incSz : Addr} (h : NoWrap vma incSz)
    (hint : pagesNeeded incSz ≤ 2 ^ 19) (hz : incSz ≠ 0) :
    rangePages vma.sbrk (max 1 (pagesNeeded incSz)) = addedPages vma incSz := by
  have hpos : pagesNeeded incSz ≠ 0 := fun h0 => hz (pagesNeeded_eq_zero.mp h0)
  rw [Nat.max_eq_right (by omega)]
  unfold rangePages addedPages
  refine List.map_congr_left fun k hk => BitVec.eq_of_toNat_eq ?_
  have hk' := List.mem_range.mp hk
  have hle : k * 4096 ≤ pagesNeeded incSz * 4096 := Nat.mul_le_mul_right 4096 hk'.le
  have hw : vma.sbrk.toNat + k * 4096 < 2 ^ 64 :=
    (Nat.add_le_add_left hle vma.sbrk.toNat).trans_lt h
  rw [rangePage_toNat (hk'.trans_le hint) hw, BitVec.toNat_ofNat]
  omega

/-- From there on they do not: page 2^19 of a range is not the page that far up. -/
theorem rangePage_ne (start : Addr) :
    rangePage start (2 ^ 19) ≠ BitVec.ofNat 64 (start.toNat / 4096 + 2 ^ 19) := by
  intro h
  have hoff : pageOffset (2 ^ 19) = BitVec.ofNat 64 (2 ^ 64 - 2 ^ 31) := by decide
  have hv := congrArg BitVec.toNat h
  unfold rangePage at hv
  rw [hoff, BitVec.toNat_ushiftRight, BitVec.toNat_add, BitVec.toNat_ofNat, BitVec.toNat_ofNat,
    Nat.shiftRight_eq_div_pow] at hv
  change (start.toNat + (2 ^ 64 - 2 ^ 31) % 2 ^ 64) % 2 ^ 64 / 4096 = _ at hv
  omega

/-- The pages of a range are those of the added bytes exactly if an `int` can count them
and the size is not 0. -/
theorem rangePages_eq_addedPages_iff {vma : VmArea} {incSz : Addr} (h : NoWrap vma incSz) :
    rangePages vma.sbrk (max 1 (pagesNeeded incSz)) = addedPages vma incSz ↔
      pagesNeeded incSz ≤ 2 ^ 19 ∧ incSz ≠ 0 := by
  refine ⟨fun heq => ?_, fun ⟨hint, hz⟩ => rangePages_eq_addedPages h hint hz⟩
  have hlen := congrArg List.length heq
  simp only [rangePages, addedPages, List.length_map, List.length_range] at hlen
  refine ⟨Nat.not_lt.mp fun hint => ?_, fun hz => ?_⟩
  · have hat := congrArg (fun l : List Addr => l[2 ^ 19]?) heq
    have hint' : 2 ^ 19 < max 1 (pagesNeeded incSz) := by omega
    simp only [rangePages, addedPages, List.getElem?_map, List.getElem?_range hint,
      List.getElem?_range hint'] at hat
    exact rangePage_ne vma.sbrk (Option.some.inj hat)
  · have h0 := pagesNeeded_eq_zero.mpr hz
    omega

/-- The replacement list shows which pages a growth has mapped. -/
theorem mapsPages_iff {mm mm' : MmStruct} {pages pages' : List Addr}
    (h : MapsPages mm mm' pages) : MapsPages mm mm' pages' ↔ pages = pages' := by
  refine ⟨fun h' => ?_, fun he => he ▸ h⟩
  have heq := List.append_cancel_right (h.fifoPgn.symm.trans h'.fifoPgn)
  exact List.reverse_inj.mp heq

/-- A growth that is not refused moves the break by the size rounded up exactly if it does
not wrap. -/
theorem raised_iff_noWrap {vma : VmArea} {incSz : Addr} :
    (newBreak vma incSz).toNat = vma.sbrk.toNat + pagesNeeded incSz * 4096 ↔
      NoWrap vma incSz := by
  refine ⟨fun h => ?_, newBreak_toNat_of_noWrap⟩
  unfold NoWrap
  rw [← h]
  exact (newBreak vma incSz).isLt

/-- With enough free frames `inc_vma_limit` is exact exactly if it is refused, or the break
does not wrap, an `int` can count the pages and the size is not 0. -/
theorem incExact_iff {c : ProcMem} {vma : VmArea} (h : HeapArea c.mm vma) {vmaid : CInt}
    {incSz : Addr} (hfree : pagesNeeded incSz ≤ c.mram.freeFpList.length)
    (hram : c.mram.freeFpList.length < 2 ^ 31) :
    IncExact c vma vmaid incSz ↔ IncFits c vma vmaid incSz := by
  have hinc := h.incVmaLimit_break vmaid incSz
  unfold IncExact IncFits
  by_cases hr : (0 : CInt).slt vmaid = true ∨ newBreak vma incSz = 0
  · rw [if_pos hr] at hinc
    exact ⟨fun _ => hr.imp_right Or.inl, fun _ => Or.inl hinc⟩
  rw [if_neg hr] at hinc
  have hok : ¬incVmaLimit c vmaid incSz = (-1, c) := by
    intro he
    have hstatus : (0 : Int) = -1 := congrArg Prod.fst (hinc.symm.trans he)
    exact absurd hstatus (by decide)
  obtain ⟨hs, hb⟩ := not_or.mp hr
  rw [or_iff_right hok, or_iff_right hs, or_iff_right hb, hinc]
  have hbrk : ((vmMapRam {c with mm := {c.mm with mmap := [setBreak vma (newBreak vma incSz)]}}
      vma.sbrk (incNumPage (paging64PageAlignsz incSz))).2.mm.mmap.map
        fun vma => vma.sbrk.toNat) = [(newBreak vma incSz).toNat] := by
    rw [(vmMapRam_regions _ _ _).1]
    rfl
  obtain ⟨hlist, _⟩ := vmMapRam_free
    {c with mm := {c.mm with mmap := [setBreak vma (newBreak vma incSz)]}} vma.sbrk
    (incNumPage (paging64PageAlignsz incSz))
  have hcount := loopCount_incNumPage (show pagesNeeded incSz < 2 ^ 31 by omega)
  rw [hcount] at hlist
  dsimp only
  rw [hbrk, hlist, List.singleton_inj, raised_iff_noWrap, eq_self, true_and]
  refine and_congr_right fun hw => ?_
  by_cases hle : max 1 (pagesNeeded incSz) ≤ c.mram.freeFpList.length
  · -- the growth maps what it asks for
    have hne : c.mram.freeFpList ≠ [] := fun hn => by
      rw [hn, List.length_nil] at hle
      omega
    rw [mapsPages_iff (grown_mapsPages c vma incSz hle hram (newBreak vma incSz)),
      rangePages_eq_addedPages_iff hw, or_iff_left hne]
    refine ⟨And.left, fun hfits => ⟨hfits, ?_⟩⟩
    have hpos : pagesNeeded incSz ≠ 0 := fun h0 => hfits.2 (pagesNeeded_eq_zero.mp h0)
    rw [Nat.max_eq_right (by omega)]
  · -- nothing is asked for, and nothing is there
    have h0 : pagesNeeded incSz = 0 := by omega
    have hnil : c.mram.freeFpList = [] := List.length_eq_zero_iff.mp (by omega)
    have hadded : addedPages vma incSz = [] := by
      unfold addedPages
      rw [h0]
      rfl
    rw [vmMapRam_eq, hcount, if_neg hle, hadded, hnil, h0]
    exact ⟨fun _ => ⟨Nat.zero_le _, Or.inr rfl⟩,
      fun _ => ⟨⟨rfl, fun _ hp => (nomatch hp), fun _ _ => rfl⟩, rfl⟩⟩

/-! ## The search of the free list -/

/-- The free region at which the list walk stops. -/
def firstFit (freergs : List VmRg) (size : CInt) : Option VmRg :=
  freergs.find? fun rg => decide (rg.rgStart + toAddr size ≤ rg.rgEnd)

/-- The region at which the list walk stops is listed and, with the sum cut to 64 bits,
long enough. -/
theorem firstFit_some {size : CInt} {l : List VmRg} {rg : VmRg} (h : firstFit l size = some rg) :
    rg ∈ l ∧ rg.rgStart + toAddr size ≤ rg.rgEnd := by
  unfold firstFit at h
  have hfit := List.find?_some h
  exact ⟨List.mem_of_find?_eq_some h, of_decide_eq_true hfit⟩

/-- The walk changes nothing if no region fits. -/
theorem freergWalk_of_none {size : CInt} {l : List VmRg} (h : firstFit l size = none) :
    freergWalk size l = (⟨-1, -1⟩, l) := by
  induction l with
  | nil => rfl
  | cons rgit next ih =>
    unfold firstFit at h
    rw [List.find?_cons] at h
    rw [freergWalk]
    by_cases hfit : rgit.rgStart + toAddr size ≤ rgit.rgEnd
    · rw [decide_eq_true hfit] at h
      cases h
    · rw [decide_eq_false hfit] at h
      rw [if_neg hfit, ih h]

/-- The region that the walk takes from the first one that fits is as long as the size,
which has been cut to an `int` and extended again. -/
theorem freergWalk_of_some {size : CInt} {l : List VmRg} {rg : VmRg}
    (h : firstFit l size = some rg) :
    (freergWalk size l).1 = ⟨rg.rgStart, rg.rgStart + toAddr size⟩ := by
  induction l with
  | nil => cases h
  | cons rgit next ih =>
    unfold firstFit at h
    rw [List.find?_cons] at h
    rw [freergWalk]
    by_cases hfit : rgit.rgStart + toAddr size ≤ rgit.rgEnd
    · rw [decide_eq_true hfit] at h
      cases h
      rw [if_pos hfit]
      dsimp only
      split
      · rfl
      · cases next <;> rfl
    · rw [decide_eq_false hfit] at h
      rw [if_neg hfit]
      exact ih h

/-- The regions that the walk leaves lie below the break. -/
theorem freergWalk_within {size : CInt} {l : List VmRg} {brk : Addr}
    (hl : ∀ rg ∈ l, Within rg brk) : ∀ rg ∈ (freergWalk size l).2, Within rg brk := by
  induction l with
  | nil => exact hl
  | cons rgit next ih =>
    have hnext : ∀ rg ∈ next, Within rg brk := fun rg h => hl rg (List.mem_cons_of_mem _ h)
    have hend := (hl rgit List.mem_cons_self).2
    rw [freergWalk]
    by_cases hfit : rgit.rgStart + toAddr size ≤ rgit.rgEnd
    · rw [if_pos hfit]
      dsimp only
      split
      · intro rg hrg
        rcases List.mem_cons.mp hrg with rfl | hrg
        · exact ⟨BitVec.le_def.mp hfit, hend⟩
        · exact hnext rg hrg
      · cases next with
        | nil =>
          intro rg hrg
          obtain rfl := List.mem_singleton.mp hrg
          exact ⟨Nat.le_refl _, hend⟩
        | cons nextrg rest => exact hnext
    · rw [if_neg hfit]
      intro rg hrg
      rcases List.mem_cons.mp hrg with rfl | hrg
      · exact hl rg List.mem_cons_self
      · exact ih hnext rg hrg

/-- `get_free_vmrg_area` is the walk, as long as no region starts at the address it
stands for "nothing found". -/
theorem getFreeVmrgArea_firstFit {l : List VmRg} (hl : ∀ rg ∈ l, rg.rgStart ≠ -1) (size : CInt) :
    (firstFit l size = none → getFreeVmrgArea l size = (none, l)) ∧
      ∀ rg, firstFit l size = some rg →
        (getFreeVmrgArea l size).1 = some ⟨rg.rgStart, rg.rgStart + toAddr size⟩ := by
  cases l with
  | nil => exact ⟨fun _ => rfl, fun _ h => nomatch h⟩
  | cons rgit next =>
    dsimp only [getFreeVmrgArea]
    refine ⟨fun h => ?_, fun rg h => ?_⟩
    · rw [freergWalk_of_none h, if_pos rfl]
    · have hne := hl rg (firstFit_some h).1
      rw [freergWalk_of_some h, if_neg hne]

/-- The regions that `get_free_vmrg_area` leaves lie below the break. -/
theorem getFreeVmrgArea_within {l : List VmRg} {brk : Addr} (hl : ∀ rg ∈ l, Within rg brk)
    (size : CInt) : ∀ rg ∈ (getFreeVmrgArea l size).2, Within rg brk := by
  cases l with
  | nil => exact hl
  | cons rgit next =>
    dsimp only [getFreeVmrgArea]
    split <;> exact freergWalk_within hl

/-! ## Sound heaps -/

/-- The area of a process with all regions below its break. -/
structure HeapSound (mm : MmStruct) (vma : VmArea) : Prop where
  /-- The area is the only one of the process. -/
  area : HeapArea mm vma
  /-- Symbols lie below the break. -/
  table : ∀ k, Within (mm.symrgtbl k) vma.sbrk
  /-- Free regions lie below the break. -/
  free : ∀ rg ∈ vma.vmFreergList, Within rg vma.sbrk

/-- No free region starts at the last address. -/
theorem HeapSound.rgStart_ne {mm : MmStruct} {vma : VmArea} (h : HeapSound mm vma) :
    ∀ rg ∈ vma.vmFreergList, rg.rgStart ≠ -1 := by
  intro rg hrg hm
  obtain ⟨hse, heb⟩ := h.free rg hrg
  have ha := h.area.aligned
  have hlast : (-1 : Addr).toNat = 2 ^ 64 - 1 := by decide
  have hlt := vma.sbrk.isLt
  rw [hm, hlast] at hse
  omega

/-- Without a fitting region the search changes nothing. -/
theorem HeapSound.search_none {mm : MmStruct} {vma : VmArea} (h : HeapSound mm vma) {vmaid : CInt}
    (hs : ¬(0 : CInt).slt vmaid = true) {size : Addr}
    (hf : firstFit vma.vmFreergList (toCInt size) = none) :
    foundRegion mm vmaid size = none ∧ afterWalk mm vmaid size = mm := by
  have hv := h.area.getVmaByNum_eq vmaid
  have hg := (getFreeVmrgArea_firstFit h.rgStart_ne (toCInt size)).1 hf
  rw [if_neg hs] at hv
  unfold foundRegion afterWalk
  rw [hv]
  dsimp only
  rw [hg]
  exact ⟨rfl, setVma_getVmaByNum hv⟩

/-- In a sound heap the search hands out the front of the first region that fits. -/
theorem HeapSound.search_some {mm : MmStruct} {vma : VmArea} (h : HeapSound mm vma) {vmaid : CInt}
    (hs : ¬(0 : CInt).slt vmaid = true) {size : Addr} {rg : VmRg}
    (hf : firstFit vma.vmFreergList (toCInt size) = some rg) :
    foundRegion mm vmaid size =
      some ⟨rg.rgStart, rg.rgStart + toAddr (toCInt size)⟩ := by
  rw [h.area.foundRegion_eq, if_neg hs]
  exact (getFreeVmrgArea_firstFit h.rgStart_ne (toCInt size)).2 rg hf

/-- Whatever the search takes, the heap stays sound. -/
theorem HeapSound.walked {mm : MmStruct} {vma : VmArea} (h : HeapSound mm vma) (vmaid : CInt)
    (size : Addr) : ∃ l, HeapSound (afterWalk mm vmaid size) {vma with vmFreergList := l} := by
  have hm := h.area.afterWalk_mmap vmaid size
  refine ⟨_, h.area.of_setFree hm, ?_, ?_⟩
  · rw [(afterWalk_same _ _ _).2]
    exact h.table
  · dsimp only
    split
    · exact h.free
    · exact getFreeVmrgArea_within h.free _

/-- Paging leaves a heap sound. -/
theorem HeapSound.congr {mm mm' : MmStruct} {vma : VmArea} (h : HeapSound mm vma)
    (hm : mm'.mmap = mm.mmap) (hs : mm'.symrgtbl = mm.symrgtbl) : HeapSound mm' vma := by
  refine ⟨h.area.congr hm, ?_, h.free⟩
  rw [hs]
  exact h.table

/-- A symbol may get a region below the break. -/
theorem HeapSound.setSymrg {mm : MmStruct} {vma : VmArea} (h : HeapSound mm vma) (k : Fin 30)
    {rg : VmRg} (hrg : Within rg vma.sbrk) : HeapSound (mm.setSymrg k rg) vma :=
  ⟨h.area.congr rfl, within_setSymrg h.table hrg, h.free⟩

/-- The break may move up. -/
theorem HeapSound.raise {mm : MmStruct} {vma : VmArea} (h : HeapSound mm vma) {incSz : Addr}
    (hw : NoWrap vma incSz) :
    HeapSound {mm with mmap := [setBreak vma (newBreak vma incSz)]}
      (setBreak vma (newBreak vma incSz)) := by
  have hbrk := newBreak_toNat_of_noWrap hw
  have hle : vma.sbrk.toNat ≤ (newBreak vma incSz).toNat := hbrk ▸ Nat.le_add_right _ _
  exact ⟨h.area.of_setBreak rfl, fun k => ⟨(h.table k).1, (h.table k).2.trans hle⟩,
    fun rg hr => ⟨(h.free rg hr).1, (h.free rg hr).2.trans hle⟩⟩

/-- The memory manager that `init_mm` builds. -/
theorem heapSound_initMm : HeapSound initMm ⟨0, 0, 0, 0, [⟨0, 0⟩]⟩ := by
  refine ⟨heapArea_initMm, fun _ => ⟨Nat.le_refl _, Nat.le_refl _⟩, fun rg hr => ?_⟩
  obtain rfl := List.mem_singleton.mp hr
  exact ⟨Nat.le_refl _, Nat.le_refl _⟩

/-! ## Allocations -/

/-- `__alloc` returns -1 and changes nothing, or the symbol has a region of the size
asked for that starts at the address reported and ends below the break. -/
def AllocExact (uninit : Addr → Byte) (c : ProcMem) (vmaid rgid : CInt) (size : Addr) : Prop :=
  ∃ o c', alloc uninit c vmaid rgid size = .ok (o, c') ∧
    (o = none ∧ c' = c ∨ ∃ k addr vma, symrgSlot rgid = .ok k ∧ o = some addr ∧
      c'.mm.mmap = [vma] ∧ (c'.mm.symrgtbl k).rgStart = addr ∧
      (c'.mm.symrgtbl k).rgEnd.toNat = addr.toNat + size.toNat ∧
      (c'.mm.symrgtbl k).rgEnd ≤ vma.sbrk)

/-- A free region is handed out for a size that its `int` stands for and without
passing 2^64; or growth is refused; or the break survives its passage through an `int`
and does not wrap. A region handed out has a place in the table. -/
def PlaceFits (c : ProcMem) (vma : VmArea) (rgid : CInt) (size : Addr) : Option VmRg → Prop
  | some rg => rgid.toNat < 30 ∧ toAddr (toCInt size) = size ∧
      rg.rgStart.toNat + size.toNat < 2 ^ 64
  | none => c.listed = false ∨ newBreak vma size = 0 ∨
      rgid.toNat < 30 ∧ toAddr (toCInt vma.sbrk) ≤ vma.sbrk ∧ NoWrap vma size

/-- The area exists, and the region has a place that is arithmetically sound. -/
def AllocFits (c : ProcMem) (vma : VmArea) (vmaid rgid : CInt) (size : Addr) : Prop :=
  ¬(0 : CInt).slt vmaid ∧
    PlaceFits c vma rgid size (firstFit vma.vmFreergList (toCInt size))

theorem symrgSlot_ok {rgid : CInt} {k : Fin 30} (h : symrgSlot rgid = .ok k) :
    rgid.toNat < 30 := by
  unfold symrgSlot at h
  split at h
  · assumption
  · cases h

theorem symrgSlot_error {rgid : CInt} {e : Fault} (h : symrgSlot rgid = .error e) :
    ¬rgid.toNat < 30 := by
  unfold symrgSlot at h
  split at h
  · cases h
  · assumption

/-- An `int` copy of an aligned break is aligned. -/
theorem dvd_toAddr_toCInt {brk : Addr} (h : 4096 ∣ brk.toNat) :
    4096 ∣ (toAddr (toCInt brk)).toNat := by
  unfold toAddr toCInt
  rw [BitVec.toNat_signExtend, BitVec.toNat_setWidth, BitVec.toNat_setWidth]
  split <;> omega

/-- The region past the old break is exact exactly if its start is not past it and the
new break does not wrap. -/
theorem grown_exact_iff {vma : VmArea} (ha : 4096 ∣ vma.sbrk.toNat) (size : Addr) :
    ((toAddr (toCInt vma.sbrk) + size).toNat = (toAddr (toCInt vma.sbrk)).toNat + size.toNat ∧
      toAddr (toCInt vma.sbrk) + size ≤ newBreak vma size) ↔
    toAddr (toCInt vma.sbrk) ≤ vma.sbrk ∧ NoWrap vma size := by
  have hd := dvd_toAddr_toCInt ha
  generalize toAddr (toCInt vma.sbrk) = old at hd
  have hbrk := vma.sbrk.isLt
  have hold := old.isLt
  have hsize := size.isLt
  have hsum := (old + size).isLt
  rw [BitVec.le_def, BitVec.le_def, newBreak_toNat]
  unfold NoWrap pagesNeeded
  constructor
  · rintro ⟨heq, hle⟩
    rw [heq] at hle hsum
    constructor <;> omega
  · rintro ⟨hle, hw⟩
    have hadd : (old + size).toNat = old.toNat + size.toNat := by
      rw [BitVec.toNat_add]
      exact Nat.mod_eq_of_lt (by omega)
    rw [hadd]
    exact ⟨rfl, by omega⟩

/-- The region cut off a free one is exact exactly if the size survives its passage
through an `int` and the sum does not wrap. -/
theorem reused_exact_iff (start size : Addr) :
    (start + toAddr (toCInt size)).toNat = start.toNat + size.toNat ↔
      toAddr (toCInt size) = size ∧ start.toNat + size.toNat < 2 ^ 64 := by
  constructor
  · intro h
    have hlt := (start + toAddr (toCInt size)).isLt
    rw [h] at hlt
    refine ⟨?_, hlt⟩
    have hsum : start + toAddr (toCInt size) = start + size := by
      apply BitVec.eq_of_toNat_eq
      rw [h, BitVec.toNat_add]
      exact (Nat.mod_eq_of_lt hlt).symm
    exact (BitVec.add_right_inj start).mp hsum
  · rintro ⟨h, hlt⟩
    rw [h, BitVec.toNat_add]
    exact Nat.mod_eq_of_lt hlt

/-- The growth of `__alloc` in a sound heap that it finds no region in. -/
theorem HeapSound.allocGrowth_eq {c : ProcMem} {vma : VmArea} (h : HeapSound c.mm vma)
    {vmaid : CInt} (hs : ¬(0 : CInt).slt vmaid = true) {size : Addr}
    (hf : firstFit vma.vmFreergList (toCInt size) = none) : allocGrowth c vmaid size =
      if c.listed = false ∨ newBreak vma size = 0 then none
      else some ⟨{c.mm with mmap := [setBreak vma (newBreak vma size)]}, vma.sbrk,
        incNumPage (paging64PageAlignsz size)⟩ := by
  unfold allocGrowth
  rw [(h.search_none hs hf).2, h.area.growthOf_eq]
  cases c.listed with
  | false => rw [if_pos (Or.inl rfl), if_neg Bool.false_ne_true]
  | true =>
    rw [if_pos rfl]
    by_cases hb : newBreak vma size = 0
    · rw [if_pos (Or.inr hb), if_pos (Or.inr hb)]
    · have hno : ¬(true = false ∨ newBreak vma size = 0) :=
        fun ho => ho.elim Bool.noConfusion hb
      rw [if_neg fun ho => ho.elim hs hb, if_neg hno]

/-- `__alloc` in a sound heap: what it returns and leaves. -/
theorem HeapSound.alloc_eq {c : ProcMem} {vma : VmArea} (h : HeapSound c.mm vma)
    {vmaid : CInt} (hs : ¬(0 : CInt).slt vmaid = true) (rgid : CInt) (size : Addr) :
    (∃ rg, firstFit vma.vmFreergList (toCInt size) = some rg ∧
      alloc uninit c vmaid rgid size = (symrgSlot rgid).map fun k => (some rg.rgStart,
        {c with
          mm := (afterWalk c.mm vmaid size).setSymrg k
            ⟨rg.rgStart, rg.rgStart + toAddr (toCInt size)⟩})) ∨
    (firstFit vma.vmFreergList (toCInt size) = none ∧
      (c.listed = false ∨ newBreak vma size = 0) ∧
      alloc uninit c vmaid rgid size = .ok (none, c)) ∨
    (firstFit vma.vmFreergList (toCInt size) = none ∧
      ¬(c.listed = false ∨ newBreak vma size = 0) ∧
      ∃ c₁ : ProcMem, c₁.mm.mmap = [setBreak vma (newBreak vma size)] ∧
        c₁.mm.symrgtbl = c.mm.symrgtbl ∧ alloc uninit c vmaid rgid size =
          (symrgSlot rgid).map fun k => (some (toAddr (toCInt vma.sbrk)),
            {c₁ with
              mm := c₁.mm.setSymrg k
                ⟨toAddr (toCInt vma.sbrk), toAddr (toCInt vma.sbrk) + size⟩})) := by
  have hv : getVmaByNum c.mm vmaid = some (0, vma) := by
    rw [h.area.getVmaByNum_eq, if_neg hs]
  have halloc := @MemoryInstruction.alloc_eq uninit c vmaid 0 vma hv rgid size
  cases hf : firstFit vma.vmFreergList (toCInt size) with
  | some rg =>
    rw [h.search_some hs hf] at halloc
    exact Or.inl ⟨rg, rfl, halloc⟩
  | none =>
    obtain ⟨hfound, hwalk⟩ := h.search_none hs hf
    rw [hfound, h.allocGrowth_eq hs hf] at halloc
    by_cases hr : c.listed = false ∨ newBreak vma size = 0
    · rw [if_pos hr, hwalk] at halloc
      exact Or.inr (Or.inl ⟨rfl, hr, halloc⟩)
    · rw [if_neg hr] at halloc
      obtain ⟨hm, hsym⟩ := vmMapRam_regions
        {c with mm := {c.mm with mmap := [setBreak vma (newBreak vma size)]}} vma.sbrk
        (incNumPage (paging64PageAlignsz size))
      exact Or.inr (Or.inr ⟨rfl, hr, _, hm, hsym, halloc⟩)

/-- A region that is handed out is exact if the table has a place for it and it has the
size asked for below the break. -/
theorem allocExact_place {c c₁ : ProcMem} {vmaid rgid : CInt} {size : Addr} {rg : VmRg}
    {vma₁ : VmArea} (hm : c₁.mm.mmap = [vma₁])
    (ha : alloc uninit c vmaid rgid size = (symrgSlot rgid).map fun k =>
      (some rg.rgStart, {c₁ with mm := c₁.mm.setSymrg k rg})) :
    AllocExact uninit c vmaid rgid size ↔ rgid.toNat < 30 ∧
      rg.rgEnd.toNat = rg.rgStart.toNat + size.toNat ∧ rg.rgEnd ≤ vma₁.sbrk := by
  unfold AllocExact
  rw [ha]
  cases hk : symrgSlot rgid with
  | error e =>
    refine ⟨?_, fun hfits => absurd hfits.1 (symrgSlot_error hk)⟩
    rintro ⟨o, c', he, _⟩
    cases he
  | ok k =>
    have hself : (c₁.mm.setSymrg k rg).symrgtbl k = rg := Function.update_self ..
    dsimp only [Except.map]
    constructor
    · rintro ⟨o, c', he, hex⟩
      cases he
      obtain ⟨ho, _⟩ | ⟨k', addr, vma', hk', ho, hm', _, hend, hle⟩ := hex
      · cases ho
      · cases hk'
        cases ho
        cases hm.symm.trans hm'
        dsimp only at hend hle
        rw [hself] at hend hle
        exact ⟨symrgSlot_ok hk, hend, hle⟩
    · rintro ⟨_, hend, hle⟩
      refine ⟨_, _, rfl, Or.inr ⟨k, rg.rgStart, vma₁, rfl, rfl, hm, ?_⟩⟩
      dsimp only
      rw [hself]
      exact ⟨rfl, hend, hle⟩

/-- In a sound heap `__alloc` is exact exactly if its arguments fit. -/
theorem HeapSound.allocExact_iff {c : ProcMem} {vma : VmArea} (h : HeapSound c.mm vma)
    (vmaid rgid : CInt) (size : Addr) :
    AllocExact uninit c vmaid rgid size ↔ AllocFits c vma vmaid rgid size := by
  unfold AllocFits
  by_cases hs : (0 : CInt).slt vmaid = true
  · refine ⟨?_, fun hfit => absurd hs hfit.1⟩
    rintro ⟨o, c', ha, _⟩
    unfold alloc at ha
    rw [h.area.getVmaByNum_eq, if_pos hs] at ha
    cases ha
  rw [eq_true hs, true_and]
  obtain ⟨rg, hf, ha⟩ | ⟨hf, hr, ha⟩ | ⟨hf, hr, c₁, hm, _, ha⟩ :=
    @HeapSound.alloc_eq uninit c vma h vmaid hs rgid size
  · -- the end of a region cut off a free one is below the break
    obtain ⟨hmem, hfit⟩ := firstFit_some hf
    have hbelow : rg.rgStart + toAddr (toCInt size) ≤ vma.sbrk :=
      BitVec.le_def.mpr ((BitVec.le_def.mp hfit).trans (h.free rg hmem).2)
    have hplace := @allocExact_place uninit c {c with mm := afterWalk c.mm vmaid size} vmaid rgid
      size ⟨rg.rgStart, rg.rgStart + toAddr (toCInt size)⟩ _ (h.area.afterWalk_mmap vmaid size) ha
    rw [hf, hplace]
    dsimp only [PlaceFits]
    rw [and_iff_left hbelow, reused_exact_iff]
  · rw [hf]
    exact ⟨fun _ => hr.imp_right Or.inl, fun _ => ⟨none, c, ha, Or.inl ⟨rfl, rfl⟩⟩⟩
  · have hplace := @allocExact_place uninit c c₁ vmaid rgid size
      ⟨toAddr (toCInt vma.sbrk), toAddr (toCInt vma.sbrk) + size⟩ _ hm ha
    have hgrown := grown_exact_iff h.area.aligned size
    obtain ⟨hl, hb⟩ := not_or.mp hr
    rw [hf, hplace]
    dsimp only [PlaceFits]
    rw [or_iff_right hl, or_iff_right hb, ← hgrown]
    exact Iff.rfl

/-! ## Runs -/

/-- An allocation fits, and a growth by system call is refused or does not wrap. -/
def ArithSafe (c : ProcMem) (ins : Inst) : Prop :=
  ∀ vma ∈ c.mm.mmap,
    (ins.opcode = .alloc → AllocFits c vma 0 (toCInt ins.arg1) ins.arg0) ∧
    (ins.opcode = .syscall → toCInt ins.arg0 = 17 → toCInt ins.arg1 = sysmemIncOp →
      (0 : CInt).slt (toCInt ins.arg2) ∨ newBreak vma ins.arg3 = 0 ∨ NoWrap vma ins.arg3)

/-- A region below the break keeps the heap sound when a symbol gets it. -/
theorem HeapSound.placed {c₁ c' : ProcMem} {vma₁ : VmArea} (h : HeapSound c₁.mm vma₁) {rg : VmRg}
    (hw : Within rg vma₁.sbrk) {rgid : CInt} {o : Option Addr}
    (ha : ((symrgSlot rgid).map fun k =>
      (some rg.rgStart, {c₁ with mm := c₁.mm.setSymrg k rg})) = .ok (o, c')) :
    ∃ vma', HeapSound c'.mm vma' := by
  cases hk : symrgSlot rgid with
  | error e => rw [hk] at ha; cases ha
  | ok k =>
    rw [hk] at ha
    cases ha
    exact ⟨vma₁, h.setSymrg k hw⟩

/-- An allocation that fits keeps the heap sound. -/
theorem HeapSound.allocated {c c' : ProcMem} {vma : VmArea} (h : HeapSound c.mm vma)
    {vmaid rgid : CInt} {size : Addr} {o : Option Addr} (hfits : AllocFits c vma vmaid rgid size)
    (ha : alloc uninit c vmaid rgid size = .ok (o, c')) : ∃ vma', HeapSound c'.mm vma' := by
  obtain ⟨hs, hfits⟩ := hfits
  obtain ⟨rg, hf, he⟩ | ⟨hf, _, he⟩ | ⟨hf, hr, c₁, hm, hsym, he⟩ :=
    @HeapSound.alloc_eq uninit c vma h vmaid hs rgid size
  · rw [hf] at hfits
    have hend := (reused_exact_iff rg.rgStart size).mpr hfits.2
    obtain ⟨hmem, hfit⟩ := firstFit_some hf
    obtain ⟨_, heb⟩ := h.free rg hmem
    obtain ⟨l, hwalk⟩ := h.walked vmaid size
    have hw : Within ⟨rg.rgStart, rg.rgStart + toAddr (toCInt size)⟩ vma.sbrk :=
      ⟨by dsimp only; omega, (BitVec.le_def.mp hfit).trans heb⟩
    exact @HeapSound.placed {c with mm := afterWalk c.mm vmaid size} c' _ hwalk _ hw rgid o
      (he.symm.trans ha)
  · rw [he] at ha
    cases ha
    exact ⟨vma, h⟩
  · rw [hf] at hfits
    obtain ⟨hl, hb⟩ := not_or.mp hr
    have hfits := (hfits.resolve_left hl).resolve_left hb
    obtain ⟨hend, hle⟩ := (grown_exact_iff h.area.aligned size).mpr hfits.2
    have hraised : HeapSound c₁.mm _ := (h.raise hfits.2.2).congr hm hsym
    have hw : Within ⟨toAddr (toCInt vma.sbrk), toAddr (toCInt vma.sbrk) + size⟩
        (newBreak vma size) := ⟨by dsimp only; omega, BitVec.le_def.mp hle⟩
    exact hraised.placed hw (he.symm.trans ha)

/-- A release keeps the heap sound. -/
theorem HeapSound.released {c c' : ProcMem} {vma : VmArea} (h : HeapSound c.mm vma)
    {rgid : CInt} {n : Int} (hf : MemoryLibrary.free c rgid = .ok (n, c')) :
    ∃ vma', HeapSound c'.mm vma' := by
  obtain ⟨_, rfl⟩ | ⟨k, vma0, next, _, hm, _, rfl⟩ := free_cases hf
  · exact ⟨vma, h⟩
  · rw [h.area.single] at hm
    obtain ⟨rfl, rfl⟩ := List.cons.inj hm
    have hcleared : HeapSound (c.mm.setSymrg k ⟨0, 0⟩) vma :=
      h.setSymrg k ⟨Nat.le_refl _, Nat.zero_le _⟩
    dsimp only
    split
    · exact ⟨vma, hcleared⟩
    · refine ⟨{vma with vmFreergList := c.mm.symrgtbl k :: vma.vmFreergList},
        hcleared.area.of_setFree rfl, hcleared.table, fun rg hr => ?_⟩
      rcases List.mem_cons.mp hr with rfl | hr
      · exact h.table k
      · exact h.free rg hr

/-- An instruction that meets the condition keeps the heap sound. -/
theorem HeapSound.inst {c c' : ProcMem} {ins : Inst} {vma : VmArea} (h : HeapSound c.mm vma)
    (hsafe : ArithSafe c ins) (hstep : InstStep uninit c ins c') :
    ∃ vma', HeapSound c'.mm vma' := by
  have hvma : vma ∈ c.mm.mmap := by
    rw [h.area.single]
    exact List.mem_cons_self
  have hsafe := hsafe vma hvma
  cases instStep_regions hstep with
  | same hm hsym => exact ⟨vma, h.congr hm hsym⟩
  | alloc hop ha => exact h.allocated (hsafe.1 hop) ha
  | free ha => exact h.released ha
  | inc hop hnr hm =>
    rw [h.area.incVmaLimit_break]
    by_cases hr : (0 : CInt).slt (toCInt ins.arg2) = true ∨ newBreak vma ins.arg3 = 0
    · rw [if_pos hr]
      exact ⟨vma, h⟩
    · obtain ⟨hs, hb⟩ := not_or.mp hr
      rw [if_neg hr]
      have hw : NoWrap vma ins.arg3 := ((hsafe.2 hop hnr hm).resolve_left hs).resolve_left hb
      obtain ⟨hmap, hsym⟩ := vmMapRam_regions
        {c with mm := {c.mm with mmap := [setBreak vma (newBreak vma ins.arg3)]}} vma.sbrk
        (incNumPage (paging64PageAlignsz ins.arg3))
      exact ⟨_, (h.raise hw).congr hmap hsym⟩

/-- In every run whose instructions all meet the condition, in every state reached,
each call is exact exactly under its own condition. -/
theorem arithmetic_exact [DecidableEq ι] {s s' : SharedMem ι} {ops : List (SharedOp ι)}
    (hb : SharedBoot s) (h : Run (Guarded (fun s op => ArithSafe (s.view op.proc op.listed) op.ins)
      (SharedStep uninit)) s ops s') (i : ι) (listed : Bool) :
    ∃ vma, (s'.mm i).mmap = [vma] ∧
      (∀ vmaid rgid size, AllocExact uninit (s'.view i listed) vmaid rgid size ↔
        AllocFits (s'.view i listed) vma vmaid rgid size) ∧
      ∀ vmaid incSz, pagesNeeded incSz ≤ s'.mram.freeFpList.length →
        (IncExact (s'.view i listed) vma vmaid incSz ↔
          IncFits (s'.view i listed) vma vmaid incSz) := by
  have hsound : ∃ vma, HeapSound (s'.mm i) vma := by
    refine h.invariant (fun s => ∀ i, ∃ vma, HeapSound (s.mm i) vma) ?_ (fun i => ?_) i
    · rintro s op s' hs ⟨hsafe, c', hstep, rfl⟩ j
      dsimp only [SharedMem.store]
      by_cases hj : j = op.proc
      · rw [hj, Function.update_self]
        obtain ⟨vma, hv⟩ := hs op.proc
        exact HeapSound.inst (c := s.view op.proc op.listed) hv hsafe hstep
      · rw [Function.update_of_ne hj]
        exact hs j
    · rw [hb.1 i]
      exact ⟨_, heapSound_initMm⟩
  obtain ⟨vma, hv⟩ := hsound
  have hram := mram_free_length_of_reachable ⟨s, ops, hb, h.unguard⟩
  have hview : HeapSound (s'.view i listed).mm vma := hv
  exact ⟨vma, hv.area.single, fun vmaid rgid size => hview.allocExact_iff vmaid rgid size,
    fun vmaid incSz hfree => incExact_iff hview.area hfree hram⟩

/-! ## Two processes -/

instance (c : ProcMem) (vma : VmArea) (rgid : CInt) (size : Addr) (o : Option VmRg) :
    Decidable (PlaceFits c vma rgid size o) :=
  match o with
  | some _ => inferInstanceAs (Decidable (_ ∧ _))
  | none => inferInstanceAs (Decidable (_ ∨ _))

instance (c : ProcMem) (vma : VmArea) (vmaid rgid : CInt) (size : Addr) :
    Decidable (AllocFits c vma vmaid rgid size) := inferInstanceAs (Decidable (_ ∧ _))

instance (c : ProcMem) (ins : Inst) : Decidable (ArithSafe c ins) :=
  List.decidableBAll _ _

/-- Allocations of two processes, a release with a reuse, and a growth. -/
def growAndReuse (p q : ι) : List (SharedOp ι) :=
  [⟨p, true, ⟨.alloc, 300, 0, 0, 0⟩⟩, ⟨q, true, ⟨.alloc, 5000, 0, 0, 0⟩⟩,
    ⟨p, true, ⟨.free, 0, 0, 0, 0⟩⟩, ⟨p, true, ⟨.alloc, 100, 1, 0, 0⟩⟩,
    ⟨p, true, ⟨.syscall, 17, 2, 0, 4096⟩⟩]

/-- A growth and the reuse of a released region meet the condition, and the break of
process 0 is where their sizes put it. -/
theorem arithmetic_exact_growAndReuse : ∃ s,
    Run (Guarded (fun s op => ArithSafe (s.view op.proc op.listed) op.ins)
      (SharedStep fun _ => 0)) (sharedStart 32768 0) (growAndReuse 0 1) s ∧
    (s.mm 0).mmap.map VmArea.sbrk = [8192] ∧
    ∃ vma, (s.mm 0).mmap = [vma] ∧
      (∀ vmaid rgid size, AllocExact (fun _ => 0) (s.view 0 true) vmaid rgid size ↔
        AllocFits (s.view 0 true) vma vmaid rgid size) ∧
      ∀ vmaid incSz, pagesNeeded incSz ≤ s.mram.freeFpList.length →
        (IncExact (s.view 0 true) vma vmaid incSz ↔ IncFits (s.view 0 true) vma vmaid incSz) := by
  obtain ⟨s, hrun, hf⟩ := exists_run_of_map
    (fun (s : SharedMem (Fin 2)) op => ArithSafe (s.view op.proc op.listed) op.ins)
    (sharedStep_of_sharedNext fun _ => 0) (sharedStart 32768 0) (growAndReuse 0 1)
    (fun s => (s.mm 0).mmap.map VmArea.sbrk) [8192] rfl
  exact ⟨s, hrun, hf, arithmetic_exact (sharedBoot_sharedStart _ _) hrun 0 true⟩

/-- After 4096 bytes have been allocated, a growth by nothing maps the page past the
break. -/
theorem arithmetic_not_exact : ¬ ∀ (uninit : Addr → Byte) (s : SharedMem (Fin 2)),
    Reachable SharedBoot (SharedStep uninit) s → ∀ i listed vma, (s.mm i).mmap = [vma] →
      ∀ vmaid rgid size, pagesNeeded size ≤ s.mram.freeFpList.length →
        AllocExact uninit (s.view i listed) vmaid rgid size ∧
          IncExact (s.view i listed) vma vmaid size := by
  intro h
  obtain ⟨s, hrun, hf⟩ := exists_run_of_map (fun (_ : SharedMem (Fin 2)) _ => True)
    (sharedStep_of_sharedNext fun _ => 0) (sharedStart 16384 0)
    [⟨0, true, ⟨.alloc, 4096, 0, 0, 0⟩⟩]
    (fun s => ((s.mm 0).mmap.map VmArea.sbrk, s.mram.freeFpList)) ([4096], [1, 2, 3]) rfl
  obtain ⟨hbrk, hlist⟩ := Prod.mk.inj hf
  have hreach : Reachable SharedBoot (SharedStep fun _ => 0) s :=
    ⟨_, _, sharedBoot_sharedStart _ _, hrun.unguard⟩
  obtain ⟨vma, hv⟩ := heapArea_of_reachable hreach 0
  rw [hv.single] at hbrk
  have hsbrk : vma.sbrk = 4096 := List.singleton_inj.mp hbrk
  have hfree : pagesNeeded 0 ≤ s.mram.freeFpList.length := Nat.zero_le _
  have hexact := (h _ s hreach 0 true vma hv.single 0 0 0 hfree).2
  have hview : HeapArea (s.view 0 true).mm vma := hv
  rcases (incExact_iff hview hfree (mram_free_length_of_reachable hreach)).mp hexact with
    hs | hb | ⟨_, _, hz | hl⟩
  · exact absurd hs (by decide)
  · unfold newBreak at hb
    rw [hsbrk] at hb
    exact absurd hb (by decide)
  · exact hz rfl
  · change s.mram.freeFpList = [] at hl
    rw [hlist] at hl
    cases hl

end OsSim.MemoryArithmetic
