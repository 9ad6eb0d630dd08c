import OsSim.MemoryDrain
import OsSim.MemoryTranslation

/-!
# Growing the heap, and failing to

`inc_vma_limit` drops the status of `vm_map_ram`, so that a growth which RAM cannot
serve moves the break, empties the free list and reports success. The growth is
all-or-nothing exactly where it is refused before it reaches RAM, or where RAM has
the frames.
-/

namespace OsSim.MemoryGrowth

open MemoryWords MemoryDevice MemoryPageTable MemoryMapping MemoryPaging MemoryLibrary
open MemoryInstruction MemoryArea MemoryBytes MemoryFrames MemoryTranslation MemoryDrain RunSteps

variable {uninit : Addr → Byte} {ι : Type*}

/-! ## The pages of a growth -/

/-- As long as an `int` can count them, that many pages are asked for, and one for an
increment of zero. -/
theorem loopCount_incNumPage {incSz : Addr} (h : pagesNeeded incSz < 2 ^ 31) :
    loopCount (incNumPage (paging64PageAlignsz incSz)) = max 1 (pagesNeeded incSz) := by
  have hpages : (toCInt (paging64PageAlignsz incSz / 4096#64)).toNat = pagesNeeded incSz := by
    unfold toCInt
    rw [BitVec.toNat_setWidth, BitVec.toNat_udiv, paging64PageAlignsz_toNat]
    change pagesNeeded incSz * 4096 % 2 ^ 64 / 4096 % 2 ^ 32 = _
    omega
  unfold incNumPage
  split
  · next h0 =>
    rw [h0] at hpages
    rw [← hpages]
    rfl
  · next h0 =>
    have hpos : pagesNeeded incSz ≠ 0 := fun hz => h0 (BitVec.eq_of_toNat_eq (hpages.trans hz))
    unfold loopCount
    rw [BitVec.toInt_eq_toNat_of_lt (by omega), hpages, Int.toNat_natCast]
    omega

/-- A memory manager in which some pages have been mapped, in this order. -/
structure MapsPages (mm mm' : MmStruct) (pages : List Addr) : Prop where
  /-- The pages are enlisted, the last one in front. -/
  fifoPgn : mm'.fifoPgn = pages.reverse ++ mm.fifoPgn
  /-- Every one of the pages is resident. -/
  resident : ∀ p ∈ pages, Resident (mm'.entry (ptIndex p))
  /-- Entries of no such page stay. -/
  others : ∀ j, (∀ p ∈ pages, ptIndex p ≠ j) → mm'.entry j = mm.entry j

/-- Mapping a further page behind some pages maps all of them in order. -/
theorem MapsPages.snoc {mm mm' : MmStruct} {pages : List Addr} (h : MapsPages mm mm' pages)
    (p f : Addr) : MapsPages mm (mapPage mm' p f) (pages ++ [p]) := by
  have hself : (mapPage mm' p f).entry (ptIndex p) = entrySetFpn (mm'.entry (ptIndex p)) f := by
    rw [mapPage_entry, Function.update_self]
  refine ⟨?_, fun q hq => ?_, fun j hj => ?_⟩
  · rw [mapPage_fifoPgn, h.fifoPgn, List.reverse_concat, List.cons_append]
  · by_cases hi : ptIndex q = ptIndex p
    · rw [hi, hself]
      exact resident_entrySetFpn _ _
    · rw [mapPage_entry, Function.update_of_ne hi]
      rcases List.mem_append.mp hq with hq | hq
      · exact h.resident q hq
      · exact absurd (congrArg ptIndex (List.mem_singleton.mp hq)) hi
  · have hp : ptIndex p ≠ j := hj p (List.mem_append_right _ List.mem_cons_self)
    rw [mapPage_entry, Function.update_of_ne hp.symm]
    exact h.others j fun q hq => hj q (List.mem_append_left _ hq)

/-- The pages of a range, as the mapping loop computes them. -/
def rangePages (start : Addr) (n : ℕ) : List Addr := (List.range n).map (rangePage start)

/-- `vmap_page_range` maps the pages of its range. -/
theorem vmapPageRange_mapsPages (mm : MmStruct) (start : Addr) {pages : CInt}
    {frames : List Addr} (hlen : frames.length = loopCount pages) :
    MapsPages mm (vmapPageRange mm start pages frames).2
      (rangePages start (loopCount pages)) := by
  unfold vmapPageRange
  have hstep : ∀ k f (_ : List Addr) m, MapsPages mm m (rangePages start k) →
      MapsPages mm (mapPage m (rangePage start k) f) (rangePages start (k + 1)) := by
    intro k f _ m h
    unfold rangePages
    rw [List.range_succ, List.map_append, List.map_singleton]
    exact h.snoc _ f
  have hnone : MapsPages mm (ensureDirectories mm) (rangePages start 0) :=
    ⟨rfl, fun _ hp => (nomatch hp), fun _ _ => rfl⟩
  have hrun := vmapPageRangeLoop_induct (fun k _ m => MapsPages mm m (rangePages start k))
    hstep hlen hnone
  rw [Nat.zero_add] at hrun
  exact hrun

/-- The pages of a range make every address present that lies in one of them. -/
theorem MapsPages.present {mm mm' : MmStruct} {start : Addr} {n : ℕ}
    (h : MapsPages mm mm' (rangePages start n)) {a : Addr} (hle : start.toNat / 4096 ≤ a.toNat / 4096)
    (hlt : a.toNat / 4096 < start.toNat / 4096 + n) : Present (mm'.entry (pageIndex a)) := by
  have hmem : rangePage start (a.toNat / 4096 - start.toNat / 4096) ∈ rangePages start n :=
    List.mem_map_of_mem (List.mem_range.mpr (by omega))
  have hix : ptIndex (rangePage start (a.toNat / 4096 - start.toNat / 4096)) = pageIndex a := by
    apply Fin.ext
    rw [ptIndex_rangePage, pageIndex_val, Nat.add_sub_cancel' hle]
  rw [← hix]
  exact (h.resident _ hmem).1

/-- A growth that RAM can serve maps the pages it asks for, from the old break on. -/
theorem grown_mapsPages (c : ProcMem) (vma : VmArea) (incSz : Addr)
    (hfree : max 1 (pagesNeeded incSz) ≤ c.mram.freeFpList.length)
    (hram : c.mram.freeFpList.length < 2 ^ 31) (brk : Addr) :
    MapsPages c.mm (vmMapRam {c with mm := {c.mm with mmap := [setBreak vma brk]}} vma.sbrk
        (incNumPage (paging64PageAlignsz incSz))).2.mm
      (rangePages vma.sbrk (max 1 (pagesNeeded incSz))) := by
  have hcount := loopCount_incNumPage (show pagesNeeded incSz < 2 ^ 31 by omega)
  have hmaps := vmapPageRange_mapsPages {c.mm with mmap := [setBreak vma brk]} vma.sbrk
    (List.length_take_of_le (by rw [hcount]; exact hfree))
  rw [hcount] at hmaps
  rw [vmMapRam_eq, hcount, if_pos hfree]
  exact ⟨hmaps.fifoPgn, hmaps.resident, hmaps.others⟩

/-! ## All or nothing -/

/-- `inc_vma_limit` cannot complete: no area has the identifier, the area would run into
another one, or RAM has too few frames. -/
def CannotComplete (c : ProcMem) (vmaid : CInt) (incSz : Addr) : Prop :=
  (∀ vma ∈ c.mm.mmap, toCInt vma.vmId ≠ vmaid) ∨
  (∃ (i j : ℕ) (cur vma : VmArea), c.mm.mmap[i]? = some cur ∧ toCInt cur.vmId = vmaid ∧
    c.mm.mmap[j]? = some vma ∧ j ≠ i ∧ cur.vmStart < vma.vmEnd ∧
      vma.vmStart.toNat < cur.sbrk.toNat + pagesNeeded incSz * 4096) ∨
  c.mram.freeFpList.length < pagesNeeded incSz

/-- Bounds, symbols, page table, replacement list and free frames are as before. -/
structure Untouched (c c' : ProcMem) : Prop where
  /-- `vm_end` and `sbrk` of every area. -/
  bounds : (c'.mm.mmap.map fun vma => (vma.vmEnd, vma.sbrk)) =
    c.mm.mmap.map fun vma => (vma.vmEnd, vma.sbrk)
  /-- `symrgtbl`. -/
  symrgtbl : c'.mm.symrgtbl = c.mm.symrgtbl
  /-- The directories of all levels. -/
  directories : c'.mm.pgd = c.mm.pgd ∧ c'.mm.p4d = c.mm.p4d ∧ c'.mm.pud = c.mm.pud ∧
    c'.mm.pmd = c.mm.pmd ∧ c'.mm.pt = c.mm.pt
  /-- `fifo_pgn`. -/
  fifoPgn : c'.mm.fifoPgn = c.mm.fifoPgn
  /-- The free list of RAM. -/
  freeFpList : c'.mram.freeFpList = c.mram.freeFpList

theorem Untouched.refl (c : ProcMem) : Untouched c c :=
  ⟨rfl, rfl, ⟨rfl, rfl, rfl, rfl, rfl⟩, rfl, rfl⟩

/-- Every page between the old and the new break of the area is present. -/
def GrownPresent (c c' : ProcMem) (vmaid : CInt) : Prop :=
  ∀ i cur cur', getVmaByNum c.mm vmaid = some (i, cur) → c'.mm.mmap[i]? = some cur' →
    ∀ a : Addr, cur.sbrk ≤ a → a < cur'.sbrk → Present (c'.mm.entry (pageIndex a))

/-- `inc_vma_limit` is all-or-nothing in this state. -/
def IncAllOrNothing (c : ProcMem) (vmaid : CInt) (incSz : Addr) : Prop :=
  (CannotComplete c vmaid incSz →
    (incVmaLimit c vmaid incSz).1 < 0 ∧ Untouched c (incVmaLimit c vmaid incSz).2) ∧
  ((incVmaLimit c vmaid incSz).1 = 0 → GrownPresent c (incVmaLimit c vmaid incSz).2 vmaid)

/-- `__alloc` fails without a trace if it needs a growth that cannot complete. -/
def AllocAllOrNothing (uninit : Addr → Byte) (c : ProcMem) (vmaid rgid : CInt) (size : Addr) :
    Prop :=
  foundRegion c.mm vmaid size = none → CannotComplete c vmaid size →
    ∃ c', alloc uninit c vmaid rgid size = .ok (none, c') ∧ Untouched c c'

/-- The only area has identifier zero and overlaps no other one. -/
theorem cannotComplete_iff {c : ProcMem} {vma : VmArea} (h : HeapArea c.mm vma) (vmaid : CInt)
    (incSz : Addr) : CannotComplete c vmaid incSz ↔
      ¬(vmaid = 0 ∧ pagesNeeded incSz ≤ c.mram.freeFpList.length) := by
  have hid : toCInt vma.vmId = 0 := by rw [h.vmId]; rfl
  have honly : ∀ {i : ℕ} {cur : VmArea}, [vma][i]? = some cur → i = 0 := by
    intro i cur hi
    rw [List.getElem?_singleton] at hi
    split at hi
    · assumption
    · cases hi
  unfold CannotComplete
  rw [h.single]
  constructor
  · rintro (hno | ⟨i, j, cur, vma', hi, _, hj, hne, _⟩ | hlt) ⟨rfl, hle⟩
    · exact hno vma List.mem_cons_self hid
    · exact hne ((honly hj).trans (honly hi).symm)
    · omega
  · intro hn
    by_cases hv : vmaid = 0
    · exact Or.inr (Or.inr (Nat.not_le.mp fun hle => hn ⟨hv, hle⟩))
    · refine Or.inl fun vma' hm => ?_
      rw [List.mem_singleton.mp hm, hid]
      exact Ne.symm hv

/-- A growth that completes leaves every page of the new range present. -/
theorem grownPresent {c : ProcMem} {vma : VmArea} (h : HeapArea c.mm vma) {vmaid : CInt}
    {incSz : Addr} (hn : ¬((0 : CInt).slt vmaid ∨ newBreak vma incSz = 0))
    (hfree : pagesNeeded incSz ≤ c.mram.freeFpList.length)
    (hram : c.mram.freeFpList.length < 2 ^ 31) :
    GrownPresent c (incVmaLimit c vmaid incSz).2 vmaid := by
  intro i cur cur' hv hm a hlo hhi
  have hs : ¬(0 : CInt).slt vmaid = true := fun hs => hn (Or.inl hs)
  rw [h.getVmaByNum_eq, if_neg hs] at hv
  cases hv
  rw [h.incVmaLimit_break, if_neg hn] at hm ⊢
  rw [(vmMapRam_regions _ _ _).1, List.getElem?_cons_zero] at hm
  cases hm
  have hbreak := newBreak_toNat vma incSz
  have ha := h.aligned
  rw [BitVec.le_def] at hlo
  change a < newBreak vma incSz at hhi
  rw [BitVec.lt_def, hbreak] at hhi
  have hmod := Nat.mod_le (vma.sbrk.toNat + pagesNeeded incSz * 4096) (2 ^ 64)
  have hmaps := grown_mapsPages c vma incSz (by omega) hram (newBreak vma incSz)
  exact hmaps.present (by omega) (by omega)

/-- `inc_vma_limit` is all-or-nothing if it refuses, and otherwise exactly if it can
complete. -/
theorem incAllOrNothing_iff {c : ProcMem} {vma : VmArea} (h : HeapArea c.mm vma)
    (hram : c.mram.freeFpList.length < 2 ^ 31) (vmaid : CInt) (incSz : Addr) :
    IncAllOrNothing c vmaid incSz ↔ (0 : CInt).slt vmaid ∨ newBreak vma incSz = 0 ∨
      (vmaid = 0 ∧ pagesNeeded incSz ≤ c.mram.freeFpList.length) := by
  by_cases hr : (0 : CInt).slt vmaid = true ∨ newBreak vma incSz = 0
  · have hinc := h.incVmaLimit_break vmaid incSz
    rw [if_pos hr] at hinc
    unfold IncAllOrNothing
    rw [hinc]
    have hneg : (-1 : Int) < 0 := by decide
    have hne : (-1 : Int) ≠ 0 := by decide
    exact ⟨fun _ => hr.imp_right Or.inl, fun _ => ⟨fun _ => ⟨hneg, Untouched.refl c⟩,
      fun h0 => absurd h0 hne⟩⟩
  · have hzero : (incVmaLimit c vmaid incSz).1 = 0 := by
      rw [h.incVmaLimit_break, if_neg hr]
    have hiff := cannotComplete_iff h vmaid incSz
    constructor
    · intro hall
      by_contra hn
      have hcannot : CannotComplete c vmaid incSz :=
        hiff.mpr fun hc => hn (Or.inr (Or.inr hc))
      exact absurd hzero (ne_of_lt (hall.1 hcannot).1)
    · intro hor
      have hcan : vmaid = 0 ∧ pagesNeeded incSz ≤ c.mram.freeFpList.length :=
        (hor.resolve_left fun hs => hr (Or.inl hs)).resolve_left fun hb => hr (Or.inr hb)
      exact ⟨fun hcannot => absurd hcan (hiff.mp hcannot),
        fun _ => grownPresent h hr hcan.2 hram⟩

/-- The search of `__alloc` touches nothing but free regions. -/
theorem untouched_afterWalk {c : ProcMem} {vma : VmArea} (h : HeapArea c.mm vma) (vmaid : CInt)
    (size : Addr) : Untouched c {c with mm := afterWalk c.mm vmaid size} := by
  refine ⟨?_, (afterWalk_same _ _ _).2, ?_, (afterWalk_same _ _ _).1.fifoPgn, rfl⟩
  · dsimp only
    rw [h.afterWalk_mmap, h.single]
    rfl
  · dsimp only
    unfold afterWalk
    split <;> exact ⟨rfl, rfl, rfl, rfl, rfl⟩

/-- `__alloc` is all-or-nothing if its search finds a region or its growth is refused,
and otherwise exactly if the growth can complete. -/
theorem allocAllOrNothing_iff {c : ProcMem} {vma : VmArea} (h : HeapArea c.mm vma)
    (vmaid rgid : CInt) (size : Addr) : AllocAllOrNothing uninit c vmaid rgid size ↔
      foundRegion c.mm vmaid size ≠ none ∨
      (¬(0 : CInt).slt vmaid ∧ (c.listed = false ∨ newBreak vma size = 0)) ∨
      (vmaid = 0 ∧ pagesNeeded size ≤ c.mram.freeFpList.length) := by
  have hiff := cannotComplete_iff h vmaid size
  constructor
  · intro hall
    by_contra hn
    obtain ⟨hf, hn⟩ := not_or.mp hn
    obtain ⟨hrefused, hcan⟩ := not_or.mp hn
    obtain ⟨c', ha, _⟩ := hall (not_not.mp hf) (hiff.mpr hcan)
    -- an area for the identifier exists, or `__alloc` would not have returned
    have hs : ¬(0 : CInt).slt vmaid = true := by
      intro hs
      unfold alloc at ha
      rw [h.getVmaByNum_eq, if_pos hs] at ha
      cases ha
    rw [alloc_eq (by rw [h.getVmaByNum_eq, if_neg hs]), not_not.mp hf] at ha
    cases hg : allocGrowth c vmaid size with
    | none =>
      rcases (h.allocGrowth_eq_none vmaid size).mp hg with hl | hs' | hb
      · exact hrefused ⟨hs, Or.inl hl⟩
      · exact hs hs'
      · exact hrefused ⟨hs, Or.inr hb⟩
    | some g =>
      rw [hg] at ha
      dsimp only at ha
      cases hk : symrgSlot rgid with
      | error e => rw [hk] at ha; cases ha
      | ok k => rw [hk] at ha; cases ha
  · rintro (hf | ⟨hs, hr⟩ | hcan) hnone hcannot
    · exact absurd hnone hf
    · have hg : allocGrowth c vmaid size = none :=
        (h.allocGrowth_eq_none vmaid size).mpr (hr.imp_right Or.inr)
      refine ⟨_, ?_, untouched_afterWalk h vmaid size⟩
      rw [alloc_eq (by rw [h.getVmaByNum_eq, if_neg hs]), hnone, hg]
    · exact absurd hcan (hiff.mp hcannot)

/-- In every reachable state, growing the heap of a process is all-or-nothing exactly
under these conditions. -/
theorem growth_all_or_nothing_iff [DecidableEq ι] {s : SharedMem ι}
    (h : Reachable SharedBoot (SharedStep uninit) s) (i : ι) (listed : Bool) :
    ∃ vma, (s.mm i).mmap = [vma] ∧
      (∀ vmaid incSz, IncAllOrNothing (s.view i listed) vmaid incSz ↔
        (0 : CInt).slt vmaid ∨ newBreak vma incSz = 0 ∨
          (vmaid = 0 ∧ pagesNeeded incSz ≤ s.mram.freeFpList.length)) ∧
      ∀ vmaid rgid size, AllocAllOrNothing uninit (s.view i listed) vmaid rgid size ↔
        foundRegion (s.mm i) vmaid size ≠ none ∨
        (¬(0 : CInt).slt vmaid ∧ (listed = false ∨ newBreak vma size = 0)) ∨
        (vmaid = 0 ∧ pagesNeeded size ≤ s.mram.freeFpList.length) := by
  obtain ⟨vma, hv⟩ := heapArea_of_reachable h i
  have hram := mram_free_length_of_reachable h
  have hview : HeapArea (s.view i listed).mm vma := hv
  exact ⟨vma, hv.single, fun vmaid incSz => incAllOrNothing_iff hview hram vmaid incSz,
    fun vmaid rgid size => allocAllOrNothing_iff hview vmaid rgid size⟩

/-! ## A growth that RAM cannot serve -/

theorem reachable_sharedStart (memramsz memswpsz : Addr) :
    Reachable SharedBoot (SharedStep uninit) (sharedStart memramsz memswpsz) :=
  ⟨_, [], sharedBoot_sharedStart _ _, .nil _⟩

/-- The conditions of a fresh process in a RAM of two frames. -/
theorem growth_all_or_nothing_iff_start : ∃ vma,
    ((sharedStart 8192 0).mm 0).mmap = [vma] ∧
      (∀ vmaid incSz, IncAllOrNothing ((sharedStart 8192 0).view 0 true) vmaid incSz ↔
        (0 : CInt).slt vmaid ∨ newBreak vma incSz = 0 ∨
          (vmaid = 0 ∧ pagesNeeded incSz ≤ (sharedStart 8192 0).mram.freeFpList.length)) ∧
      ∀ vmaid rgid size,
        AllocAllOrNothing (fun _ => 0) ((sharedStart 8192 0).view 0 true) vmaid rgid size ↔
        foundRegion ((sharedStart 8192 0).mm 0) vmaid size ≠ none ∨
        (¬(0 : CInt).slt vmaid ∧ (true = false ∨ newBreak vma size = 0)) ∨
        (vmaid = 0 ∧ pagesNeeded size ≤ (sharedStart 8192 0).mram.freeFpList.length) :=
  growth_all_or_nothing_iff (reachable_sharedStart 8192 0) 0 true

/-- Three pages are asked for and two frames are there: success is reported, and the
frames are gone. -/
theorem growth_not_all_or_nothing : ¬ ∀ (uninit : Addr → Byte) (s : SharedMem (Fin 2)),
    Reachable SharedBoot (SharedStep uninit) s → ∀ i listed vmaid rgid size,
      IncAllOrNothing (s.view i listed) vmaid size ∧
        AllocAllOrNothing uninit (s.view i listed) vmaid rgid size := by
  intro h
  have hinc := (h (fun _ => 0) _ (reachable_sharedStart 8192 0) 0 true 0 0 9000).1
  have hcannot : CannotComplete ((sharedStart 8192 0).view 0 true) 0 9000 :=
    Or.inr (Or.inr (by decide))
  have hneg := (hinc.1 hcannot).1
  have hzero : (incVmaLimit ((sharedStart 8192 0).view 0 true) 0 9000).1 = 0 := by decide
  rw [hzero] at hneg
  exact absurd hneg (by decide)

end OsSim.MemoryGrowth
