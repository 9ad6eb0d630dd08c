import OsSim.MemoryArea
import OsSim.RunSteps
import OsSim.SpanCover

/-!
# Live and free regions of a process

The regions of the symbol table and those of the free list are counted over
every byte of the heap. Reuse, splitting and release move counts between table
and list, growth adds bytes past the break, and so no byte is ever in two
regions. Sizes and breaks are those that fit an `int`.
-/

namespace OsSim.MemoryRegions

open MemoryWords MemoryDevice MemoryPageTable MemoryMapping MemoryPaging MemoryLibrary
open MemoryEffects MemoryInstruction MemoryArea RunSteps SpanCover

variable {uninit : Addr → Byte}

/-- The bytes of a region as a half-open span. -/
def span (rg : VmRg) : ℕ × ℕ := (rg.rgStart.toNat, rg.rgEnd.toNat)

/-- The bytes of a region as a set. -/
def regionBytes (rg : VmRg) : Set ℕ := Set.Ico rg.rgStart.toNat rg.rgEnd.toNat

/-- The regions of all symbols and all free regions. -/
def allRegions (mm : MmStruct) : List VmRg :=
  List.ofFn mm.symrgtbl ++ mm.mmap.flatMap VmArea.vmFreergList

/-- Well-formed regions under an aligned break, no two of them overlapping. -/
structure RegionsOk (mm : MmStruct) : Prop where
  /-- Some area exists. -/
  areas : mm.mmap ≠ []
  /-- Every area ends at its break, which is a multiple of the page size. -/
  breaks : ∀ vma ∈ mm.mmap, vma.sbrk = vma.vmEnd ∧ 4096 ∣ vma.sbrk.toNat
  /-- Every region lies in every area. -/
  within : ∀ vma ∈ mm.mmap, ∀ rg ∈ allRegions mm,
    vma.vmStart ≤ rg.rgStart ∧ rg.rgStart ≤ rg.rgEnd ∧ rg.rgEnd ≤ vma.sbrk
  /-- The regions are pairwise disjoint. -/
  disjoint : (allRegions mm).Pairwise fun r s => Disjoint (regionBytes r) (regionBytes s)

/-- What happens to the regions of one process. -/
inductive RegionOp
  /-- `__alloc`. -/
  | alloc (vmaid rgid : CInt) (size : Addr)
  /-- `__free`. -/
  | free (rgid : CInt)
  /-- The growth operation of the memory system call. -/
  | inc (vmaid incSz : Addr)
  /-- The devices change by other work. -/
  | others (mram activeMswp : MemphyStruct)

/-- One operation that does not run into undefined behaviour. -/
def RegionStep (uninit : Addr → Byte) (c : ProcMem) (op : RegionOp) (c' : ProcMem) : Prop :=
  match op with
  | .alloc vmaid rgid size => ∃ o, alloc uninit c vmaid rgid size = .ok (o, c')
  | .free rgid => ∃ n, free c rgid = .ok (n, c')
  | .inc vmaid incSz => c' = (syscall uninit c 17 ⟨toAddr sysmemIncOp, vmaid, incSz⟩).2.2
  | .others mram mswp => c' = {c with mram := mram, activeMswp := mswp}

/-- The size asked for fits an `int`. -/
def SizeFits : RegionOp → Prop
  | .alloc _ _ size => size.toNat < 2 ^ 31
  | .inc _ incSz => incSz.toNat < 2 ^ 31
  | _ => True

/-- Sizes and breaks fit the `int` variables of the allocator. -/
def OpFits (c : ProcMem) (op : RegionOp) : Prop :=
  (∀ vma ∈ c.mm.mmap, vma.sbrk.toNat < 2 ^ 31) ∧ SizeFits op

/-! ## The invariant -/

/-- A region is well formed and ends below the break. -/
def Within (rg : VmRg) (brk : Addr) : Prop :=
  rg.rgStart.toNat ≤ rg.rgEnd.toNat ∧ rg.rgEnd.toNat ≤ brk.toNat

/-- How often the symbol table covers a byte. -/
def tableCover (mm : MmStruct) (a : ℕ) : ℕ := cover (List.ofFn fun k => span (mm.symrgtbl k)) a

/-- How often a free list covers a byte. -/
def freeCover (freergs : List VmRg) (a : ℕ) : ℕ := cover (freergs.map span) a

/-- What every operation keeps, for the only area of the process. -/
structure RegionInv (mm : MmStruct) (vma : VmArea) : Prop where
  /-- The area is the only one. -/
  single : mm.mmap = [vma]
  /-- The area has identifier zero. -/
  vmId : vma.vmId = 0
  /-- The area starts at address zero. -/
  vmStart : vma.vmStart = 0
  /-- The area ends at its break. -/
  vmEnd : vma.vmEnd = vma.sbrk
  /-- The break is a multiple of the page size. -/
  aligned : 4096 ∣ vma.sbrk.toNat
  /-- Symbols lie below the break. -/
  table : ∀ k, Within (mm.symrgtbl k) vma.sbrk
  /-- Free regions lie below the break. -/
  free : ∀ rg ∈ vma.vmFreergList, Within rg vma.sbrk
  /-- No byte is in two regions. -/
  once : ∀ a, tableCover mm a + freeCover vma.vmFreergList a ≤ 1

/-- The invariant gives the property. -/
theorem RegionInv.regionsOk {mm : MmStruct} {vma : VmArea} (h : RegionInv mm vma) :
    RegionsOk mm := by
  have hall : allRegions mm = List.ofFn mm.symrgtbl ++ vma.vmFreergList := by
    unfold allRegions
    rw [h.single, List.flatMap_singleton]
  have hwithin : ∀ rg ∈ allRegions mm, Within rg vma.sbrk := by
    intro rg hrg
    rw [hall] at hrg
    rcases List.mem_append.mp hrg with hrg | hrg
    · obtain ⟨k, rfl⟩ := List.mem_ofFn.mp hrg
      exact h.table k
    · exact h.free rg hrg
  refine ⟨?_, ?_, ?_, ?_⟩
  · rw [h.single]
    exact List.cons_ne_nil _ _
  · intro v hv
    rw [h.single] at hv
    obtain rfl := List.mem_singleton.mp hv
    exact ⟨h.vmEnd.symm, h.aligned⟩
  · intro v hv rg hrg
    rw [h.single] at hv
    obtain rfl := List.mem_singleton.mp hv
    obtain ⟨h1, h2⟩ := hwithin rg hrg
    refine ⟨?_, h1, h2⟩
    rw [h.vmStart]
    exact Nat.zero_le _
  · have honce : ∀ a, cover ((allRegions mm).map span) a ≤ 1 := by
      intro a
      rw [hall, List.map_append, cover_append, List.map_ofFn]
      exact h.once a
    have hd := (cover_le_one_iff _).mp honce
    rw [List.pairwise_map] at hd
    exact hd

/-- Paging leaves the invariant alone. -/
theorem RegionInv.congr {mm mm' : MmStruct} {vma : VmArea} (h : RegionInv mm vma)
    (hm : mm'.mmap = mm.mmap) (hs : mm'.symrgtbl = mm.symrgtbl) : RegionInv mm' vma := by
  refine ⟨hm.trans h.single, h.vmId, h.vmStart, h.vmEnd, h.aligned, ?_, h.free, ?_⟩
  · rw [hs]
    exact h.table
  · unfold tableCover
    rw [hs]
    exact h.once

/-- The one area of a process is its heap. -/
theorem RegionInv.heapArea {mm : MmStruct} {vma : VmArea} (h : RegionInv mm vma) :
    HeapArea mm vma :=
  ⟨h.single, h.vmId, h.vmStart, h.vmEnd, h.aligned⟩

/-- The area every search finds. -/
theorem RegionInv.onlyArea {mm : MmStruct} {vma cur : VmArea} (h : RegionInv mm vma)
    {vmaid : CInt} {i : ℕ} (hv : getVmaByNum mm vmaid = some (i, cur)) : i = 0 ∧ cur = vma := by
  rw [h.heapArea.getVmaByNum_eq] at hv
  split at hv <;> cases hv
  exact ⟨rfl, rfl⟩

/-- Replacing the region of a symbol trades its bytes. -/
theorem tableCover_setSymrg (mm : MmStruct) (k : Fin 30) (rg : VmRg) (a : ℕ) :
    tableCover (mm.setSymrg k rg) a + hit (span (mm.symrgtbl k)) a =
      tableCover mm a + hit (span rg) a := by
  have hu : (fun j => span ((mm.setSymrg k rg).symrgtbl j)) =
      Function.update (fun j => span (mm.symrgtbl j)) k (span rg) := by
    funext j
    by_cases hj : j = k
    · subst hj
      rw [Function.update_self]
      dsimp only [MmStruct.setSymrg]
      rw [Function.update_self]
    · rw [Function.update_of_ne hj]
      dsimp only [MmStruct.setSymrg]
      rw [Function.update_of_ne hj]
  unfold tableCover
  rw [hu]
  exact cover_ofFn_update _ k (span rg) a

/-- The other symbols stay where they are. -/
theorem within_setSymrg {mm : MmStruct} {k : Fin 30} {rg : VmRg} {brk : Addr}
    (h : ∀ j, Within (mm.symrgtbl j) brk) (hrg : Within rg brk) :
    ∀ j, Within ((mm.setSymrg k rg).symrgtbl j) brk := by
  intro j
  dsimp only [MmStruct.setSymrg]
  by_cases hj : j = k
  · rw [hj, Function.update_self]
    exact hrg
  · rw [Function.update_of_ne hj]
    exact h j

/-! ## The free list -/

/-- A nonnegative `int` keeps its value as an address. -/
theorem toAddr_toNat {n : CInt} (h : n.toNat < 2 ^ 31) : (toAddr n).toNat = n.toNat := by
  unfold toAddr
  rw [BitVec.signExtend_eq_setWidth_of_msb_false (BitVec.msb_eq_false_iff_two_mul_lt.mpr (by omega)),
    BitVec.toNat_setWidth]
  omega

/-- A request that fits inside the list is cut out of it: table and list together
cover the same bytes as before. -/
structure CutOut (l : List VmRg) (brk : Addr) (size : CInt) (rg : VmRg) (l' : List VmRg) : Prop where
  /-- The region has the requested size. -/
  size : rg.rgEnd.toNat = rg.rgStart.toNat + size.toNat
  /-- The region lies below the break. -/
  region : Within rg brk
  /-- The remaining free regions lie below the break. -/
  rest : ∀ r ∈ l', Within r brk
  /-- No byte is gained or lost. -/
  bytes : ∀ a, freeCover l' a + hit (span rg) a = freeCover l a

theorem freeCover_cons (rg : VmRg) (l : List VmRg) (a : ℕ) :
    freeCover (rg :: l) a = hit (span rg) a + freeCover l a := by
  unfold freeCover
  rw [List.map_cons, cover_cons]

/-- A request that fits the first node with room to spare cuts off its front. -/
theorem CutOut.front {rgit : VmRg} {next : List VmRg} {brk mid : Addr} {size : CInt}
    (hl : ∀ rg ∈ rgit :: next, Within rg brk) (hmid : mid.toNat = rgit.rgStart.toNat + size.toNat)
    (hlt : mid.toNat ≤ rgit.rgEnd.toNat) :
    CutOut (rgit :: next) brk size ⟨rgit.rgStart, mid⟩ (⟨mid, rgit.rgEnd⟩ :: next) := by
  obtain ⟨_, heb⟩ := hl rgit List.mem_cons_self
  refine ⟨hmid, ⟨by dsimp only; omega, by dsimp only; omega⟩, fun r hr => ?_, fun a => ?_⟩
  · rcases List.mem_cons.mp hr with rfl | hr
    · exact ⟨hlt, heb⟩
    · exact hl r (List.mem_cons_of_mem _ hr)
  · have hcut := @hit_split ℕ _ rgit.rgStart.toNat mid.toNat rgit.rgEnd.toNat (by omega) hlt a
    rw [freeCover_cons, freeCover_cons]
    dsimp only [span] at hcut ⊢
    omega

/-- A request that fits the first node exactly takes it whole. -/
theorem CutOut.whole {rgit rg : VmRg} {next l' : List VmRg} {brk : Addr} {size : CInt}
    (hl : ∀ r ∈ rgit :: next, Within r brk) (hspan : span rg = span rgit)
    (hsize : rgit.rgEnd.toNat = rgit.rgStart.toNat + size.toNat)
    (hrest : ∀ r ∈ l', Within r brk) (hcover : ∀ a, freeCover l' a = freeCover next a) :
    CutOut (rgit :: next) brk size rg l' := by
  obtain ⟨hstart, hend⟩ := Prod.mk.inj hspan
  obtain ⟨hse, heb⟩ := hl rgit List.mem_cons_self
  refine ⟨by rw [hstart, hend, hsize], ⟨by omega, by omega⟩, hrest, fun a => ?_⟩
  rw [freeCover_cons, hcover, hspan]
  omega

/-- A node that is passed over stays. -/
theorem CutOut.cons {l l' : List VmRg} {brk : Addr} {size : CInt} {rg r : VmRg}
    (h : CutOut l brk size rg l') (hr : Within r brk) :
    CutOut (r :: l) brk size rg (r :: l') := by
  refine ⟨h.size, h.region, fun x hx => ?_, fun a => ?_⟩
  · rcases List.mem_cons.mp hx with rfl | hx
    · exact hr
    · exact h.rest x hx
  · have hb := h.bytes a
    rw [freeCover_cons, freeCover_cons]
    omega

/-- The list walk finds nothing and changes nothing, or cuts the region out. -/
theorem freergWalk_spec {size : CInt} {l : List VmRg} {brk : Addr} (hs : size.toNat < 2 ^ 31)
    (hb : brk.toNat < 2 ^ 63) (hl : ∀ rg ∈ l, Within rg brk) :
    freergWalk size l = (⟨-1, -1⟩, l) ∨
      CutOut l brk size (freergWalk size l).1 (freergWalk size l).2 := by
  induction l with
  | nil => exact Or.inl rfl
  | cons rgit next ih =>
    obtain ⟨hse, heb⟩ := hl rgit List.mem_cons_self
    have hnext : ∀ rg ∈ next, Within rg brk := fun rg h => hl rg (List.mem_cons_of_mem _ h)
    have hsum : (rgit.rgStart + toAddr size).toNat = rgit.rgStart.toNat + size.toNat := by
      rw [BitVec.toNat_add, toAddr_toNat hs]
      omega
    rw [freergWalk]
    by_cases hfit : rgit.rgStart + toAddr size ≤ rgit.rgEnd
    · rw [if_pos hfit]
      dsimp only
      right
      by_cases hlt : rgit.rgStart + toAddr size < rgit.rgEnd
      · rw [if_pos hlt]
        exact .front hl hsum (BitVec.le_def.mp hfit)
      · rw [if_neg hlt]
        rw [BitVec.le_def, hsum] at hfit
        rw [BitVec.lt_def, hsum] at hlt
        have hsize : rgit.rgEnd.toNat = rgit.rgStart.toNat + size.toNat := by omega
        have hspan : span ⟨rgit.rgStart, rgit.rgStart + toAddr size⟩ = span rgit := by
          dsimp only [span]
          rw [hsum, hsize]
        cases next with
        | nil =>
          -- the last node stays as an empty one
          refine .whole hl hspan hsize (fun r hr => ?_) fun a => ?_
          · obtain rfl := List.mem_singleton.mp hr
            exact ⟨Nat.le_refl _, heb⟩
          · have hempty : hit (span ⟨rgit.rgEnd, rgit.rgEnd⟩) a = 0 :=
              hit_eq_zero_of_le (Nat.le_refl _) a
            rw [freeCover_cons, hempty, Nat.zero_add]
        | cons nextrg rest =>
          -- the node is overwritten by its successor
          exact .whole hl hspan hsize hnext fun _ => rfl
    · rw [if_neg hfit]
      dsimp only
      rcases ih hnext with he | hc
      · rw [he]
        exact Or.inl rfl
      · exact Or.inr (hc.cons ⟨hse, heb⟩)

/-- `get_free_vmrg_area` finds nothing and changes nothing, or cuts a region out. -/
theorem getFreeVmrgArea_spec {size : CInt} {l : List VmRg} {brk : Addr} (hs : size.toNat < 2 ^ 31)
    (hb : brk.toNat < 2 ^ 63) (hl : ∀ rg ∈ l, Within rg brk) :
    getFreeVmrgArea l size = (none, l) ∨
      ∃ rg, (getFreeVmrgArea l size).1 = some rg ∧
        CutOut l brk size rg (getFreeVmrgArea l size).2 := by
  cases l with
  | nil => exact Or.inl rfl
  | cons rgit next =>
    dsimp only [getFreeVmrgArea]
    rcases freergWalk_spec hs hb hl with he | hc
    · rw [he]
      exact Or.inl rfl
    · have hne : (freergWalk size (rgit :: next)).1.rgStart ≠ -1 := by
        intro he
        have hv := hc.region
        unfold Within at hv
        rw [he] at hv
        have hm : (-1 : Addr).toNat = 2 ^ 64 - 1 := by decide
        omega
      rw [if_neg hne]
      exact Or.inr ⟨_, rfl, hc⟩

/-! ## Operations -/

/-- Storing a shorter or equal free list. -/
theorem RegionInv.setFree {mm : MmStruct} {vma : VmArea} (h : RegionInv mm vma)
    {l : List VmRg} {k : Fin 30} {rg : VmRg} (hl : ∀ r ∈ l, Within r vma.sbrk)
    (hrg : Within rg vma.sbrk)
    (hc : ∀ a, freeCover l a + hit (span rg) a ≤
      freeCover vma.vmFreergList a + hit (span (mm.symrgtbl k)) a) :
    RegionInv ({mm with mmap := [{vma with vmFreergList := l}]}.setSymrg k rg)
      {vma with vmFreergList := l} := by
  refine ⟨rfl, h.vmId, h.vmStart, h.vmEnd, h.aligned, within_setSymrg h.table hrg, hl, fun a => ?_⟩
  have ht := tableCover_setSymrg {mm with mmap := [{vma with vmFreergList := l}]} k rg a
  have ho := h.once a
  have hca := hc a
  change tableCover _ a + freeCover l a ≤ 1
  change _ + hit (span (mm.symrgtbl k)) a = tableCover mm a + _ at ht
  omega

/-- What the search of `__alloc` finds and leaves: nothing and the memory manager as it
was, or a region that has been cut out of the free list. -/
theorem RegionInv.walk_cases {mm : MmStruct} {vma : VmArea} (h : RegionInv mm vma)
    (vmaid : CInt) {size : Addr} (hs : (toCInt size).toNat < 2 ^ 31)
    (hb : vma.sbrk.toNat < 2 ^ 63) :
    (foundRegion mm vmaid size = none ∧ afterWalk mm vmaid size = mm) ∨
    ∃ rg l, foundRegion mm vmaid size = some rg ∧
      afterWalk mm vmaid size = {mm with mmap := [{vma with vmFreergList := l}]} ∧
      CutOut vma.vmFreergList vma.sbrk (toCInt size) rg l := by
  unfold afterWalk foundRegion
  cases hv : getVmaByNum mm vmaid with
  | none => exact Or.inl ⟨rfl, rfl⟩
  | some r =>
    obtain ⟨i, cur⟩ := r
    obtain ⟨rfl, rfl⟩ := h.onlyArea hv
    dsimp only
    rcases getFreeVmrgArea_spec hs hb h.free with he | ⟨rg, hrg, hc⟩
    · rw [he]
      exact Or.inl ⟨rfl, setVma_getVmaByNum hv⟩
    · refine Or.inr ⟨rg, _, hrg, ?_, hc⟩
      unfold MmStruct.setVma
      rw [h.single, List.set_cons_zero]

/-- Handing the region found to a symbol keeps the invariant. -/
theorem RegionInv.handOut {mm : MmStruct} {vma : VmArea} (h : RegionInv mm vma) {size : CInt}
    {rg : VmRg} {l : List VmRg} (hc : CutOut vma.vmFreergList vma.sbrk size rg l) (k : Fin 30) :
    RegionInv ({mm with mmap := [{vma with vmFreergList := l}]}.setSymrg k rg)
      {vma with vmFreergList := l} :=
  h.setFree hc.rest hc.region fun a => (hc.bytes a).le.trans (Nat.le_add_right _ _)

/-- `__free` keeps the invariant and moves bytes from the table to the free list. -/
theorem RegionInv.released {c c' : ProcMem} {vma : VmArea} {rgid : CInt} {n : Int}
    (h : RegionInv c.mm vma) (hf : MemoryLibrary.free c rgid = .ok (n, c')) :
    ∃ vma', RegionInv c'.mm vma' ∧ vma'.sbrk = vma.sbrk ∧
      ∀ a, tableCover c'.mm a + freeCover vma'.vmFreergList a =
        tableCover c.mm a + freeCover vma.vmFreergList a := by
  obtain ⟨_, rfl⟩ | ⟨k, vma0, next, _, hm, _, rfl⟩ := free_cases hf
  · exact ⟨vma, h, rfl, fun _ => rfl⟩
  · rw [h.single] at hm
    obtain ⟨rfl, rfl⟩ := List.cons.inj hm
    dsimp only
    have hzero : Within ⟨0, 0⟩ vma.sbrk := ⟨Nat.le_refl _, Nat.zero_le _⟩
    have hempty : ∀ a, hit (span ⟨0, 0⟩) a = 0 := fun a => hit_eq_zero_of_le (Nat.le_refl _) a
    split
    · next hle =>
      refine ⟨vma, ?_, rfl, fun a => ?_⟩
      · have hk := h.setFree (k := k) h.free hzero (fun a => by rw [hempty]; omega)
        exact hk.congr h.single rfl
      · have hold : hit (span (c.mm.symrgtbl k)) a = 0 := hit_eq_zero_of_le hle a
        have ht := tableCover_setSymrg c.mm k ⟨0, 0⟩ a
        rw [hempty] at ht
        omega
    · refine ⟨_, h.setFree ?_ hzero fun a => ?_, rfl, fun a => ?_⟩
      · intro r hr
        rcases List.mem_cons.mp hr with rfl | hr
        · exact h.table k
        · exact h.free r hr
      · rw [freeCover_cons, hempty]
        omega
      · have ht := tableCover_setSymrg c.mm k ⟨0, 0⟩ a
        rw [hempty] at ht
        rw [freeCover_cons]
        change tableCover (c.mm.setSymrg k ⟨0, 0⟩) a + _ = _
        omega

/-- A zero increment aside, alignment rounds up to the next multiple of the page
size. -/
theorem paging64PageAlignsz_bounds {sz : Addr} (h : sz.toNat < 2 ^ 63) :
    4096 ∣ (paging64PageAlignsz sz).toNat ∧ sz.toNat ≤ (paging64PageAlignsz sz).toNat ∧
      (paging64PageAlignsz sz).toNat < sz.toNat + 4096 := by
  rw [paging64PageAlignsz_toNat, pagesNeeded]
  omega

/-- Where a growth goes: the break moves up by the aligned size. -/
theorem RegionInv.grown {mm : MmStruct} {vma : VmArea} (h : RegionInv mm vma) {vmaid : CInt}
    {incSz : Addr} {g : Growth} (hg : growthOf mm vmaid incSz = some g) :
    g.start = vma.sbrk ∧ g.pages = incNumPage (paging64PageAlignsz incSz) ∧
      g.mm = {mm with mmap := [{vma with
        vmEnd := vma.sbrk + paging64PageAlignsz incSz
        sbrk := vma.sbrk + paging64PageAlignsz incSz}]} := by
  rw [h.heapArea.growthOf_eq] at hg
  split at hg <;> cases hg
  exact ⟨rfl, rfl, rfl⟩

/-- Raising the break keeps the invariant. -/
theorem RegionInv.raise {mm : MmStruct} {vma : VmArea} (h : RegionInv mm vma) {brk : Addr}
    (hle : vma.sbrk.toNat ≤ brk.toNat) (ha : 4096 ∣ brk.toNat) :
    RegionInv {mm with mmap := [{vma with vmEnd := brk, sbrk := brk}]}
      {vma with vmEnd := brk, sbrk := brk} :=
  ⟨rfl, h.vmId, h.vmStart, rfl, ha, fun k => ⟨(h.table k).1, (h.table k).2.trans hle⟩,
    fun rg hr => ⟨(h.free rg hr).1, (h.free rg hr).2.trans hle⟩, h.once⟩

/-- A symbol whose new region starts at the old break overlaps nothing. -/
theorem RegionInv.enter {mm : MmStruct} {vma : VmArea} (h : RegionInv mm vma) {brk : Addr}
    (hle : vma.sbrk.toNat ≤ brk.toNat) (ha : 4096 ∣ brk.toNat) (k : Fin 30) {rg : VmRg}
    (hs : rg.rgStart = vma.sbrk) (hw : Within rg brk) :
    RegionInv ({mm with mmap := [{vma with vmEnd := brk, sbrk := brk}]}.setSymrg k rg)
      {vma with vmEnd := brk, sbrk := brk} := by
  have hr := h.raise hle ha
  refine ⟨rfl, hr.vmId, hr.vmStart, rfl, ha, within_setSymrg hr.table hw, hr.free, fun a => ?_⟩
  have ht := tableCover_setSymrg {mm with mmap := [{vma with vmEnd := brk, sbrk := brk}]} k rg a
  have ho := h.once a
  change _ + _ = tableCover mm a + _ at ht
  change _ + freeCover vma.vmFreergList a ≤ 1
  by_cases hlt : a < vma.sbrk.toNat
  · -- below the old break the new region has no byte
    have h0 : hit (span rg) a = 0 := by
      have hn : ¬0 < hit (span rg) a := fun hp => by
        have hmem := (hit_pos.mp hp).1
        unfold span at hmem
        rw [hs] at hmem
        exact absurd hmem (Nat.not_le.mpr hlt)
      omega
    omega
  · -- past it nothing else has one
    have htable : tableCover mm a = 0 := by
      refine cover_eq_zero_of_end_le fun s hmem => ?_
      obtain ⟨j, rfl⟩ := List.mem_ofFn.mp hmem
      exact (h.table j).2.trans (Nat.not_lt.mp hlt)
    have hfree : freeCover vma.vmFreergList a = 0 := by
      refine cover_eq_zero_of_end_le fun s hmem => ?_
      obtain ⟨r, hr', rfl⟩ := List.mem_map.mp hmem
      exact (h.free r hr').2.trans (Nat.not_lt.mp hlt)
    have h1 := hit_le_one (span rg) a
    omega

/-- A small break survives the passage through the `int` of `__alloc`. -/
theorem toAddr_toCInt {a : Addr} (h : a.toNat < 2 ^ 31) : toAddr (toCInt a) = a := by
  have hv : (toCInt a).toNat = a.toNat := by
    unfold toCInt
    rw [BitVec.toNat_setWidth]
    omega
  apply BitVec.eq_of_toNat_eq
  rw [toAddr_toNat (by omega), hv]

/-- The new break of a growth, and that the requested bytes lie below it. -/
theorem raised_toNat {brk size : Addr} (hb : brk.toNat < 2 ^ 31) (hs : size.toNat < 2 ^ 31)
    (ha : 4096 ∣ brk.toNat) :
    (brk + paging64PageAlignsz size).toNat = brk.toNat + (paging64PageAlignsz size).toNat ∧
      4096 ∣ (brk + paging64PageAlignsz size).toNat ∧
      brk.toNat + size.toNat ≤ (brk + paging64PageAlignsz size).toNat := by
  obtain ⟨hd, hle, hlt⟩ := paging64PageAlignsz_bounds (show size.toNat < 2 ^ 63 by omega)
  have hv : (brk + paging64PageAlignsz size).toNat =
      brk.toNat + (paging64PageAlignsz size).toNat := by
    rw [BitVec.toNat_add]
    omega
  rw [hv]
  exact ⟨rfl, Nat.dvd_add ha hd, by omega⟩

/-- What `__alloc` does to areas and symbols: nothing; hand out a region of the free
list; or raise the break and hand out the bytes behind the old one. -/
theorem RegionInv.alloc_outcome {c c' : ProcMem} {vma : VmArea} {vmaid rgid : CInt} {size : Addr}
    {o : Option Addr} (h : RegionInv c.mm vma) (hb : vma.sbrk.toNat < 2 ^ 31)
    (hs : (toCInt size).toNat < 2 ^ 31)
    (hgrow : foundRegion c.mm vmaid size = none → size.toNat < 2 ^ 31)
    (ha : alloc uninit c vmaid rgid size = .ok (o, c')) :
    (o = none ∧ c'.mm = c.mm) ∨
    (∃ rg l k, o = some rg.rgStart ∧ symrgSlot rgid = .ok k ∧
      CutOut vma.vmFreergList vma.sbrk (toCInt size) rg l ∧
      c'.mm = {c.mm with mmap := [{vma with vmFreergList := l}]}.setSymrg k rg) ∨
    (∃ brk k, o = some vma.sbrk ∧ symrgSlot rgid = .ok k ∧ 4096 ∣ brk.toNat ∧
      (vma.sbrk + size).toNat = vma.sbrk.toNat + size.toNat ∧
      vma.sbrk.toNat + size.toNat ≤ brk.toNat ∧
      c'.mm.mmap = [{vma with vmEnd := brk, sbrk := brk}] ∧
      c'.mm.symrgtbl = Function.update c.mm.symrgtbl k ⟨vma.sbrk, vma.sbrk + size⟩) := by
  have hwalk := h.walk_cases vmaid hs (show vma.sbrk.toNat < 2 ^ 63 by omega)
  obtain ⟨rg, k, hf, hk, rfl, rfl⟩ | ⟨hf, _, rfl, rfl⟩ |
    ⟨i, cur, g, k, hf, _, hv, hg, hk, rfl, rfl⟩ := alloc_cases ha
  · obtain ⟨hn, _⟩ | ⟨rg', l, hf', hw, hc⟩ := hwalk
    · rw [hn] at hf
      cases hf
    · cases hf.symm.trans hf'
      exact Or.inr (Or.inl ⟨rg, l, k, rfl, hk, hc, congrArg (MmStruct.setSymrg · k rg) hw⟩)
  · obtain ⟨_, hw⟩ | ⟨_, _, hf', _⟩ := hwalk
    · exact Or.inl ⟨rfl, hw⟩
    · rw [hf'] at hf
      cases hf
  · obtain ⟨_, hw⟩ | ⟨_, _, hf', _⟩ := hwalk
    · obtain ⟨rfl, rfl⟩ := h.onlyArea hv
      rw [hw] at hg
      obtain ⟨_, _, hgm⟩ := h.grown hg
      obtain ⟨hm, hsym⟩ := vmMapRam_regions {c with mm := g.mm} g.start g.pages
      have hsz := hgrow hf
      obtain ⟨hbrk, hdvd, hle⟩ := raised_toNat hb hsz h.aligned
      have hend : (cur.sbrk + size).toNat = cur.sbrk.toNat + size.toNat := by
        rw [BitVec.toNat_add]
        omega
      refine Or.inr (Or.inr ⟨_, k, congrArg some (toAddr_toCInt hb), hk, hdvd, hend, hle, ?_, ?_⟩)
      · dsimp only
        rw [MmStruct.setSymrg_mmap, hm, hgm]
      · dsimp only [MmStruct.setSymrg]
        rw [hsym, hgm, toAddr_toCInt hb]
    · rw [hf'] at hf
      cases hf

/-- `__alloc` keeps the invariant. -/
theorem RegionInv.allocated {c c' : ProcMem} {vma : VmArea} {vmaid rgid : CInt} {size : Addr}
    {o : Option Addr} (h : RegionInv c.mm vma) (hb : vma.sbrk.toNat < 2 ^ 31)
    (hs : (toCInt size).toNat < 2 ^ 31)
    (hgrow : foundRegion c.mm vmaid size = none → size.toNat < 2 ^ 31)
    (ha : alloc uninit c vmaid rgid size = .ok (o, c')) : ∃ vma', RegionInv c'.mm vma' := by
  obtain ⟨_, hm⟩ | ⟨rg, l, k, _, _, hc, hm⟩ | ⟨brk, k, _, _, hdvd, hend, hle, hm, hsym⟩ :=
    h.alloc_outcome hb hs hgrow ha
  · rw [hm]
    exact ⟨vma, h⟩
  · rw [hm]
    exact ⟨_, h.handOut hc k⟩
  · have hwithin : Within ⟨vma.sbrk, vma.sbrk + size⟩ brk :=
      ⟨by dsimp only; omega, by dsimp only; omega⟩
    exact ⟨_, (h.enter (by omega) hdvd k rfl hwithin).congr hm hsym⟩

/-- The growth operation keeps the invariant. -/
theorem RegionInv.increased {c : ProcMem} {vma : VmArea} {a2 incSz : Addr}
    (h : RegionInv c.mm vma) (hb : vma.sbrk.toNat < 2 ^ 31) (hs : incSz.toNat < 2 ^ 31) :
    ∃ vma', RegionInv (syscall uninit c 17 ⟨toAddr sysmemIncOp, a2, incSz⟩).2.2.mm vma' := by
  rw [(syscall_inc uninit c a2 incSz).2, incVmaLimit_eq]
  split
  · cases hg : growthOf c.mm (toCInt a2) incSz with
    | none => exact ⟨vma, h⟩
    | some g =>
      obtain ⟨_, _, hgm⟩ := h.grown hg
      obtain ⟨hm, hsym⟩ := vmMapRam_regions {c with mm := g.mm} g.start g.pages
      obtain ⟨hbrk, hdvd, _⟩ := raised_toNat hb hs h.aligned
      refine ⟨_, (h.raise (by omega) hdvd).congr (hm.trans ?_) (hsym.trans ?_)⟩
      · dsimp only
        rw [hgm]
      · dsimp only
        rw [hgm]
  · exact ⟨vma, h⟩

/-- One operation keeps the invariant. -/
theorem regionInv_step {c c' : ProcMem} {op : RegionOp} (hI : ∃ vma, RegionInv c.mm vma)
    (hfit : OpFits c op) (h : RegionStep uninit c op c') : ∃ vma, RegionInv c'.mm vma := by
  obtain ⟨vma, hI⟩ := hI
  obtain ⟨hbrk, hsize⟩ := hfit
  have hb : vma.sbrk.toNat < 2 ^ 31 := hbrk vma (by rw [hI.single]; exact List.mem_cons_self)
  cases op with
  | alloc vmaid rgid size =>
    obtain ⟨o, ha⟩ := h
    have hs : (toCInt size).toNat < 2 ^ 31 := by
      unfold toCInt
      rw [BitVec.toNat_setWidth]
      exact (Nat.mod_le _ _).trans_lt hsize
    exact hI.allocated hb hs (fun _ => hsize) ha
  | free rgid =>
    obtain ⟨n, hf⟩ := h
    obtain ⟨vma', h', _⟩ := hI.released hf
    exact ⟨vma', h'⟩
  | inc vmaid incSz =>
    cases h
    exact hI.increased hb hsize
  | others mram mswp =>
    cases h
    exact ⟨vma, hI⟩

/-- The memory manager that `init_mm` builds. -/
theorem regionInv_initMm : RegionInv initMm ⟨0, 0, 0, 0, [⟨0, 0⟩]⟩ := by
  refine ⟨rfl, rfl, rfl, rfl, ⟨0, rfl⟩, fun k => ⟨Nat.le_refl _, Nat.le_refl _⟩, ?_, fun a => ?_⟩
  · intro rg hr
    obtain rfl := List.mem_singleton.mp hr
    exact ⟨Nat.le_refl _, Nat.le_refl _⟩
  · have hempty : hit (span ⟨0, 0⟩) a = 0 := hit_eq_zero_of_le (Nat.le_refl _) a
    have ht : tableCover initMm a = 0 := by
      refine cover_eq_zero_of_end_le fun s hs => ?_
      obtain ⟨k, rfl⟩ := List.mem_ofFn.mp hs
      exact Nat.zero_le a
    rw [ht, freeCover_cons, hempty]
    exact Nat.zero_le 1

/-- After any operations whose sizes and breaks fit an `int`, all regions of the
process are well formed below the break and pairwise disjoint. -/
theorem regions_disjoint {c c' : ProcMem} {ops : List RegionOp} (hinit : c.mm = initMm)
    (h : Run (Guarded OpFits (RegionStep uninit)) c ops c') : RegionsOk c'.mm := by
  have hI := h.invariant (fun c => ∃ vma, RegionInv c.mm vma)
    (fun _ _ _ hI hstep => regionInv_step hI hstep.1 hstep.2)
    ⟨_, hinit ▸ regionInv_initMm⟩
  obtain ⟨vma, hvma⟩ := hI
  exact hvma.regionsOk

/-! ## A run of the allocator -/

/-- The memory after an operation, computed. -/
def regionNext (uninit : Addr → Byte) (c : ProcMem) : RegionOp → Option ProcMem
  | .alloc vmaid rgid size => (alloc uninit c vmaid rgid size).toOption.map Prod.snd
  | .free rgid => (free c rgid).toOption.map Prod.snd
  | .inc vmaid incSz => some (syscall uninit c 17 ⟨toAddr sysmemIncOp, vmaid, incSz⟩).2.2
  | .others mram mswp => some {c with mram := mram, activeMswp := mswp}

theorem regionStep_of_regionNext (uninit : Addr → Byte) (c : ProcMem) (op : RegionOp)
    (c' : ProcMem) (h : regionNext uninit c op = some c') : RegionStep uninit c op c' := by
  cases op with
  | alloc vmaid rgid size => exact exists_ok_of_map_snd h
  | free rgid => exact exists_ok_of_map_snd h
  | inc vmaid incSz => exact (Option.some.inj h).symm
  | others mram mswp => exact (Option.some.inj h).symm

instance (op : RegionOp) : Decidable (SizeFits op) :=
  match op with
  | .alloc _ _ _ => Nat.decLt _ _
  | .inc _ _ => Nat.decLt _ _
  | .free _ => isTrue trivial
  | .others _ _ => isTrue trivial

instance (c : ProcMem) (op : RegionOp) : Decidable (OpFits c op) :=
  inferInstanceAs (Decidable (_ ∧ _))

/-- Allocations, a release, a reuse of the released region, a growth, a second
allocation of a live symbol and a release of an empty one. -/
def reusePattern : List RegionOp :=
  [.alloc 0 0 300, .alloc 0 1 100, .free 0, .alloc 0 2 100, .inc 0 5000, .alloc 0 1 20, .free 7]

/-- The regions after `reusePattern`, from the memory of a fresh process. -/
theorem regions_disjoint_reusePattern : ∃ c,
    Run (Guarded OpFits (RegionStep fun _ => 0)) (bootMem 65536 0) reusePattern c ∧
      (c.mm.symrgtbl 1, c.mm.symrgtbl 2, c.mm.mmap.map VmArea.sbrk) =
        (⟨100, 120⟩, ⟨0, 100⟩, [16384]) ∧ RegionsOk c.mm := by
  obtain ⟨c, hrun, hf⟩ := exists_run_of_map OpFits (regionStep_of_regionNext fun _ => 0)
    (bootMem 65536 0) reusePattern
    (fun c => (c.mm.symrgtbl 1, c.mm.symrgtbl 2, c.mm.mmap.map VmArea.sbrk))
    (⟨100, 120⟩, ⟨0, 100⟩, [16384]) rfl
  exact ⟨c, hrun, hf, regions_disjoint rfl hrun⟩

end OsSim.MemoryRegions
