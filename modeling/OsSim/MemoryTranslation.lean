import OsSim.MemoryBytes

/-!
# Which bytes and entries are kept apart

The offset mask keeps eight of the twelve bits of an in-page offset, and the
directories of all levels are flat, so that nine of the forty-five bits of a
page number select an entry. Both translations are injective exactly as far as
these bits go.
-/

namespace OsSim.MemoryTranslation

open MemoryWords MemoryDevice MemoryPageTable MemoryMapping MemoryPaging MemoryEffects
open MemoryInstruction MemoryBytes

variable {uninit : Addr → Byte}

/-! ## Bytes of a process -/

/-- The physical address that `pg_getval` and `pg_setval` hand to the system call;
`none` when the page cannot be had. -/
def translate (uninit : Addr → Byte) (c : ProcMem) (addr : Addr) : Option Addr :=
  (pgGetpage uninit c (addrPage addr)).1.map fun fpn => byteAddr fpn addr

/-- Different entries of resident pages name different frames. -/
def FramesDistinct (mm : MmStruct) : Prop :=
  ∀ i j, Resident (mm.entry i) → Resident (mm.entry j) →
    entryFrame (mm.entry i) = entryFrame (mm.entry j) → i = j

/-- A physical address lies in the frame its page's entry names, at the offset of the
byte in its page. -/
def AtOffset (mm : MmStruct) (addr x : Addr) : Prop :=
  x.toNat = entryFrame (mm.entry (pageIndex addr)) * paging64Pagesz + addr.toNat % paging64Pagesz

/-- A resident page is translated without a fault. -/
theorem translate_of_resident {c : ProcMem} {addr : Addr}
    (h : Resident (c.mm.entry (pageIndex addr))) :
    translate uninit c addr = some (frameAddr (c.mm.entry (pageIndex addr)) addr) := by
  unfold translate
  rw [pgGetpage_of_present uninit h.1]
  rfl

/-- A byte is at its offset exactly if that fits the offset mask. -/
theorem atOffset_iff (mm : MmStruct) (addr : Addr) :
    AtOffset mm addr (frameAddr (mm.entry (pageIndex addr)) addr) ↔ addr.toNat % 4096 < 256 := by
  unfold AtOffset paging64Pagesz
  rw [frameAddr_toNat]
  omega

/-- Different bytes at their offsets have different physical addresses. -/
theorem frameAddr_ne {mm : MmStruct} (hd : FramesDistinct mm) {a b : Addr} (hne : a ≠ b)
    (ha : a.toNat < 512 * 4096) (hb : b.toNat < 512 * 4096)
    (hra : Resident (mm.entry (pageIndex a))) (hrb : Resident (mm.entry (pageIndex b)))
    (hoa : a.toNat % 4096 < 256) (hob : b.toNat % 4096 < 256) :
    frameAddr (mm.entry (pageIndex a)) a ≠ frameAddr (mm.entry (pageIndex b)) b := by
  intro h
  obtain ⟨hframe, hlow⟩ := frameAddr_inj h
  -- one frame is one entry, and below 512 pages one entry is one page
  have hpage : (pageIndex a : ℕ) = pageIndex b := congrArg Fin.val (hd _ _ hra hrb hframe)
  rw [pageIndex_val, pageIndex_val] at hpage
  exact hne (BitVec.eq_of_toNat_eq (by omega))

/-- Two bytes of resident pages are translated to different addresses at their
in-page offsets exactly if both offsets are below 256. -/
theorem translate_injective_iff {c : ProcMem} (hd : FramesDistinct c.mm) {a b : Addr}
    (hne : a ≠ b) (ha : a.toNat < 512 * 4096) (hb : b.toNat < 512 * 4096)
    (hra : Resident (c.mm.entry (pageIndex a))) (hrb : Resident (c.mm.entry (pageIndex b))) :
    (∃ x y, translate uninit c a = some x ∧ translate uninit c b = some y ∧ x ≠ y ∧
      AtOffset c.mm a x ∧ AtOffset c.mm b y) ↔
      a.toNat % 4096 < 256 ∧ b.toNat % 4096 < 256 := by
  rw [translate_of_resident hra, translate_of_resident hrb]
  constructor
  · rintro ⟨x, y, hx, hy, _, hox, hoy⟩
    cases hx
    cases hy
    exact ⟨(atOffset_iff _ _).mp hox, (atOffset_iff _ _).mp hoy⟩
  · rintro ⟨hoa, hob⟩
    exact ⟨_, _, rfl, rfl, frameAddr_ne hd hne ha hb hra hrb hoa hob,
      (atOffset_iff _ _).mpr hoa, (atOffset_iff _ _).mpr hob⟩

/-- The heap of a process after 300 bytes have been allocated. -/
def heapPage : ProcMem := (incVmaLimit (bootMem 8192 0) 0 300).2

/-- The only page of a heap of 300 bytes lies in frame 0. -/
theorem heapPage_entry :
    heapPage.mm.entry = Function.update (fun _ => 0) 0 (entrySetFpn 0 0) := rfl

/-- The entries of a heap of one page name different frames. -/
theorem framesDistinct_heapPage : FramesDistinct heapPage.mm := by
  have honly : ∀ i, Resident (heapPage.mm.entry i) → i = 0 := by
    intro i hi
    by_contra hne
    rw [heapPage_entry, Function.update_of_ne hne] at hi
    exact absurd hi (by decide)
  exact fun i j hi hj _ => (honly i hi).trans (honly j hj).symm

/-- The bytes 0 and 256 of a heap of one page have one physical address. -/
theorem translate_not_injective : ¬ ∀ (uninit : Addr → Byte) (c : ProcMem) (a b : Addr),
    FramesDistinct c.mm → a ≠ b → (∀ vma ∈ c.mm.mmap, a < vma.sbrk ∧ b < vma.sbrk) →
      a.toNat < 512 * 4096 → b.toNat < 512 * 4096 → Resident (c.mm.entry (pageIndex a)) →
        Resident (c.mm.entry (pageIndex b)) →
          ∃ x y, translate uninit c a = some x ∧ translate uninit c b = some y ∧ x ≠ y ∧
            AtOffset c.mm a x ∧ AtOffset c.mm b y := by
  intro h
  have hresident : ∀ a : Addr, pageIndex a = 0 → Resident (heapPage.mm.entry (pageIndex a)) := by
    intro a ha
    rw [ha, heapPage_entry, Function.update_self]
    decide
  obtain ⟨x, y, hx, hy, hne, _⟩ := h (fun _ => 0) heapPage 0 256 framesDistinct_heapPage
    (by decide) (by decide) (by decide) (by decide) (hresident _ (by decide))
    (hresident _ (by decide))
  rw [translate_of_resident (hresident _ (by decide))] at hx hy
  have hsame : frameAddr (heapPage.mm.entry (pageIndex 0)) 0 =
      frameAddr (heapPage.mm.entry (pageIndex 256)) 256 := by decide
  exact hne ((Option.some.inj hx).symm.trans (hsame.trans (Option.some.inj hy)))

/-- The bytes 0 and 255 are kept apart. -/
theorem translate_injective_iff_page :
    (∃ x y, translate (fun _ => 0) heapPage 0 = some x ∧
      translate (fun _ => 0) heapPage 255 = some y ∧ x ≠ y ∧
        AtOffset heapPage.mm 0 x ∧ AtOffset heapPage.mm 255 y) ↔
      (0 : Addr).toNat % 4096 < 256 ∧ (255 : Addr).toNat % 4096 < 256 := by
  have hresident : Resident (heapPage.mm.entry 0) := by
    rw [heapPage_entry, Function.update_self]
    decide
  exact translate_injective_iff framesDistinct_heapPage (by decide) (by decide) (by decide)
    hresident hresident

/-! ## Entries of a process -/

/-- A setter for one page leaves the entry of another one unchanged in every state. -/
def LeavesEntry (setter : MmStruct → Addr → MmStruct) (p q : Addr) : Prop :=
  ∀ mm, pteGetEntry (setter mm p) q = pteGetEntry mm q

/-- A setter that changes some entry leaves exactly the pages with another index alone. -/
theorem leavesEntry_iff {setter : MmStruct → Addr → MmStruct} {upd : Addr → Addr}
    (hset : ∀ mm pgn, (setter mm pgn).entry =
      Function.update mm.entry (ptIndex pgn) (upd (mm.entry (ptIndex pgn))))
    {e : Addr} (he : (upd e).setWidth 32 ≠ e.setWidth 32) (p q : Addr) :
    LeavesEntry setter p q ↔ p.toNat % 512 ≠ q.toNat % 512 := by
  constructor
  · intro h heq
    have hix : ptIndex p = ptIndex q := Fin.ext heq
    have hmm := h {initMm with pt := some fun _ => e}
    rw [pteGetEntry_eq, pteGetEntry_eq, hset, hix, Function.update_self] at hmm
    exact he hmm
  · intro hne mm
    have hix : ptIndex q ≠ ptIndex p := fun h => hne (congrArg Fin.val h).symm
    rw [pteGetEntry_eq, pteGetEntry_eq, hset, Function.update_of_ne hix]

/-- A setter that marks an absent entry present has changed it. -/
theorem setWidth_ne_of_present {e e' : Addr} (h : ¬Present e) (h' : Present e') :
    e'.setWidth 32 ≠ e.setWidth 32 := by
  intro he
  unfold Present at h h'
  rw [he] at h'
  exact h h'

theorem not_present_zero : ¬Present 0 := by decide

/-- The three setters leave exactly the pages with another index alone. -/
theorem setters_leave_iff (p q : Addr) :
    (∀ fpn, LeavesEntry (fun mm pgn => (pteSetFpn mm pgn fpn).2) p q ↔
      p.toNat % 512 ≠ q.toNat % 512) ∧
    (∀ swptyp swpoff, LeavesEntry (fun mm pgn => (pteSetSwap mm pgn swptyp swpoff).2) p q ↔
      p.toNat % 512 ≠ q.toNat % 512) ∧
    (∀ pteVal, LeavesEntry (fun mm pgn => (pteSetEntry mm pgn pteVal).2) p q ↔
      p.toNat % 512 ≠ q.toNat % 512) := by
  refine ⟨fun fpn => ?_, fun swptyp swpoff => ?_, fun pteVal => ?_⟩
  · refine @leavesEntry_iff _ (fun e => entrySetFpn e fpn) (fun mm pgn => ?_) 0 ?_ p q
    · exact (pteSetFpn_spec mm pgn fpn).2.1
    · exact setWidth_ne_of_present not_present_zero (present_entrySetFpn 0 fpn)
  · refine @leavesEntry_iff _ (fun e => entrySetSwap e swptyp swpoff) (fun mm pgn => ?_) 0 ?_ p q
    · exact (pteSetSwap_spec mm pgn swptyp swpoff).2.1
    · exact setWidth_ne_of_present not_present_zero (present_entrySetSwap 0 swptyp swpoff)
  · refine @leavesEntry_iff _ (fun _ => pteVal.setWidth 64) (fun mm pgn => ?_)
      ((pteVal + 1).setWidth 64) (fun h => ?_) p q
    · exact (pteSetEntry_spec mm pgn pteVal).2.1
    · rw [BitVec.setWidth_setWidth_of_le _ (by decide), BitVec.setWidth_setWidth_of_le _ (by decide),
        BitVec.setWidth_eq, BitVec.setWidth_eq] at h
      have hv := congrArg BitVec.toNat h
      rw [BitVec.toNat_add] at hv
      change _ = (_ + 1) % 2 ^ 32 at hv
      omega

/-! ## Pages of a range -/

/-- The entries of a range lie one behind the other, modulo the size of the table. -/
theorem ptIndex_rangePage (start : Addr) (k : ℕ) :
    (ptIndex (rangePage start k) : ℕ) = (start.toNat / 4096 + k) % 512 := by
  have hoff : (pageOffset k).toNat % 2 ^ 32 = k * 4096 % 2 ^ 32 := by
    unfold pageOffset toAddr paging64Pagesz
    rw [BitVec.toNat_signExtend, BitVec.toNat_setWidth, BitVec.toNat_mul, BitVec.toNat_ofNat,
      BitVec.toNat_ofNat]
    split <;> omega
  have hlt := (pageOffset k).isLt
  have hs := start.isLt
  change ((start + pageOffset k) >>> 12).toNat % 512 = _
  rw [BitVec.toNat_ushiftRight, BitVec.toNat_add, Nat.shiftRight_eq_div_pow]
  omega

/-- Page `i` of a range that `vm_map_ram` has mapped reads back the `i`-th frame it
took. -/
def ReadsBack (c : ProcMem) (start : Addr) (pages : CInt) : Prop :=
  ∀ i f, (c.mram.freeFpList.take (loopCount pages))[i]? = some f →
    (pagingFpn (pteGetEntry (vmMapRam c start pages).2.mm (rangePage start i))).toNat = f.toNat

/-- What mapping a range leaves in an entry: the last frame written to it. -/
theorem vmapPageRange_last (mm : MmStruct) (start : Addr) {pages : CInt} {frames : List Addr}
    (hlen : frames.length = loopCount pages) {j : ℕ} {f : Addr} (hj : frames[j]? = some f)
    (hlast : ∀ l < loopCount pages, j < l →
      ptIndex (rangePage start l) ≠ ptIndex (rangePage start j)) :
    entryFrame ((vmapPageRange mm start pages frames).2.entry (ptIndex (rangePage start j))) =
      f.toNat % 8192 := by
  have hjn : j < loopCount pages := hlen ▸ (List.getElem?_eq_some_iff.mp hj).1
  unfold vmapPageRange
  have hrun := @vmapPageRangeLoop_induct start (fun k fs m => k ≤ loopCount pages →
    fs = frames.drop k ∧ (j < k → entryFrame (m.entry (ptIndex (rangePage start j))) =
      f.toNat % 8192)) ?_ _ 0 _ (ensureDirectories mm) hlen ?_
  · rw [Nat.zero_add] at hrun
    exact (hrun (le_refl _)).2 hjn
  · intro k g fs m h hk
    obtain ⟨hdrop, hmap⟩ := h (Nat.le_of_succ_le hk)
    have hg : frames[k]? = some g := by
      rw [← List.head?_drop, ← hdrop, List.head?_cons]
    refine ⟨?_, fun hlt => ?_⟩
    · rw [← List.tail_drop, ← hdrop, List.tail_cons]
    · rw [mapPage_entry]
      rcases Nat.lt_succ_iff_lt_or_eq.mp hlt with hlt | rfl
      · -- a later page with another entry
        rw [Function.update_of_ne (hlast k hk hlt).symm]
        exact hmap hlt
      · rw [Function.update_self, entryFrame_entrySetFpn, Option.some.inj (hg.symm.trans hj)]
  · exact fun _ => ⟨rfl, fun h => absurd h (Nat.not_lt_zero _)⟩

/-- Where a frame number is read back from. -/
theorem pagingFpn_pteGetEntry (mm : MmStruct) (pgn : Addr) :
    (pagingFpn (pteGetEntry mm pgn)).toNat = entryFrame (mm.entry (ptIndex pgn)) := by
  rw [pteGetEntry_eq]
  rfl

/-- A range from a free list without duplicates reads back exactly if it does not go
round the table and its frames fit the frame field. -/
theorem readsBack_iff {c : ProcMem} (hnodup : c.mram.freeFpList.Nodup) {pages : CInt}
    (hfree : loopCount pages ≤ c.mram.freeFpList.length) (start : Addr) :
    ReadsBack c start pages ↔ loopCount pages ≤ 512 ∧
      ∀ f ∈ c.mram.freeFpList.take (loopCount pages), f.toNat < 2 ^ 13 := by
  have hlen := List.length_take_of_le hfree
  have hentry : (vmMapRam c start pages).2.mm = (vmapPageRange c.mm start pages
      (c.mram.freeFpList.take (loopCount pages))).2 := by
    rw [vmMapRam_eq, if_pos hfree]
  unfold ReadsBack
  rw [hentry]
  simp only [pagingFpn_pteGetEntry]
  constructor
  · intro h
    refine ⟨Nat.not_lt.mp fun hlt => ?_, fun f hf => ?_⟩
    · -- pages 0 and 512 share an entry, but not their frames
      have h0 := h 0 _ (List.getElem?_eq_getElem (by omega))
      have h512 := h 512 _ (List.getElem?_eq_getElem (by omega))
      have hix : ptIndex (rangePage start 512) = ptIndex (rangePage start 0) := by
        apply Fin.ext
        rw [ptIndex_rangePage, ptIndex_rangePage]
        omega
      rw [hix, h0] at h512
      have hidx := (hnodup.sublist (List.take_sublist _ _)).getElem_inj_iff.mp
        (BitVec.eq_of_toNat_eq h512)
      exact absurd hidx (by decide)
    · obtain ⟨i, hi⟩ := List.mem_iff_getElem?.mp hf
      rw [← h i f hi, entryFrame_eq]
      exact Nat.mod_lt _ (by decide)
  · rintro ⟨hle, hfit⟩ i f hi
    have hin : i < loopCount pages := hlen ▸ (List.getElem?_eq_some_iff.mp hi).1
    rw [vmapPageRange_last c.mm start hlen hi fun l hl hlt he => ?_]
    · exact Nat.mod_eq_of_lt (hfit f (List.mem_of_getElem? hi))
    · have hv := congrArg Fin.val he
      rw [ptIndex_rangePage, ptIndex_rangePage] at hv
      omega

/-- Entries are independent exactly between pages that differ modulo 512, and a range
mapped from what is left of a formatted RAM reads back exactly if it has at most
512 pages and frames below 2^13. -/
theorem entries_independent_iff (p q : Addr) :
    ((∀ fpn, LeavesEntry (fun mm pgn => (pteSetFpn mm pgn fpn).2) p q ↔
        p.toNat % 512 ≠ q.toNat % 512) ∧
      (∀ swptyp swpoff, LeavesEntry (fun mm pgn => (pteSetSwap mm pgn swptyp swpoff).2) p q ↔
        p.toNat % 512 ≠ q.toNat % 512) ∧
      ∀ pteVal, LeavesEntry (fun mm pgn => (pteSetEntry mm pgn pteVal).2) p q ↔
        p.toNat % 512 ≠ q.toNat % 512) ∧
    ∀ (c : ProcMem) (size : Addr) (flag : Bool) (start : Addr) (pages : CInt),
      c.mram.freeFpList <:+ (initMemphy size flag).freeFpList →
        loopCount pages ≤ c.mram.freeFpList.length →
          (ReadsBack c start pages ↔ loopCount pages ≤ 512 ∧
            ∀ f ∈ c.mram.freeFpList.take (loopCount pages), f.toNat < 2 ^ 13) := by
  refine ⟨setters_leave_iff p q, fun c size flag start pages hsuf hfree => ?_⟩
  exact readsBack_iff ((initMemphy_freeFpList_nodup size flag).sublist hsuf.sublist) hfree start

/-- Mapping page 0 also makes page 512 present. -/
theorem entries_not_independent : ¬ ∀ p q : Addr, p ≠ q → p.toNat < 2 ^ 45 → q.toNat < 2 ^ 45 →
    ∀ fpn, LeavesEntry (fun mm pgn => (pteSetFpn mm pgn fpn).2) p q := by
  intro h
  have h0 := h 0 512 (by decide) (by decide) (by decide) 0
  exact ((setters_leave_iff 0 512).1 0).mp h0 (by decide)

/-- Two pages of a RAM of two frames. -/
theorem entries_independent_iff_two :
    ReadsBack (bootMem 8192 0) 0 2 ↔ loopCount 2 ≤ 512 ∧
      ∀ f ∈ (bootMem 8192 0).mram.freeFpList.take (loopCount 2), f.toNat < 2 ^ 13 :=
  (entries_independent_iff 0 1).2 (bootMem 8192 0) 8192 true 0 2 (List.suffix_refl _) (by decide)

end OsSim.MemoryTranslation
