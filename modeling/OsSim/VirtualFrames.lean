import OsSim.VirtualProgram
import OsSim.MemoryGrowth
import OsSim.ProcessFrame

/-!
# Programs that RAM serves

If the heap of a program fits the page table and RAM has a free frame for each of its
pages, every page below the break is present, so that no access of the program
faults, and each instruction takes at most the frames that its text asks for.
-/

namespace OsSim.VirtualFrames

open MemoryWords MemoryDevice MemoryPageTable MemoryMapping MemoryPaging MemoryLibrary
open MemoryEffects MemoryInstruction MemoryArea MemoryBytes MemoryFrames MemoryTranslation
open MemoryRegions MemoryDrain MemoryGrowth ProcessFrame VirtualMemory VirtualProgram

variable {uninit : Addr → Byte} {ι : Type*}

/-! ## Pages that stay present -/

/-- No instruction makes a present page absent. -/
theorem entryInvariant_present (S : Fin 512 → Prop) :
    EntryInvariant fun mm => ∀ x, S x → Present (mm.entry x) where
  shorten h he _ x hx := by
    rw [he]
    exact h x hx
  write {mm mm' i e} h hp he _ x hx := by
    rw [he]
    by_cases hi : x = i
    · subst hi
      rwa [Function.update_self]
    · rw [Function.update_of_ne hi]
      exact h x hx

/-- Every page below the break is present. -/
def HeapMapped (mm : MmStruct) (v : VirtualMem) : Prop :=
  ∀ x : Fin 512, (x : ℕ) * 4096 < v.sbrk.toNat → Present (mm.entry x)

/-- A byte below the break lies in a present page. -/
theorem HeapMapped.present {mm : MmStruct} {v : VirtualMem} (h : HeapMapped mm v) {addr : Addr}
    (ha : addr.toNat < v.sbrk.toNat) (hb : v.sbrk.toNat ≤ 512 * 4096) :
    Present (mm.entry (pageIndex addr)) := by
  refine h _ ?_
  rw [pageIndex_val]
  omega

/-- A page as an address. -/
theorem pageIndex_ofNat (x : Fin 512) :
    (BitVec.ofNat 64 (x * 4096) : Addr).toNat = x * 4096 ∧
      pageIndex (BitVec.ofNat 64 (x * 4096)) = x := by
  have hx : (BitVec.ofNat 64 (x * 4096) : Addr).toNat = x * 4096 := by
    rw [BitVec.toNat_ofNat]
    omega
  refine ⟨hx, Fin.ext ?_⟩
  rw [pageIndex_val, hx]
  omega

/-- Behind a growth that RAM serves, every page below the new break is present. -/
theorem HeapMapped.grow {c : ProcMem} {v grown : VirtualMem} (h : HeapMapped c.mm v)
    (hsbrk : v.sbrk.toNat < 2 ^ 31) (harea : HeapArea c.mm v.area) {vmaid : CInt} {size : Addr}
    {g : Growth} (hsize : size.toNat < 2 ^ 31) (hg : growthOf c.mm vmaid size = some g)
    (hgrow : v.grow size = some grown) (hfree : loopCount g.pages ≤ c.mram.freeFpList.length) :
    HeapMapped (vmMapRam {c with mm := g.mm} g.start g.pages).2.mm grown := by
  have hcount := loopCount_incNumPage (show pagesNeeded size < 2 ^ 31 by
    unfold pagesNeeded
    omega)
  obtain ⟨hbrk, _⟩ := grow_sbrk hsbrk harea.aligned hsize hgrow
  rw [harea.growthOf_eq] at hg
  obtain ⟨_, ⟨⟩⟩ := Option.ite_none_left_eq_some.mp hg
  have hlen := List.length_take_of_le hfree
  have hmaps := vmapPageRange_mapsPages {c.mm with mmap := [setBreak v.area
    (newBreak v.area size)]} v.area.sbrk hlen
  rw [vmMapRam_eq, if_pos hfree]
  intro x hx
  dsimp only at hmaps ⊢
  by_cases hold : (x : ℕ) * 4096 < v.sbrk.toNat
  · exact (entryInvariant_present (· = x)).vmapPageRange (fun y hy => hy ▸ h x hold) _ hlen x rfl
  · obtain ⟨hnat, hidx⟩ := pageIndex_ofNat x
    have hal : 4096 ∣ v.sbrk.toNat := harea.aligned
    have hmax := Nat.le_max_right 1 (pagesNeeded size)
    have hle : v.area.sbrk.toNat / 4096 ≤ (BitVec.ofNat 64 (x * 4096) : Addr).toNat / 4096 := by
      rw [hnat]
      change v.sbrk.toNat / 4096 ≤ _
      omega
    have hlt : (BitVec.ofNat 64 (x * 4096) : Addr).toNat / 4096 < v.area.sbrk.toNat / 4096 +
        loopCount (incNumPage (paging64PageAlignsz size)) := by
      rw [hnat, hcount]
      change _ < v.sbrk.toNat / 4096 + _
      omega
    have hpres := hmaps.present hle hlt
    rwa [hidx] at hpres

/-! ## One process -/

variable [DecidableEq ι]

/-- What one process sees of the shared memory serves a program whose heap takes at
most so many pages. -/
structure Hosted (entry : ι → Fin 512 → Addr) (byte : ι → Cell → Byte) (i : ι) (c : ProcMem)
    (v : VirtualMem) (pages : ℕ) : Prop where
  /-- The shared memory stands for the abstract one. -/
  stands : StandsFor entry byte i c v
  /-- The heap is as large as the program says. -/
  confined : Confined v pages
  /-- Every page of the heap is present. -/
  mapped : HeapMapped c.mm v
  /-- No entry is in use that is not present. -/
  marked : EntriesMarked c.mm

/-- The frames for the next pages are there, and fit the frame field. -/
def FramesReady (free : List Addr) (pages : ℕ) : Prop :=
  pages ≤ free.length ∧ ∀ f ∈ free.take pages, f.toNat < 2 ^ 13

/-- Fewer pages need fewer frames. -/
theorem FramesReady.mono {free : List Addr} {m n : ℕ} (h : FramesReady free n) (hle : m ≤ n) :
    FramesReady free m := by
  refine ⟨hle.trans h.1, fun f hf => h.2 f ?_⟩
  rw [← Nat.min_eq_left hle, ← List.take_take] at hf
  exact List.mem_of_mem_take hf

/-- What is left serves the pages that are left. -/
theorem FramesReady.drop {free : List Addr} {k m n : ℕ} (h : FramesReady free (m + n))
    (hk : k ≤ m) : FramesReady (free.drop k) n := by
  have hk := h.mono (Nat.add_le_add_right hk n)
  refine ⟨by rw [List.length_drop]; exact Nat.le_sub_of_add_le' hk.1, fun f hf => hk.2 f ?_⟩
  rw [List.take_drop] at hf
  exact List.mem_of_mem_drop hf

section Hosted

variable {entry : ι → Fin 512 → Addr} {byte : ι → Cell → Byte} {i : ι} {c : ProcMem}
  {v : VirtualMem} {n : ℕ}

omit [DecidableEq ι] in
/-- The pages of a growth are those of its size. -/
theorem growthOf_pages {mm : MmStruct} {vma : VmArea} (h : HeapArea mm vma) {vmaid : CInt}
    {size : Addr} {g : Growth} (hsize : size.toNat < 2 ^ 31)
    (hg : growthOf mm vmaid size = some g) : loopCount g.pages = max 1 (pagesNeeded size) := by
  rw [h.growthOf_eq] at hg
  obtain ⟨_, ⟨⟩⟩ := Option.ite_none_left_eq_some.mp hg
  refine loopCount_incNumPage ?_
  unfold pagesNeeded
  omega

/-- A growth that an instruction asks for takes the pages that its text says. -/
theorem Hosted.growth (h : Hosted entry byte i c v n) {ins : Inst} (hw : WellFormed ins)
    {g : Growth} (hg : instGrowth c ins = some g) : loopCount g.pages = pagesOf ins := by
  unfold instGrowth at hg
  unfold WellFormed at hw
  unfold pagesOf
  cases hop : ins.opcode with
  | alloc =>
    rw [hop] at hg hw
    obtain ⟨_, hg⟩ := Option.ite_none_right_eq_some.mp hg
    exact growthOf_pages (h.stands.afterWalk ins.arg0).area hw.1 hg
  | syscall =>
    rw [hop] at hg hw
    obtain ⟨⟨_, hnr, hinc⟩, hg⟩ := Option.ite_none_right_eq_some.mp hg
    dsimp only
    rw [if_pos ⟨hnr, hinc⟩]
    exact growthOf_pages h.stands.area ((hw hnr).2.2.2 hinc) hg
  | «calc» => rw [hop] at hg; cases hg
  | free => rw [hop] at hg; cases hg
  | read => rw [hop] at hg; cases hg
  | write => rw [hop] at hg; cases hg

/-- Every byte that an instruction touches lies in a present page. -/
theorem Hosted.touch (h : Hosted entry byte i c v n) {ins : Inst} (hw : WellFormed ins)
    (hn : n ≤ 512) {addr : Addr} (ht : instTouch c ins = some addr) :
    Present (c.mm.entry (pageIndex addr)) := by
  have hbelow : ∀ (rgid : CInt) (offset : Addr), rgid ≠ 30 → ∃ o,
      regionAddr c 0 rgid offset = .ok o ∧ ∀ a ∈ o, Present (c.mm.entry (pageIndex a)) := by
    intro rgid offset hid
    obtain ⟨o, ho, hlt⟩ := h.confined.regionAddr hid offset
    rw [← h.stands.regionAddr_eq] at ho
    have hle := h.confined.sbrk_le.trans (Nat.mul_le_mul_right 4096 hn)
    exact ⟨o, ho, fun a ha => h.mapped.present (hlt a ha) hle⟩
  unfold WellFormed at hw
  cases hop : ins.opcode with
  | read =>
    rw [hop] at hw
    obtain ⟨o, ho, hp⟩ := hbelow _ ins.arg1 hw.1
    exact hp addr ((instTouch_read hop ho).symm.trans ht)
  | write =>
    rw [hop] at hw
    obtain ⟨o, ho, hp⟩ := hbelow _ ins.arg2 hw
    exact hp addr ((instTouch_write hop ho).symm.trans ht)
  | «calc» => rw [instTouch, hop] at ht; cases ht
  | alloc => rw [instTouch, hop] at ht; cases ht
  | free => rw [instTouch, hop] at ht; cases ht
  | syscall => rw [instTouch, hop] at ht; cases ht

/-- RAM serves a well-formed instruction if it has frames for the pages of it. -/
theorem Hosted.served (h : Hosted entry byte i c v n) {ins : Inst} (hw : WellFormed ins)
    (hn : n ≤ 512) (hf : FramesReady c.mram.freeFpList (pagesOf ins)) : Served c ins := by
  refine ⟨fun g hg => ?_, fun a ha hnot => absurd (h.touch hw hn ha) hnot⟩
  rw [h.growth hw hg]
  exact hf

/-- An instruction takes at most the frames that its text asks for. -/
theorem Hosted.taken (h : Hosted entry byte i c v n) {ins : Inst} (hw : WellFormed ins)
    (hn : n ≤ 512) : ramTaken c ins ≤ pagesOf ins := by
  unfold ramTaken
  split
  · next g _ hg => exact (h.growth hw hg).le
  · next addr _ ht =>
    rw [if_neg (show ¬Faults c addr from not_not.mpr (h.touch hw hn ht))]
    exact Nat.zero_le _
  · exact Nat.zero_le _

omit [DecidableEq ι] in
/-- A well-formed instruction stays in the memory of its process. -/
theorem private_of_wellFormed {ins : Inst} (hw : WellFormed ins) : Private ins := by
  intro hop hnr
  unfold WellFormed at hw
  rw [hop] at hw
  exact ⟨(hw hnr).1, (hw hnr).2.1, (hw hnr).2.2.1⟩

/-- Where the break stays, the heap stays present. -/
theorem HeapMapped.kept {c' : ProcMem} {v' : VirtualMem} {ins : Inst} (h : HeapMapped c.mm v)
    (hstep : InstStep uninit c ins c') (hbrk : v'.sbrk = v.sbrk) : HeapMapped c'.mm v' := by
  unfold HeapMapped at h ⊢
  rw [hbrk]
  exact (entryInvariant_present fun x => (x : ℕ) * 4096 < v.sbrk.toNat).inst h hstep

/-- Abstract memories with the same area have the same break. -/
theorem sbrk_eq_of_area {c' : ProcMem} {v' : VirtualMem} {l : List VmRg}
    (hc' : StandsFor entry byte i c' v') (hm : c'.mm.mmap = [{v.area with vmFreergList := l}]) :
    v'.sbrk = v.sbrk := by
  have harea := hc'.area.single
  rw [hm] at harea
  exact (congrArg VmArea.sbrk (List.cons.inj harea).1).symm

/-- An instruction that RAM serves keeps the heap present. -/
theorem Hosted.mapped_exec (h : Hosted entry byte i c v n) (hl : c.listed = true) {ins : Inst}
    (hw : WellFormed ins) (hn : n ≤ 512) (hs : Served c ins) {c' : ProcMem} {v' : VirtualMem}
    (hstep : InstStep uninit c ins c') (hc' : StandsFor entry byte i c' v') :
    HeapMapped c'.mm v' := by
  have hsbrk : v.sbrk.toNat < 2 ^ 31 := by
    have hle := h.confined.sbrk_le
    omega
  have hsame : ∀ l, c'.mm.mmap = [{v.area with vmFreergList := l}] → HeapMapped c'.mm v' :=
    fun l hm => h.mapped.kept hstep (sbrk_eq_of_area hc' hm)
  have hkept : c'.mm.mmap = c.mm.mmap → HeapMapped c'.mm v' := fun hm =>
    hsame v.freergs (hm.trans h.stands.area.single)
  unfold WellFormed at hw
  cases instStep_regions hstep with
  | same hm _ => exact hkept hm
  | free hf =>
    obtain ⟨_, rfl⟩ | ⟨k, vma0, next, _, hm, _, rfl⟩ := free_cases hf
    · exact hkept rfl
    · rw [h.stands.area.single] at hm
      obtain ⟨rfl, rfl⟩ := List.cons.inj hm
      refine hsame (if (c.mm.symrgtbl k).rgEnd ≤ (c.mm.symrgtbl k).rgStart then v.freergs
        else c.mm.symrgtbl k :: v.freergs) ?_
      dsimp only
      split
      · exact h.stands.area.single
      · rfl
  | alloc hop ha =>
    rw [hop] at hw
    have hwalk := h.stands.afterWalk ins.arg0
    obtain ⟨rg, k, _, _, _, rfl⟩ | ⟨_, _, _, rfl⟩ | ⟨j, cur, g, k, hf, _, _, hg, _, _, rfl⟩ :=
      alloc_cases ha
    · exact hsame _ hwalk.area.single
    · exact hsame _ hwalk.area.single
    · have hgrowth : instGrowth c ins = some g := by
        unfold instGrowth
        rw [hop]
        exact (if_pos ⟨hl, hf⟩).trans hg
      obtain ⟨grown, hgrow, hstands⟩ := hwalk.grow hg (hs.1 g hgrowth)
      have hmapped : HeapMapped (afterWalk c.mm 0 ins.arg0)
          {v with freergs := (getFreeVmrgArea v.freergs (toCInt ins.arg0)).2} := by
        intro x hx
        rw [(afterWalk_same c.mm 0 ins.arg0).1.entry]
        exact h.mapped x hx
      have hnew := HeapMapped.grow (c := {c with mm := afterWalk c.mm 0 ins.arg0}) hmapped hsbrk
        hwalk.area hw.1 hg hgrow (hs.1 g hgrowth).1
      have hbrk : v'.sbrk = grown.sbrk := sbrk_eq_of_area hc' hstands.area.single
      intro x hx
      rw [hbrk] at hx
      exact hnew x hx
  | inc hop hnr hinc =>
    rw [hop] at hw
    rw [incVmaLimit_eq] at hc' hkept ⊢
    cases hg : growthOf c.mm (toCInt ins.arg2) ins.arg3 with
    | none =>
      rw [hg] at hkept
      exact hkept rfl
    | some g =>
      have hgrowth : instGrowth c ins = some g := by
        unfold instGrowth
        rw [hop]
        exact (if_pos ⟨hl, hnr, hinc⟩).trans hg
      obtain ⟨grown, hgrow, hstands⟩ := h.stands.grow hg (hs.1 g hgrowth)
      have hnew := h.mapped.grow hsbrk h.stands.area ((hw hnr).2.2.2 hinc) hg hgrow
        (hs.1 g hgrowth).1
      rw [hg] at hc'
      have hbrk : v'.sbrk = grown.sbrk := sbrk_eq_of_area hc' hstands.area.single
      intro x hx
      rw [hbrk] at hx
      exact hnew x hx

/-- A well-formed instruction stays inside the symbol table and the area. -/
theorem Hosted.defined (h : Hosted entry byte i c v n) {ins : Inst} (hw : WellFormed ins) :
    ExecDefined c ins := by
  unfold WellFormed at hw
  unfold ExecDefined
  cases hop : ins.opcode with
  | «calc» => trivial
  | syscall => trivial
  | alloc =>
    rw [hop] at hw
    refine ⟨fun hnone => ?_, Or.inl hw.2⟩
    rw [h.stands.area.getVmaByNum_eq, if_neg (by decide)] at hnone
    cases hnone
  | free =>
    rw [hop] at hw
    refine ⟨hw, fun hnil => ?_⟩
    rw [h.stands.area.single] at hnil
    cases hnil
  | read =>
    rw [hop] at hw
    exact Or.inl hw.1
  | write =>
    rw [hop] at hw
    exact Or.inl hw

variable (uninit) in
/-- A well-formed instruction that has its frames returns, delivers what it delivers on
the abstract memory, and takes no more frames than its text says. -/
theorem Hosted.exec (h : Hosted entry byte i c v n) (hl : c.listed = true) {ins : Inst}
    (hw : WellFormed ins) (hn : n ≤ 512) (hf : FramesReady c.mram.freeFpList (pagesOf ins)) :
    ∃ status word c' v', execInst uninit c ins = .ok (status, word, c') ∧
      v.exec ins = .ok (status, word, v') ∧ Hosted entry byte i c' v' (n + pagesOf ins) ∧
      ∃ k ≤ pagesOf ins, c'.mram.freeFpList = c.mram.freeFpList.drop k := by
  have hs := h.served hw hn hf
  obtain ⟨⟨status, word, c'⟩, he⟩ := (@execInst_isOk_iff uninit c ins).mpr (h.defined hw)
  obtain ⟨v', hv, hc'⟩ := h.stands.exec hl (private_of_wellFormed hw) hs he
  obtain ⟨_, _, v'', hv', hconf, _⟩ := h.confined.exec hw hn
  obtain rfl : v'' = v' :=
    (Prod.mk.inj (Prod.mk.inj (Except.ok.inj (hv'.symm.trans hv))).2).2
  exact ⟨status, word, c', v'', he, hv,
    ⟨hc', hconf, h.mapped_exec hl hw hn hs ⟨_, _, he⟩ hc',
      entryInvariant_entriesMarked.inst h.marked ⟨_, _, he⟩⟩,
    ramTaken c ins, h.taken hw hn, (inst_free h.marked ⟨_, _, he⟩).1⟩

end Hosted

end OsSim.VirtualFrames
