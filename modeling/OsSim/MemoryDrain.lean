import OsSim.MemoryArea
import OsSim.MemoryBytes
import OsSim.MemoryFrames

/-!
# Frames are handed out for good

How many frames an instruction takes from RAM and from swap is computed from the
state before it. An entry that is not present is zero, so that a fault never
finds a page to bring back from swap and no frame is ever put into a free list:
both lists are always what is left of the list `init_memphy` has built.
-/

namespace OsSim.MemoryDrain

open MemoryWords MemoryDevice MemoryPageTable MemoryMapping MemoryPaging MemoryLibrary
open MemoryEffects MemoryInstruction MemoryArea MemoryBytes MemoryFrames RunSteps

variable {uninit : Addr → Byte} {ι : Type*}

/-! ## Entries that are not present -/

/-- Every entry is present, or has never been written. -/
def EntriesMarked (mm : MmStruct) : Prop := ∀ i, Present (mm.entry i) ∨ mm.entry i = 0

theorem entriesMarked_initMm : EntriesMarked initMm := fun _ => Or.inr rfl

/-- Every entry that is written is present. -/
theorem entryInvariant_entriesMarked : EntryInvariant EntriesMarked where
  shorten h he _ j := by
    rw [he]
    exact h j
  write h hp he _ j := by
    rw [he, Function.update_apply]
    split
    · exact Or.inl hp
    · exact h j

/-! ## Frames taken by an instruction -/

/-- An access to this address is going to fault. -/
def Faults (c : ProcMem) (addr : Addr) : Prop := ¬Present (c.mm.entry (pageIndex addr))

instance (c : ProcMem) (addr : Addr) : Decidable (Faults c addr) := inferInstanceAs (Decidable ¬_)

/-- The frames an instruction takes from RAM, as far as there are any: the pages of a
growth, or one for a fault. -/
def ramTaken (c : ProcMem) (ins : Inst) : ℕ :=
  match instGrowth c ins, instTouch c ins with
  | some g, _ => loopCount g.pages
  | none, some addr => if Faults c addr then 1 else 0
  | none, none => 0

/-- The frames it takes from swap: one for a fault that finds no free frame and a page
to evict. -/
def swapTaken (c : ProcMem) (ins : Inst) : ℕ :=
  match instTouch c ins with
  | some addr =>
    if Faults c addr ∧ c.mram.freeFpList = [] ∧ c.mm.fifoPgn ≠ [] then 1 else 0
  | none => 0

/-- The end of a fault on an unwritten entry. -/
theorem mapFaulted_zero (c : ProcMem) (pgn : CInt) (tgtfpn : Addr) :
    mapFaulted uninit c 0 pgn tgtfpn = {c with mm := mapPage c.mm (toAddr pgn) tgtfpn} := rfl

/-- An access takes at most one frame, from RAM if it has any and from swap if not. -/
theorem pgGetpage_free {c : ProcMem} (hE : EntriesMarked c.mm) (addr : Addr) :
    (pgGetpage uninit c (addrPage addr)).2.mram.freeFpList =
        c.mram.freeFpList.drop (if Faults c addr then 1 else 0) ∧
      (pgGetpage uninit c (addrPage addr)).2.activeMswp.freeFpList =
        c.activeMswp.freeFpList.drop
          (if Faults c addr ∧ c.mram.freeFpList = [] ∧ c.mm.fifoPgn ≠ [] then 1 else 0) := by
  by_cases hp : Present (c.mm.entry (pageIndex addr))
  · have hn : ¬Faults c addr := not_not.mpr hp
    rw [pgGetpage_of_present uninit hp, if_neg hn, if_neg fun h => hn h.1]
    exact ⟨rfl, rfl⟩
  · have hf : Faults c addr := hp
    have h0 : pteGetEntry c.mm (toAddr (addrPage addr)) = 0 := by
      rw [pteGetEntry_eq]
      exact congrArg (BitVec.setWidth 32) ((hE _).resolve_left hp)
    have hcases := faultPage_outcome uninit c (addrPage addr)
    rw [h0] at hcases
    rw [pgGetpage_of_not_present uninit hp, if_pos hf]
    generalize faultPage uninit c (addrPage addr) = r at hcases ⊢
    obtain ⟨r, c'⟩ := r
    obtain ⟨f, rest, hl, he⟩ | ⟨hl, hv, he⟩ | ⟨v, fifo, hl, hv, hs, he⟩ |
      ⟨v, fifo, s, rest, mswp, hl, hv, hs, hrest, he⟩ := hcases
    · have hne : ¬(Faults c addr ∧ c.mram.freeFpList = [] ∧ c.mm.fifoPgn ≠ []) := by
        rw [hl]
        exact fun h => List.cons_ne_nil _ _ h.2.1
      dsimp only at he
      rw [if_neg hne, he, mapFaulted_zero, hl]
      exact ⟨rfl, rfl⟩
    · cases he
      rw [if_neg fun h => h.2.2 hv, hl]
      exact ⟨rfl, rfl⟩
    · cases he
      have hne : c.mm.fifoPgn ≠ [] := by
        rw [hv]
        exact List.append_ne_nil_of_right_ne_nil _ (List.cons_ne_nil _ _)
      rw [if_pos ⟨hf, hl, hne⟩, hl, hs]
      exact ⟨rfl, rfl⟩
    · have hne : c.mm.fifoPgn ≠ [] := by
        rw [hv]
        exact List.append_ne_nil_of_right_ne_nil _ (List.cons_ne_nil _ _)
      dsimp only at he
      rw [if_pos ⟨hf, hl, hne⟩, he, mapFaulted_zero, hl, hs]
      exact ⟨rfl, hrest⟩

/-- A growth takes its pages, or all that is left. -/
theorem vmMapRam_free (c : ProcMem) (mapstart : Addr) (pages : CInt) :
    (vmMapRam c mapstart pages).2.mram.freeFpList = c.mram.freeFpList.drop (loopCount pages) ∧
      (vmMapRam c mapstart pages).2.activeMswp = c.activeMswp := by
  rw [vmMapRam_eq]
  split
  · exact ⟨rfl, rfl⟩
  · next h => exact ⟨(List.drop_eq_nil_of_le (Nat.le_of_not_le h)).symm, rfl⟩

/-- The free lists of both devices have lost exactly the frames that the instruction takes.
-/
def Drained (c : ProcMem) (ins : Inst) (c' : ProcMem) : Prop :=
  c'.mram.freeFpList = c.mram.freeFpList.drop (ramTaken c ins) ∧
    c'.activeMswp.freeFpList = c.activeMswp.freeFpList.drop (swapTaken c ins)

/-- An instruction that neither grows the heap nor accesses a page takes none. -/
theorem Drained.idle {c c' : ProcMem} {ins : Inst} (hg : instGrowth c ins = none)
    (ht : instTouch c ins = none) (hram : c'.mram.freeFpList = c.mram.freeFpList)
    (hswp : c'.activeMswp.freeFpList = c.activeMswp.freeFpList) : Drained c ins c' := by
  unfold Drained ramTaken swapTaken
  rw [hg, ht, hram, hswp]
  exact ⟨rfl, rfl⟩

/-- A growth takes the frames of its pages. -/
theorem Drained.grown {c : ProcMem} {ins : Inst} {g : Growth} (hg : instGrowth c ins = some g)
    (ht : instTouch c ins = none) :
    Drained c ins (vmMapRam {c with mm := g.mm} g.start g.pages).2 := by
  obtain ⟨hram, hswp⟩ := vmMapRam_free {c with mm := g.mm} g.start g.pages
  unfold Drained ramTaken swapTaken
  rw [hg, ht, hram, hswp]
  exact ⟨rfl, rfl⟩

/-- An access takes the frame of its fault. -/
theorem Drained.touched {c c' : ProcMem} {ins : Inst} {addr : Addr} (hE : EntriesMarked c.mm)
    (hg : instGrowth c ins = none) (ht : instTouch c ins = some addr)
    (hram : c'.mram.freeFpList = (pgGetpage uninit c (addrPage addr)).2.mram.freeFpList)
    (hswp : c'.activeMswp.freeFpList =
      (pgGetpage uninit c (addrPage addr)).2.activeMswp.freeFpList) : Drained c ins c' := by
  unfold Drained ramTaken swapTaken
  rw [hg, ht, hram, hswp]
  exact pgGetpage_free hE addr

/-- `__alloc` takes frames if it grows the heap. -/
theorem alloc_drained {c c' : ProcMem} {ins : Inst} {o : Option Addr} (hop : ins.opcode = .alloc)
    (ha : alloc uninit c 0 (toCInt ins.arg1) ins.arg0 = .ok (o, c')) : Drained c ins c' := by
  have ht : instTouch c ins = none := by rw [instTouch, hop]
  obtain ⟨rg, k, hf, _, _, rfl⟩ | ⟨hf, hr, _, rfl⟩ | ⟨i, cur, g, k, hf, hl, _, hg, _, _, rfl⟩ :=
    alloc_cases ha
  · refine Drained.idle ?_ ht rfl rfl
    rw [instGrowth, hop]
    refine if_neg fun h => ?_
    rw [hf] at h
    exact nomatch h.2
  · refine Drained.idle ?_ ht rfl rfl
    rw [instGrowth, hop]
    dsimp only
    split
    · next hl => exact hr.resolve_left fun h => Bool.noConfusion (h.symm.trans hl.1)
    · rfl
  · have hgi : instGrowth c ins = some g := by
      rw [instGrowth, hop]
      dsimp only
      rw [if_pos ⟨hl, hf⟩, hg]
    exact Drained.grown hgi ht

/-- Of the system calls only a growth takes frames. -/
theorem libsyscall_drained {c : ProcMem} {ins : Inst} (hop : ins.opcode = .syscall) :
    Drained c ins (libsyscall uninit c (toCInt ins.arg0) ins.arg1 ins.arg2 ins.arg3).2 := by
  have ht : instTouch c ins = none := by rw [instTouch, hop]
  have hg : ¬(c.listed = true ∧ toCInt ins.arg0 = 17 ∧ toCInt ins.arg1 = sysmemIncOp) →
      instGrowth c ins = none := by
    intro hnot
    rw [instGrowth, hop]
    exact if_neg hnot
  have hcall := @libsyscall_call uninit c ins
  generalize (libsyscall uninit c (toCInt ins.arg0) ins.arg1 ins.arg2 ins.arg3).2 = c' at hcall ⊢
  cases hcall with
  | idle hidle => exact Drained.idle (hg hidle) ht rfl rfl
  | map _ hm =>
    exact Drained.idle (hg fun h => absurd (hm.symm.trans h.2.2) (by decide)) ht rfl rfl
  | inc hl hnr hm =>
    have hgi : instGrowth c ins = growthOf c.mm (toCInt ins.arg2) ins.arg3 := by
      rw [instGrowth, hop]
      exact if_pos ⟨hl, hnr, hm⟩
    rw [incVmaLimit_eq]
    cases hgo : growthOf c.mm (toCInt ins.arg2) ins.arg3 with
    | none => exact Drained.idle (hgi.trans hgo) ht rfl rfl
    | some g => exact Drained.grown (hgi.trans hgo) ht
  | swp hm =>
    have hsame := sameFrames_swapCpPage uninit c.mram ins.arg2 c.activeMswp ins.arg3
    exact Drained.idle (hg fun h => absurd (hm.symm.trans h.2.2) (by decide)) ht rfl
      hsame.freeFpList
  | ioWrite _ hm hw =>
    exact Drained.idle (hg fun h => absurd (hm.symm.trans h.2.2) (by decide)) ht
      (memphyWrite_frame hw).2.2.1 rfl

/-- Every instruction takes from both free lists exactly the frames that are counted for
it. -/
theorem inst_free {c c' : ProcMem} {ins : Inst} (hE : EntriesMarked c.mm)
    (hstep : InstStep uninit c ins c') :
    c'.mram.freeFpList = c.mram.freeFpList.drop (ramTaken c ins) ∧
      c'.activeMswp.freeFpList = c.activeMswp.freeFpList.drop (swapTaken c ins) := by
  obtain ⟨n, d, he⟩ := hstep
  change Drained c ins c'
  cases execInst_call he with
  | «calc» hop =>
    exact Drained.idle (by rw [instGrowth, hop]) (by rw [instTouch, hop]) rfl rfl
  | alloc hop ha => exact alloc_drained hop ha
  | free hop ha =>
    have hg : instGrowth c ins = none := by rw [instGrowth, hop]
    have ht : instTouch c ins = none := by rw [instTouch, hop]
    obtain ⟨_, rfl⟩ | ⟨k, vma0, next, _, _, _, rfl⟩ := free_cases ha
    · exact Drained.idle hg ht rfl rfl
    · exact Drained.idle hg ht rfl rfl
  | readRefused hop hr =>
    exact Drained.idle (by rw [instGrowth, hop]) (instTouch_read hop hr) rfl rfl
  | @read addr hop hr =>
    refine @Drained.touched uninit _ _ _ _ hE (by rw [instGrowth, hop])
      (instTouch_read hop hr) ?_ ?_
    · rw [pgGetval_snd]
    · rw [pgGetval_snd]
  | writeRefused hop hr =>
    exact Drained.idle (by rw [instGrowth, hop]) (instTouch_write hop hr) rfl rfl
  | @write addr hop hr =>
    obtain ⟨mram, hsame, hw⟩ := pgSetval_frames uninit c addr (ins.arg0.setWidth 8)
    refine @Drained.touched uninit _ _ _ _ hE (by rw [instGrowth, hop])
      (instTouch_write hop hr) ?_ ?_
    · rw [hw]
      exact hsame.freeFpList
    · rw [hw]
  | syscall hop => exact libsyscall_drained hop

/-! ## All processes -/

variable [DecidableEq ι]

/-- What an instruction keeps of the memory manager of its process, it keeps of all. -/
theorem forall_mm_step {P : MmStruct → Prop}
    (hinst : ∀ c ins c', P c.mm → InstStep uninit c ins c' → P c'.mm) {s s' : SharedMem ι}
    {op : SharedOp ι} (hs : ∀ i, P (s.mm i)) (h : SharedStep uninit s op s') (i : ι) :
    P (s'.mm i) := by
  obtain ⟨c', hstep, rfl⟩ := h
  dsimp only [SharedMem.store]
  by_cases hi : i = op.proc
  · rw [hi, Function.update_self]
    exact hinst _ _ _ (hs op.proc) hstep
  · rw [Function.update_of_ne hi]
    exact hs i

/-- Every process has the one area that grows from address zero. -/
theorem heapArea_of_reachable {s : SharedMem ι} (h : Reachable SharedBoot (SharedStep uninit) s)
    (i : ι) : ∃ vma, HeapArea (s.mm i) vma := by
  refine h.invariant (fun s => ∀ i, ∃ vma, HeapArea (s.mm i) vma) (fun s hs i => ?_)
    (fun s op s' hs hstep => ?_) i
  · rw [hs.1 i]
    exact ⟨_, heapArea_initMm⟩
  · refine @forall_mm_step uninit ι _ (fun mm => ∃ vma, HeapArea mm vma) ?_ s s' op hs hstep
    rintro c ins c' ⟨vma, hv⟩ hinst
    exact hv.inst hinst

/-- An instruction leaves of both free lists what it did not take. -/
theorem sharedStep_free {s s' : SharedMem ι} {op : SharedOp ι}
    (hE : ∀ i, EntriesMarked (s.mm i)) (h : SharedStep uninit s op s') :
    s'.mram.freeFpList = s.mram.freeFpList.drop (ramTaken (s.view op.proc op.listed) op.ins) ∧
      s'.activeMswp.freeFpList =
        s.activeMswp.freeFpList.drop (swapTaken (s.view op.proc op.listed) op.ins) := by
  obtain ⟨c', hstep, rfl⟩ := h
  exact inst_free (hE op.proc) hstep

/-- RAM lists a rest of what `init_memphy` has listed, in the same order. -/
theorem mram_suffix_of_reachable {s : SharedMem ι}
    (h : Reachable SharedBoot (SharedStep uninit) s) :
    ∃ size flag, s.mram.freeFpList <:+ (initMemphy size flag).freeFpList := by
  refine (h.invariant (fun s => (∀ i, EntriesMarked (s.mm i)) ∧
    ∃ size flag, s.mram.freeFpList <:+ (initMemphy size flag).freeFpList) ?_ ?_).2
  · rintro s ⟨hmm, ⟨size, flag, hr⟩, _⟩
    refine ⟨fun i => ?_, size, flag, ?_⟩
    · rw [hmm i]
      exact entriesMarked_initMm
    · rw [hr]
  · rintro s op s' ⟨hE, size, flag, hsuf⟩ hstep
    have hE' := forall_mm_step
      (fun _ _ _ hc hinst => entryInvariant_entriesMarked.inst hc hinst) hE hstep
    refine ⟨hE', size, flag, ?_⟩
    rw [(sharedStep_free hE hstep).1]
    exact (List.drop_suffix _ _).trans hsuf

/-- RAM never has more free frames than an `int` can count. -/
theorem mram_free_length_of_reachable {s : SharedMem ι}
    (h : Reachable SharedBoot (SharedStep uninit) s) : s.mram.freeFpList.length < 2 ^ 31 := by
  obtain ⟨size, flag, hsuf⟩ := mram_suffix_of_reachable h
  exact hsuf.length_le.trans_lt (initMemphy_freeFpList_length size flag)

end OsSim.MemoryDrain
