import OsSim.MemoryBytes
import OsSim.MemoryFrames
import OsSim.MemoryRegions

/-!
# Read after write

A run of one process is traced by the list of bytes it has written to its live
regions. While no page is evicted, no frame or entry is used twice and no two
written bytes agree in their low eight bits within a page, every written byte
is where a read looks for it. A read delivers it sign extended.
-/

namespace OsSim.MemoryReadBack

open MemoryWords MemoryDevice MemoryPageTable MemoryMapping MemoryPaging MemoryLibrary
open MemoryEffects MemoryInstruction MemoryBytes MemoryFrames MemoryRegions RunSteps

variable {uninit : Addr → Byte}

/-- A byte written to a live region. -/
structure Written where
  /-- The symbol. -/
  sym : Fin 30
  /-- The offset in its region. -/
  offset : Addr
  /-- The byte. -/
  data : Byte
  deriving DecidableEq

/-- The virtual address of a written byte. -/
def Written.addr (x : Written) (mm : MmStruct) : Addr := (mm.symrgtbl x.sym).rgStart + x.offset

/-- The offset is one of the region of the symbol. -/
def InRange (mm : MmStruct) (k : Fin 30) (offset : Addr) : Prop :=
  (mm.symrgtbl k).rgStart.toNat + offset.toNat < (mm.symrgtbl k).rgEnd.toNat

instance (mm : MmStruct) (k : Fin 30) (offset : Addr) : Decidable (InRange mm k offset) :=
  Nat.decLt _ _

/-- The table entry a symbol id selects. -/
def slotOf (rgid : CInt) : Option (Fin 30) := (symrgSlot rgid).toOption

/-- The bytes that stay written when the region of a symbol ends. -/
def forget (rgid : CInt) (l : List Written) : List Written :=
  l.filter fun x => slotOf rgid ≠ some x.sym

/-- The written bytes after a successful write, which counts if it is in range. -/
def record (mm : MmStruct) (rgid : CInt) (offset : Addr) (data : Byte) (l : List Written) :
    List Written :=
  match slotOf rgid with
  | none => l
  | some k =>
    if InRange mm k offset then
      ⟨k, offset, data⟩ :: l.filter fun x => ¬(x.sym = k ∧ x.offset = offset)
    else l

/-- The written bytes after an instruction that returned `status`. -/
def nextWritten (mm : MmStruct) (ins : Inst) (status : Int) (l : List Written) : List Written :=
  if status ≠ 0 then l
  else
    match ins.opcode with
    | .alloc => forget (toCInt ins.arg1) l
    | .free => forget (toCInt ins.arg0) l
    | .write => record mm (toCInt ins.arg1) ins.arg2 (ins.arg0.setWidth 8) l
    | _ => l

/-- The memory of a process and what it has written to its live regions. -/
structure Traced where
  /-- The memory. -/
  mem : ProcMem
  /-- The last byte written to each offset of a live region. -/
  written : List Written

/-- One instruction that does not run into undefined behaviour. -/
def TracedStep (uninit : Addr → Byte) (s : Traced) (ins : Inst) (s' : Traced) : Prop :=
  ∃ n d, execInst uninit s.mem ins = .ok (n, d, s'.mem) ∧
    s'.written = nextWritten s.mem.mm ins n s.written

/-- Every read of a written byte that returns 0 delivers that byte, zero extended. -/
def ReadsBack (uninit : Addr → Byte) (s : Traced) : Prop :=
  ∀ x ∈ s.written, ∀ w c', libread uninit s.mem (BitVec.ofNat 32 x.sym) x.offset =
    .ok (0, some w, c') → w = x.data.setWidth 32

/-! ## The condition -/

/-- A growth maps no page whose entry a written byte of another region needs. -/
def GrowthKeeps (s : Traced) (ins : Inst) : Prop :=
  ∀ g, instGrowth s.mem ins = some g → loopCount g.pages ≤ s.mem.mram.freeFpList.length →
    ∀ j < loopCount g.pages, ∀ x ∈ forget (toCInt ins.arg1) s.written,
      ptIndex (rangePage g.start j) ≠ pageIndex (x.addr s.mem.mm)

/-- A write whose offset does not wrap, whose page is present or can get a frame,
and that shares no page entry and low eight bits with a byte at another address. -/
def WriteSafe (s : Traced) (ins : Inst) : Prop :=
  ins.opcode = .write → ∀ a, instTouch s.mem ins = some a → ins.arg2 ≤ a ∧
    (Present (s.mem.mm.entry (pageIndex a)) ∨ s.mem.mram.freeFpList ≠ []) ∧
    ∀ x ∈ s.written, x.addr s.mem.mm ≠ a → pageIndex (x.addr s.mem.mm) = pageIndex a →
      (x.addr s.mem.mm).toNat % 256 ≠ a.toNat % 256

/-- The condition on one instruction and the state before it. -/
def stepSafe (s : Traced) (ins : Inst) : Prop :=
  memoryOp ins ∧ frameSafe s.mem ins ∧
    (ins.opcode = .alloc → OpFits s.mem (.alloc 0 (toCInt ins.arg1) ins.arg0)) ∧
    GrowthKeeps s ins ∧ WriteSafe s ins

/-! ## Entries that stay -/

/-- An access that does not evict changes no present entry. -/
theorem pageAccess_keeps {c c' : ProcMem} {pgn : Addr} (h : PageAccess c pgn c')
    (hne : ¬Present (c.mm.entry (ptIndex pgn)) → ¬(c.mram.freeFpList = [] ∧
      c.mm.fifoPgn ≠ [] ∧ c.activeMswp.freeFpList ≠ [])) {i : Fin 512}
    (hp : Present (c.mm.entry i)) : c'.mm.entry i = c.mm.entry i := by
  cases h with
  | present => rfl
  | free hn hf =>
    dsimp only
    rw [mapPage_entry, Function.update_of_ne]
    rintro rfl
    exact hn hp
  | noVictim => rfl
  | lostVictim => rfl
  | evict hn hf hv hs =>
    refine absurd ⟨hf, ?_, ?_⟩ (hne hn)
    · rw [hv]
      exact List.append_ne_nil_of_right_ne_nil _ (List.cons_ne_nil _ _)
    · rw [hs]
      exact List.cons_ne_nil _ _

/-- Mapping a range changes no entry outside it. -/
theorem vmapPageRange_keeps (mm : MmStruct) (start : Addr) {pgnum : CInt} {frames : List Addr}
    (hlen : frames.length = loopCount pgnum) {i : Fin 512}
    (hi : ∀ j < loopCount pgnum, ptIndex (rangePage start j) ≠ i) :
    (vmapPageRange mm start pgnum frames).2.entry i = mm.entry i := by
  unfold vmapPageRange
  refine vmapPageRangeLoop_induct (fun k _ m =>
    (∀ j < k, ptIndex (rangePage start j) ≠ i) → m.entry i = mm.entry i) ?_ hlen
    (fun _ => rfl) ?_
  · intro k f fs m hm hk
    rw [mapPage_entry, Function.update_of_ne (hk k (Nat.lt_succ_self k)).symm]
    exact hm fun j hj => hk j (Nat.lt_succ_of_lt hj)
  · rw [Nat.zero_add]
    exact hi

/-- An instruction under the condition changes no present entry outside the range
it grows by. -/
theorem entry_kept {c c' : ProcMem} {ins : Inst} {n : Int} {d : Option UInt}
    (h : execInst uninit c ins = .ok (n, d, c')) (hop : memoryOp ins = true)
    (hs : frameSafe c ins) {i : Fin 512} (hp : Present (c.mm.entry i))
    (hg : ∀ g, instGrowth c ins = some g → loopCount g.pages ≤ c.mram.freeFpList.length →
      ∀ j < loopCount g.pages, ptIndex (rangePage g.start j) ≠ i) :
    c'.mm.entry i = c.mm.entry i := by
  cases execInst_effect h with
  | quiet hq _ _ =>
    dsimp only
    rw [hq.entry]
  | @grow g mm hgrow hq =>
    have hsame := instGrowth_same hgrow
    dsimp only
    rw [hq.entry, vmMapRam_eq]
    split
    · next hlen =>
      dsimp only
      rw [vmapPageRange_keeps _ _ (List.length_take_of_le hlen) (hg g hgrow hlen), hsame.entry]
    · dsimp only
      rw [hsame.entry]
  | @touch a mram ht _ =>
    exact pageAccess_keeps (pgGetpage_access uninit c (addrPage a)) (fun hn => (hs.2 a ht hn).2) hp
  | memset hsys _ _ =>
    unfold memoryOp at hop
    rw [hsys] at hop
    cases hop

/-! ## Regions that stay -/

/-- A page access neither allocates nor frees. -/
theorem RegionInv_of_sameRegions {c c' : ProcMem} (h : SameRegions c c')
    (hI : ∃ vma, RegionInv c.mm vma) : ∃ vma, RegionInv c'.mm vma :=
  hI.imp fun _ hv => hv.congr h.mmap h.symrgtbl

/-- A byte write changes no region. -/
theorem pgSetval_regions (c : ProcMem) (addr : Addr) (value : Byte) :
    SameRegions c (pgSetval uninit c addr value).2 := by
  obtain ⟨mram, hf, he⟩ := pgSetval_frames uninit c addr value
  obtain ⟨hs, _⟩ := (pgGetpage_access uninit c (addrPage addr)).sameRegions
  rw [he]
  exact ⟨hs.mmap, hs.symrgtbl, hs.listed, hf.maxsz.trans hs.maxsz, hf.rdmflg.trans hs.rdmflg⟩

/-- The regions a byte read leaves. -/
theorem pgGetval_regions (c : ProcMem) (addr : Addr) (data : Byte) :
    SameRegions c (pgGetval uninit c addr data).2.2 := by
  rw [pgGetval_snd]
  exact (pgGetpage_access uninit c (addrPage addr)).sameRegions.1

/-- A symbol other than the one stored keeps its region. -/
theorem setSymrg_of_ne (mm : MmStruct) {j k : Fin 30} (h : j ≠ k) (rg : VmRg) :
    (mm.setSymrg k rg).symrgtbl j = mm.symrgtbl j := by
  dsimp only [MmStruct.setSymrg]
  rw [Function.update_of_ne h]

/-- What is kept when a region ends belongs to the other symbols. -/
theorem mem_forget {rgid : CInt} {k : Fin 30} (hk : symrgSlot rgid = .ok k) {l : List Written}
    {x : Written} (hx : x ∈ forget rgid l) : x ∈ l ∧ x.sym ≠ k := by
  obtain ⟨hl, hne⟩ := List.mem_filter.mp hx
  refine ⟨hl, ?_⟩
  rintro rfl
  unfold slotOf at hne
  rw [hk] at hne
  exact of_decide_eq_true hne rfl

/-- The symbols whose written bytes are kept keep their regions. -/
theorem symrgtbl_kept {c c' : ProcMem} {ins : Inst} {n : Int} {d : Option UInt}
    (h : execInst uninit c ins = .ok (n, d, c')) (hop : memoryOp ins = true) {l : List Written}
    {x : Written} (hx : x ∈ nextWritten c.mm ins n l) (hw : ins.opcode ≠ .write) :
    x ∈ l ∧ c'.mm.symrgtbl x.sym = c.mm.symrgtbl x.sym := by
  unfold nextWritten at hx
  cases execInst_call h with
  | «calc» hc =>
    unfold memoryOp at hop
    rw [hc] at hop
    cases hop
  | alloc hc ha =>
    rw [hc] at hx
    obtain ⟨rg, k, _, hk, rfl, rfl⟩ | ⟨_, _, rfl, rfl⟩ | ⟨i, cur, g, k, _, _, _, hg, hk, rfl, rfl⟩ :=
      alloc_cases ha
    · obtain ⟨hl, hsym⟩ := mem_forget hk hx
      refine ⟨hl, ?_⟩
      dsimp only
      rw [setSymrg_of_ne _ hsym, (afterWalk_same _ _ _).2]
    · refine ⟨hx, ?_⟩
      dsimp only
      rw [(afterWalk_same _ _ _).2]
    · obtain ⟨hl, hsym⟩ := mem_forget hk hx
      refine ⟨hl, ?_⟩
      dsimp only
      rw [setSymrg_of_ne _ hsym, (vmMapRam_regions _ _ _).2, (growthOf_some hg).2,
        (afterWalk_same _ _ _).2]
  | free hc ha =>
    rw [hc] at hx
    obtain ⟨rfl, rfl⟩ | ⟨k, vma0, next, hk, _, rfl, rfl⟩ := free_cases ha
    · exact ⟨hx, rfl⟩
    · obtain ⟨hl, hsym⟩ := mem_forget hk hx
      refine ⟨hl, ?_⟩
      dsimp only
      split
      · exact setSymrg_of_ne _ hsym _
      · exact setSymrg_of_ne _ hsym _
  | readRefused hc _ =>
    rw [hc] at hx
    exact ⟨hx, rfl⟩
  | @read addr hc _ =>
    rw [hc] at hx
    exact ⟨hx, congrFun (pgGetval_regions c addr _).symrgtbl _⟩
  | writeRefused hc _ => exact absurd hc hw
  | write hc _ => exact absurd hc hw
  | syscall hc =>
    unfold memoryOp at hop
    rw [hc] at hop
    cases hop

/-- Every memory instruction keeps the regions of the process in order. -/
theorem regionInv_kept {c c' : ProcMem} {ins : Inst} {n : Int} {d : Option UInt}
    (h : execInst uninit c ins = .ok (n, d, c')) (hop : memoryOp ins = true)
    (hfit : ins.opcode = .alloc → OpFits c (.alloc 0 (toCInt ins.arg1) ins.arg0))
    (hI : ∃ vma, RegionInv c.mm vma) : ∃ vma, RegionInv c'.mm vma := by
  cases execInst_call h with
  | «calc» _ => exact hI
  | alloc hc ha => exact regionInv_step hI (hfit hc) ⟨_, ha⟩
  | free _ ha =>
    obtain ⟨vma, hv⟩ := hI
    obtain ⟨vma', hv', _⟩ := hv.released ha
    exact ⟨vma', hv'⟩
  | readRefused _ _ => exact hI
  | @read addr _ _ => exact RegionInv_of_sameRegions (pgGetval_regions c addr _) hI
  | writeRefused _ _ => exact hI
  | @write addr _ _ => exact RegionInv_of_sameRegions (pgSetval_regions c addr _) hI
  | syscall hc =>
    unfold memoryOp at hop
    rw [hc] at hop
    cases hop

/-! ## The invariant -/

/-- A written byte lies where a read looks for it. -/
structure Stored (c : ProcMem) (x : Written) : Prop where
  /-- The offset lies in the region of the symbol. -/
  inRange : InRange c.mm x.sym x.offset
  /-- The page of the byte is present. -/
  present : Present (c.mm.entry (pageIndex (x.addr c.mm)))
  /-- The frame of the page holds the byte. -/
  byte : c.mram.storage (frameAddr (c.mm.entry (pageIndex (x.addr c.mm))) (x.addr c.mm)) = x.data

/-- What every instruction under the condition keeps. -/
structure ReadBackInv (s : Traced) : Prop where
  /-- The regions are disjoint. -/
  region : ∃ vma, RegionInv s.mem.mm vma
  /-- Frames are owned exclusively. -/
  frames : FramesInv (fun _ : Unit => s.mem.mm.entry) s.mem.mram.freeFpList (frameCount s.mem.mram)
  /-- The process is found by its pid. -/
  listed : s.mem.listed = true
  /-- RAM is a random-access device. -/
  rdmflg : s.mem.mram.rdmflg = true
  /-- The written bytes are in place. -/
  stored : ∀ x ∈ s.written, Stored s.mem x

/-- A written byte stays in place if its region, its entry and its cell stay. -/
theorem Stored.congr {c c' : ProcMem} {x : Written} (h : Stored c x)
    (hsym : c'.mm.symrgtbl x.sym = c.mm.symrgtbl x.sym)
    (hentry : c'.mm.entry (pageIndex (x.addr c.mm)) = c.mm.entry (pageIndex (x.addr c.mm)))
    (hbyte : c'.mram.storage (frameAddr (c.mm.entry (pageIndex (x.addr c.mm))) (x.addr c.mm)) =
      c.mram.storage (frameAddr (c.mm.entry (pageIndex (x.addr c.mm))) (x.addr c.mm))) :
    Stored c' x := by
  have haddr : x.addr c'.mm = x.addr c.mm := by
    unfold Written.addr
    rw [hsym]
  refine ⟨?_, ?_, ?_⟩
  · unfold InRange
    rw [hsym]
    exact h.inRange
  · rw [haddr, hentry]
    exact h.present
  · rw [haddr, hentry, hbyte]
    exact h.byte

/-- Symbols whose regions share a byte are the same. -/
theorem RegionInv_sym_eq {mm : MmStruct} (hI : ∃ vma, RegionInv mm vma) {j k : Fin 30} {b : ℕ}
    (hj : b ∈ regionBytes (mm.symrgtbl j)) (hk : b ∈ regionBytes (mm.symrgtbl k)) : j = k := by
  obtain ⟨vma, hv⟩ := hI
  have hpair := (List.pairwise_append.mp hv.regionsOk.disjoint).1
  have hdisj := List.pairwise_ofFn.mp hpair
  rcases lt_trichotomy j k with hlt | rfl | hgt
  · exact absurd hk (Set.disjoint_left.mp (hdisj hlt) hj)
  · rfl
  · exact absurd hj (Set.disjoint_left.mp (hdisj hgt) hk)

/-- An address in range is a byte of its region. -/
theorem mem_regionBytes {mm : MmStruct} {x : Written} (h : InRange mm x.sym x.offset) :
    (x.addr mm).toNat ∈ regionBytes (mm.symrgtbl x.sym) := by
  have hend := (mm.symrgtbl x.sym).rgEnd.isLt
  unfold InRange at h
  unfold Written.addr regionBytes
  rw [BitVec.toNat_add, Nat.mod_eq_of_lt (by omega)]
  exact ⟨Nat.le_add_right _ _, h⟩

/-- Written bytes at one address are the same. -/
theorem written_eq_of_addr {mm : MmStruct} (hI : ∃ vma, RegionInv mm vma) {x y : Written}
    (hx : InRange mm x.sym x.offset) (hy : InRange mm y.sym y.offset)
    (h : x.addr mm = y.addr mm) : x.sym = y.sym ∧ x.offset = y.offset := by
  have hmem := mem_regionBytes hx
  rw [h] at hmem
  have hsym := RegionInv_sym_eq hI hmem (mem_regionBytes hy)
  refine ⟨hsym, ?_⟩
  unfold Written.addr at h
  rw [hsym] at h
  exact add_left_cancel h

/-! ## The bounds check -/

/-- The address the bounds check lets through. -/
theorem regionAddr_some {c : ProcMem} {vmaid rgid : CInt} {offset addr : Addr}
    (h : regionAddr c vmaid rgid offset = .ok (some addr)) : ∃ k, symrgSlot rgid = .ok k ∧
      addr = (c.mm.symrgtbl k).rgStart + offset ∧ addr < (c.mm.symrgtbl k).rgEnd := by
  unfold regionAddr getSymrgByid at h
  split at h
  · next p v hp hv =>
    split at hp
    · cases hp
    · obtain rfl := Option.some.inj hp
      obtain ⟨k, hk, h⟩ := ok_of_bind h
      dsimp only at h
      split at h
      · cases h
      · next hlt =>
        cases h
        exact ⟨k, hk, rfl, BitVec.not_le.mp hlt⟩
  · cases h

/-- An offset in range passes the bounds check. -/
theorem regionAddr_of_inRange {c : ProcMem} (hI : ∃ vma, RegionInv c.mm vma) {x : Written}
    (h : InRange c.mm x.sym x.offset) :
    regionAddr c 0 (BitVec.ofNat 32 x.sym) x.offset = .ok (some (x.addr c.mm)) := by
  obtain ⟨vma, hv⟩ := hI
  have hvma : getVmaByNum c.mm 0 = some (0, vma) := by
    unfold getVmaByNum
    rw [hv.single, vmaWalk, hv.vmId]
    exact if_neg (by decide)
  have hval : (BitVec.ofNat 32 x.sym).toNat = x.sym := by
    rw [BitVec.toNat_ofNat]
    exact Nat.mod_eq_of_lt (by omega)
  have hsym : getSymrgByid (BitVec.ofNat 32 x.sym) = some (BitVec.ofNat 32 x.sym) := by
    have hall : ∀ k : Fin 30, getSymrgByid (BitVec.ofNat 32 k) = some (BitVec.ofNat 32 k) := by
      decide
    exact hall x.sym
  have hslot : symrgSlot (BitVec.ofNat 32 x.sym) = .ok x.sym := by
    unfold symrgSlot
    rw [dif_pos (by omega)]
    exact congrArg Except.ok (Fin.ext hval)
  have hlt := (mem_regionBytes h).2
  unfold regionAddr
  rw [hsym, hvma]
  dsimp only
  rw [hslot]
  exact if_neg (BitVec.not_le.mpr hlt)

/-! ## The step and the run -/

/-- Only an allocation that succeeds grows the heap. -/
theorem status_of_growth {c c' : ProcMem} {ins : Inst} {n : Int} {d : Option UInt} {g : Growth}
    (h : execInst uninit c ins = .ok (n, d, c')) (hop : memoryOp ins = true)
    (hg : instGrowth c ins = some g) : ins.opcode = .alloc ∧ n = 0 := by
  have halloc : ins.opcode = .alloc := by
    unfold instGrowth at hg
    unfold memoryOp at hop
    cases hc : ins.opcode <;> rw [hc] at hg hop <;> first | rfl | cases hg | cases hop
  refine ⟨halloc, ?_⟩
  unfold instGrowth at hg
  rw [halloc] at hg
  dsimp only at hg
  split at hg
  · next hcond =>
    cases execInst_call h with
    | alloc _ ha =>
      obtain ⟨rg, k, hf, _⟩ | ⟨_, hno, _⟩ | ⟨i, cur, g', k, _, _, _, _, _, rfl, _⟩ :=
        alloc_cases ha
      · rw [hcond.2] at hf
        cases hf
      · rcases hno with hl | hnone
        · rw [hcond.1] at hl
          cases hl
        · rw [hg] at hnone
          cases hnone
      · rfl
    | «calc» hc | free hc | readRefused hc | read hc | writeRefused hc | write hc | syscall hc =>
      cases halloc.symm.trans hc
  · cases hg

/-- Reads, allocations and releases keep every byte that stays written. -/
theorem stored_kept {s : Traced} {c' : ProcMem} {ins : Inst} {n : Int} {d : Option UInt}
    (hI : ReadBackInv s) (hsafe : stepSafe s ins)
    (h : execInst uninit s.mem ins = .ok (n, d, c')) (hw : ins.opcode ≠ .write) {x : Written}
    (hx : x ∈ nextWritten s.mem.mm ins n s.written) : Stored c' x := by
  obtain ⟨hop, hframe, _, hgrow, _⟩ := hsafe
  obtain ⟨hl, hsym⟩ := symrgtbl_kept h hop hx hw
  have hst := hI.stored x hl
  have hstore : c'.mram.storage = s.mem.mram.storage := by
    cases execInst_store h with
    | unchanged hs => exact hs
    | stored hc _ _ _ => exact absurd hc hw
    | raw hr _ =>
      unfold memoryOp at hop
      rw [hr.1] at hop
      cases hop
  refine hst.congr hsym (entry_kept h hop hframe hst.present ?_) (by rw [hstore])
  intro g hg hlen j hj
  obtain ⟨hc, rfl⟩ := status_of_growth h hop hg
  unfold nextWritten at hx
  rw [if_neg (not_not.mpr rfl), hc] at hx
  exact hgrow g hg hlen j hj x hx

/-- An address the bounds check lets through is in range unless the sum wrapped. -/
theorem inRange_of_le {mm : MmStruct} {k : Fin 30} {offset a : Addr}
    (ha : a = (mm.symrgtbl k).rgStart + offset) (hend : a < (mm.symrgtbl k).rgEnd)
    (hwrap : offset ≤ a) : InRange mm k offset := by
  have hlt := (mm.symrgtbl k).rgStart.isLt
  rw [ha, BitVec.le_def, BitVec.toNat_add] at hwrap
  rw [ha, BitVec.lt_def, BitVec.toNat_add] at hend
  unfold InRange
  omega

/-- The bytes that count after a write in range: the new one and those of other
symbols or offsets. -/
theorem mem_record {mm : MmStruct} {rgid : CInt} {k : Fin 30} {offset : Addr} {data : Byte}
    {l : List Written} {x : Written} (hk : symrgSlot rgid = .ok k) (hrange : InRange mm k offset)
    (hx : x ∈ record mm rgid offset data l) :
    x = ⟨k, offset, data⟩ ∨ (x ∈ l ∧ ¬(x.sym = k ∧ x.offset = offset)) := by
  have hslot : slotOf rgid = some k := by
    unfold slotOf
    rw [hk]
    rfl
  unfold record at hx
  rw [hslot] at hx
  dsimp only at hx
  rw [if_pos hrange] at hx
  rcases List.mem_cons.mp hx with hx | hx
  · exact Or.inl hx
  · obtain ⟨hl, hne⟩ := List.mem_filter.mp hx
    exact Or.inr ⟨hl, of_decide_eq_true hne⟩

/-- The byte just written is in place. -/
theorem stored_new {c : ProcMem} {k : Fin 30} {offset a : Addr} {data : Byte}
    (haddr : a = (c.mm.symrgtbl k).rgStart + offset) (hrange : InRange c.mm k offset)
    (hpres : Present ((pgSetval uninit c a data).2.mm.entry (pageIndex a)))
    (hstore : (pgSetval uninit c a data).2.mram.storage = Function.update c.mram.storage
      (frameAddr ((pgSetval uninit c a data).2.mm.entry (pageIndex a)) a) data) :
    Stored (pgSetval uninit c a data).2 ⟨k, offset, data⟩ := by
  have hregions := @pgSetval_regions uninit c a data
  have haddr' : (Written.mk k offset data).addr (pgSetval uninit c a data).2.mm = a := by
    unfold Written.addr
    rw [hregions.symrgtbl, haddr]
  refine ⟨?_, ?_, ?_⟩
  · unfold InRange
    rw [hregions.symrgtbl]
    exact hrange
  · rw [haddr']
    exact hpres
  · rw [haddr', hstore, Function.update_self]

/-- A byte stays in place where the write goes to another cell: to another frame, or to
other low bits. -/
theorem stored_other {c : ProcMem} {x : Written} {a : Addr} {data : Byte} {n : ℕ}
    (hst : Stored c x)
    (hf : FramesInv (fun _ : Unit => (pgSetval uninit c a data).2.mm.entry)
      (pgSetval uninit c a data).2.mram.freeFpList n)
    (hentry : (pgSetval uninit c a data).2.mm.entry (pageIndex (x.addr c.mm)) =
      c.mm.entry (pageIndex (x.addr c.mm)))
    (hpres : Present ((pgSetval uninit c a data).2.mm.entry (pageIndex a)))
    (hstore : (pgSetval uninit c a data).2.mram.storage = Function.update c.mram.storage
      (frameAddr ((pgSetval uninit c a data).2.mm.entry (pageIndex a)) a) data)
    (hfar : pageIndex (x.addr c.mm) = pageIndex a →
      (x.addr c.mm).toNat % 256 ≠ a.toNat % 256) : Stored (pgSetval uninit c a data).2 x := by
  have hregions := @pgSetval_regions uninit c a data
  refine hst.congr (congrFun hregions.symrgtbl _) hentry ?_
  rw [hstore, Function.update_of_ne]
  intro hcell
  obtain ⟨hfr, hlow⟩ := frameAddr_inj hcell
  have hpres' := hst.present
  rw [← hentry] at hfr hpres'
  have hidx := hf.eq_of_frame_eq (i := ()) (j := ()) hpres' hpres hfr
  exact hfar (congrArg Prod.snd hidx) hlow

/-- A write stores its byte and keeps all others. -/
theorem stored_write {s : Traced} {c' : ProcMem} {ins : Inst} {n : Int} {d : Option UInt}
    (hI : ReadBackInv s) (hsafe : stepSafe s ins)
    (h : execInst uninit s.mem ins = .ok (n, d, c')) (hw : ins.opcode = .write)
    (hf : FramesInv (fun _ : Unit => c'.mm.entry) c'.mram.freeFpList (frameCount s.mem.mram))
    {x : Written} (hx : x ∈ nextWritten s.mem.mm ins n s.written) : Stored c' x := by
  have hall := h
  obtain ⟨hop, hframe, _, _, hsafe⟩ := hsafe
  cases execInst_call h with
  | writeRefused _ _ =>
    unfold nextWritten at hx
    rw [if_pos (by decide)] at hx
    exact hI.stored x hx
  | @write a _ ha =>
    obtain ⟨hwrap, hframeFree, hfar⟩ := hsafe hw a (instTouch_write hw ha)
    obtain ⟨k, hk, haddr, hend⟩ := regionAddr_some ha
    have hrange := inRange_of_le haddr hend hwrap
    have hfound := @accessPage_found _ _ s.mem.activeMswp.freeFpList _ hframeFree
    have hpres := @pgSetval_present uninit s.mem a (ins.arg0.setWidth 8) hfound
    have hstore := @pgSetval_found uninit s.mem a (ins.arg0.setWidth 8) hI.listed hI.rdmflg
      hfound (frameAddr_lt_maxsz (hf.frame_lt (i := ()) hpres) a)
    unfold nextWritten at hx
    rw [if_neg (not_not.mpr rfl), hw] at hx
    rcases mem_record hk hrange hx with rfl | ⟨hl, hne⟩
    · exact stored_new haddr hrange hpres hstore
    · -- another byte: its cell is a different one
      have hst := hI.stored x hl
      have hnone : instGrowth s.mem ins = none := by
        unfold instGrowth
        rw [hw]
      have hentry := entry_kept hall hop hframe hst.present fun g hg => by
        rw [hnone] at hg
        cases hg
      refine stored_other hst hf hentry hpres hstore fun hpage => ?_
      by_cases hax : x.addr s.mem.mm = a
      · have hsame := written_eq_of_addr hI.region (x := x)
          (y := ⟨k, ins.arg2, ins.arg0.setWidth 8⟩) hst.inRange hrange (hax.trans haddr)
        exact absurd hsame hne
      · exact hfar x hl hax hpage
  | «calc» hc | alloc hc | free hc | readRefused hc | read hc | syscall hc =>
    cases hw.symm.trans hc

/-- Every instruction under the condition keeps the invariant. -/
theorem readBackInv_step {s s' : Traced} {ins : Inst} (hI : ReadBackInv s)
    (hsafe : stepSafe s ins) (hstep : TracedStep uninit s ins s') : ReadBackInv s' := by
  obtain ⟨n, d, h, hwritten⟩ := hstep
  have hop := hsafe.1
  obtain ⟨hl, hr, hmax⟩ := execInst_devices h
  have hunit : ∀ e : Fin 512 → Addr, Function.update (fun _ : Unit => s.mem.mm.entry) () e =
      fun _ => e := fun e => funext fun _ => Function.update_self _ _ _
  have hframes : FramesInv (Function.update (fun _ : Unit => s.mem.mm.entry) () s.mem.mm.entry)
      s.mem.mram.freeFpList (frameCount s.mem.mram) := by
    rw [hunit]
    exact hI.frames
  obtain ⟨hf, _⟩ := framesInv_inst hframes (mapIdle_of_memoryOp hop) hsafe.2.1 ⟨n, d, h⟩
  rw [hunit] at hf
  refine ⟨regionInv_kept h hop hsafe.2.2.1 hI.region, ?_, hl.trans hI.listed, hr.trans hI.rdmflg,
    fun x hx => ?_⟩
  · unfold frameCount
    rw [hmax]
    exact hf
  · rw [hwritten] at hx
    by_cases hw : ins.opcode = .write
    · exact stored_write hI hsafe h hw hf hx
    · exact stored_kept hI hsafe h hw hx

/-- The process starts with the invariant. -/
theorem readBackInv_boot (memramsz memswpsz : Addr) :
    ReadBackInv ⟨bootMem memramsz memswpsz, []⟩ := by
  have hframes : SharedMem.Inv (⟨fun _ => initMm, initMemphy memramsz true,
      initMemphy memswpsz true⟩ : SharedMem Unit) :=
    inv_of_sharedBoot ⟨fun _ => rfl, ⟨_, _, rfl⟩, ⟨_, _, rfl⟩⟩
  exact ⟨⟨_, regionInv_initMm⟩, hframes, rfl, rfl, fun x hx => nomatch hx⟩

/-- Sign and zero extension of a byte agree below 128. -/
theorem signExtend_eq_setWidth_iff (v : Byte) :
    v.signExtend 32 = v.setWidth 32 ↔ v.toNat < 128 := by
  have hv := v.isLt
  rw [← BitVec.toNat_inj, BitVec.toNat_signExtend, BitVec.msb_eq_decide]
  constructor
  · intro h
    by_contra hge
    rw [if_pos (decide_eq_true (by omega))] at h
    omega
  · intro h
    rw [if_neg (fun hm => absurd (of_decide_eq_true hm) (by omega)), Nat.add_zero]

/-- After any instructions that all meet the condition, every read of a written
byte returns 0 and delivers the byte, zero extended exactly if it is below 128. -/
theorem read_back {memramsz memswpsz : Addr} {s : Traced} {instrs : List Inst}
    (h : Run (Guarded stepSafe (TracedStep uninit)) ⟨bootMem memramsz memswpsz, []⟩ instrs s) :
    ∀ x ∈ s.written, ∃ w, libread uninit s.mem (BitVec.ofNat 32 x.sym) x.offset =
      .ok (0, some w, s.mem) ∧ (w = x.data.setWidth 32 ↔ x.data.toNat < 128) := by
  intro x hx
  have hI := h.invariant ReadBackInv (fun _ _ _ hI hstep => readBackInv_step hI hstep.1 hstep.2)
    (readBackInv_boot memramsz memswpsz)
  have hst := hI.stored x hx
  have hbound := frameAddr_lt_maxsz (hI.frames.frame_lt (i := ()) hst.present)
    (x.addr s.mem.mm)
  refine ⟨_, libread_of_present (regionAddr_of_inRange hI.region hst.inRange) hst.present, ?_⟩
  rw [if_pos hI.listed, memphyRead_eq_some hI.rdmflg hbound, Option.getD_some, hst.byte]
  exact signExtend_eq_setWidth_iff x.data

/-! ## Two regions of one process -/

instance (s : Traced) (ins : Inst) : Decidable (GrowthKeeps s ins) :=
  haveI (g : Growth) (l : List Written) : Decidable (∀ j < loopCount g.pages, ∀ x ∈ l,
      ptIndex (rangePage g.start j) ≠ pageIndex (x.addr s.mem.mm)) :=
    haveI (j : ℕ) : Decidable (∀ x ∈ l,
        ptIndex (rangePage g.start j) ≠ pageIndex (x.addr s.mem.mm)) := List.decidableBAll _ l
    Nat.decidableBallLT _ _
  decidableForallSome _ _

instance (s : Traced) (ins : Inst) : Decidable (WriteSafe s ins) :=
  haveI (a : Addr) : Decidable (∀ x ∈ s.written, x.addr s.mem.mm ≠ a →
      pageIndex (x.addr s.mem.mm) = pageIndex a →
        (x.addr s.mem.mm).toNat % 256 ≠ a.toNat % 256) := List.decidableBAll _ _
  haveI : Decidable (∀ a, instTouch s.mem ins = some a → ins.arg2 ≤ a ∧
      (Present (s.mem.mm.entry (pageIndex a)) ∨ s.mem.mram.freeFpList ≠ []) ∧
      ∀ x ∈ s.written, x.addr s.mem.mm ≠ a → pageIndex (x.addr s.mem.mm) = pageIndex a →
        (x.addr s.mem.mm).toNat % 256 ≠ a.toNat % 256) := decidableForallSome _ _
  inferInstanceAs (Decidable (_ → _))

instance (s : Traced) (ins : Inst) : Decidable (stepSafe s ins) :=
  inferInstanceAs (Decidable (_ ∧ _))

/-- The memory and the written bytes after an instruction, computed. -/
def tracedNext (uninit : Addr → Byte) (s : Traced) (ins : Inst) : Option Traced :=
  (execInst uninit s.mem ins).toOption.map fun r =>
    ⟨r.2.2, nextWritten s.mem.mm ins r.1 s.written⟩

theorem tracedStep_of_tracedNext (uninit : Addr → Byte) (s : Traced) (ins : Inst) (s' : Traced)
    (h : tracedNext uninit s ins = some s') : TracedStep uninit s ins s' := by
  obtain ⟨r, he, rfl⟩ := exists_ok_of_map h
  exact ⟨r.1, r.2.1, he, rfl⟩

/-- Two regions, writes to both and a release. -/
def twoRegions : List Inst :=
  [⟨.alloc, 300, 0, 0, 0⟩, ⟨.alloc, 5000, 1, 0, 0⟩, ⟨.write, 100, 0, 20, 0⟩,
    ⟨.write, 7, 1, 4100, 0⟩, ⟨.alloc, 40, 2, 0, 0⟩, ⟨.write, 9, 2, 39, 0⟩, ⟨.free, 0, 0, 0, 0⟩]

/-- The bytes of the regions that are left are read back. -/
theorem read_back_twoRegions : ∃ s,
    Run (Guarded stepSafe (TracedStep fun _ => 0)) ⟨bootMem 16384 0, []⟩ twoRegions s ∧
      s.written = [⟨2, 39, 9⟩, ⟨1, 4100, 7⟩] ∧
      ∀ x ∈ s.written, ∃ w, libread (fun _ => 0) s.mem (BitVec.ofNat 32 x.sym) x.offset =
        .ok (0, some w, s.mem) ∧ (w = x.data.setWidth 32 ↔ x.data.toNat < 128) := by
  obtain ⟨s, hrun, hf⟩ := exists_run_of_map stepSafe (tracedStep_of_tracedNext fun _ => 0)
    ⟨bootMem 16384 0, []⟩ twoRegions Traced.written [⟨2, 39, 9⟩, ⟨1, 4100, 7⟩] rfl
  exact ⟨s, hrun, hf, read_back hrun⟩

/-- One region, and two writes to it 256 bytes apart. -/
def farApart : List Inst :=
  [⟨.alloc, 300, 0, 0, 0⟩, ⟨.write, 100, 0, 0, 0⟩, ⟨.write, 7, 0, 256, 0⟩]

/-- Of two writes to one region, 256 bytes apart, the second one replaces the byte of the
first one. -/
theorem not_readsBack_farApart : ∃ s,
    Run (Guarded (fun _ ins => memoryOp ins) (TracedStep fun _ => 0)) ⟨bootMem 16384 0, []⟩
      farApart s ∧ ¬ReadsBack (fun _ => 0) s := by
  obtain ⟨s, hrun, hf⟩ := exists_run_of_map (fun (_ : Traced) ins => memoryOp ins)
    (tracedStep_of_tracedNext fun _ => 0) ⟨bootMem 16384 0, []⟩ farApart
    (fun s => (s.written, (libread (fun _ => 0) s.mem 0 0).toOption.map fun r => (r.1, r.2.1)))
    ([⟨0, 256, 7⟩, ⟨0, 0, 100⟩], some (0, some 7)) rfl
  obtain ⟨hwritten, hread⟩ := Prod.mk.inj hf
  refine ⟨s, hrun, fun hall => ?_⟩
  obtain ⟨⟨n, d, c'⟩, he, hnd⟩ := exists_ok_of_map hread
  cases hnd
  have hmem : (⟨0, 0, 100⟩ : Written) ∈ s.written := by
    rw [hwritten]
    exact List.mem_cons_of_mem _ List.mem_cons_self
  exact absurd (hall _ hmem _ _ he) (by decide)

end OsSim.MemoryReadBack
