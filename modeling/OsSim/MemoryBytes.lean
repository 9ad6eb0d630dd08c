import OsSim.MemoryInstruction

/-!
# Where a byte lies

The physical address of a byte is its frame times 4096 plus the low eight bits
of its virtual address. An instruction stores at most one byte of RAM: a write
stores in the frame of its own page, and only the physical write operation of
the system call stores anywhere else.
-/

namespace OsSim.MemoryBytes

open MemoryWords MemoryDevice MemoryPageTable MemoryMapping MemoryPaging MemoryLibrary
open MemoryEffects MemoryInstruction

variable {uninit : Addr → Byte}

/-- The page-table index of the page an address lies in. -/
def pageIndex (addr : Addr) : Fin 512 := ptIndex (toAddr (addrPage addr))

/-- The physical address of a byte whose page has the given entry. -/
def frameAddr (e addr : Addr) : Addr := byteAddr (pagingFpn (e.setWidth 32)) addr

/-- The index is the page number modulo 512. -/
theorem pageIndex_val (addr : Addr) : (pageIndex addr : ℕ) = addr.toNat / 4096 % 512 := by
  change (toAddr (toCInt (addr >>> 12))).toNat % 512 = _
  unfold toAddr toCInt
  rw [BitVec.toNat_signExtend, BitVec.toNat_setWidth, BitVec.toNat_setWidth,
    BitVec.toNat_ushiftRight, Nat.shiftRight_eq_div_pow]
  split <;> omega

/-- Frame and low eight bits make up the physical address. -/
theorem frameAddr_toNat (e addr : Addr) :
    (frameAddr e addr).toNat = entryFrame e * 4096 + addr.toNat % 256 := by
  have hframe : entryFrame e < 8192 := by
    rw [entryFrame_eq]
    exact Nat.mod_lt _ (by decide)
  have hoff : (toCInt (addr &&& paging64AddrOffstMask)).toNat = addr.toNat % 256 := by
    have h8 : (2 : ℕ) ^ 8 - 1 = 255 := by decide
    unfold toCInt
    rw [paging64AddrOffstMask_eq, BitVec.toNat_setWidth, BitVec.toNat_and]
    change (addr.toNat &&& 255) % 2 ^ 32 = _
    rw [← h8, Nat.and_two_pow_sub_one_eq_mod]
    omega
  have hphys : (getPhyaddr (pagingFpn (e.setWidth 32))
      (toCInt (addr &&& paging64AddrOffstMask))).toNat =
        entryFrame e * 4096 + addr.toNat % 256 := by
    unfold getPhyaddr
    rw [BitVec.toNat_add, hoff, BitVec.toNat_shiftLeft, Nat.shiftLeft_eq]
    change ((entryFrame e * 2 ^ 12) % 2 ^ 32 + _) % 2 ^ 32 = _
    omega
  change (toAddr (getPhyaddr _ (toCInt (addr &&& paging64AddrOffstMask)))).toNat = _
  unfold toAddr
  rw [BitVec.signExtend_eq_setWidth_of_msb_false, BitVec.toNat_setWidth, hphys]
  · omega
  · rw [BitVec.msb_eq_false_iff_two_mul_lt, hphys]
    omega

/-- The physical address of a byte lies in its frame. -/
theorem frameAddr_div (e addr : Addr) : (frameAddr e addr).toNat / 4096 = entryFrame e := by
  rw [frameAddr_toNat]
  omega

/-- A byte of a frame of the device lies in the device. -/
theorem frameAddr_lt_maxsz {mp : MemphyStruct} {e : Addr} (h : entryFrame e < frameCount mp)
    (addr : Addr) : frameAddr e addr < mp.maxsz := by
  unfold frameCount paging64Pagesz at h
  rw [BitVec.lt_def, frameAddr_toNat]
  omega

/-- Two bytes at one physical address are in one frame and agree in their low
eight bits. -/
theorem frameAddr_inj {e e' a a' : Addr} (h : frameAddr e a = frameAddr e' a') :
    entryFrame e = entryFrame e' ∧ a.toNat % 256 = a'.toNat % 256 := by
  have hv := congrArg BitVec.toNat h
  rw [frameAddr_toNat, frameAddr_toNat] at hv
  omega

/-! ## Page accesses as a function -/

/-- What `pg_getpage` does to the memory manager, computed from the memory
manager and the two free lists, and whether it succeeds. -/
def accessPage (mm : MmStruct) (ramFree swpFree : List Addr) (pgn : Addr) : Bool × MmStruct :=
  if Present (mm.entry (ptIndex pgn)) then (true, mm)
  else
    match ramFree with
    | f :: _ => (true, mapPage mm pgn f)
    | [] =>
      match findVictimPage mm.fifoPgn with
      | none => (false, mm)
      | some (v, fifo) =>
        match swpFree with
        | [] => (false, {mm with fifoPgn := fifo})
        | s :: _ => (true, evictedMm mm fifo v s pgn)

/-- The frame number a page access hands out. -/
def accessResult (r : Bool × MmStruct) (pgn : Addr) : Option CInt :=
  if r.1 then some (pagingFpn ((r.2.entry (ptIndex pgn)).setWidth 32)) else none

/-- `pg_getpage` returns and leaves what `accessPage` says. -/
theorem pgGetpage_eq (c : ProcMem) (pgn : CInt) :
    (pgGetpage uninit c pgn).1 = accessResult (accessPage c.mm c.mram.freeFpList
        c.activeMswp.freeFpList (toAddr pgn)) (toAddr pgn) ∧
      (pgGetpage uninit c pgn).2.mm = (accessPage c.mm c.mram.freeFpList
        c.activeMswp.freeFpList (toAddr pgn)).2 := by
  unfold accessPage
  by_cases h : Present (c.mm.entry (ptIndex (toAddr pgn)))
  · rw [pgGetpage_of_present uninit h, if_pos h]
    exact ⟨rfl, rfl⟩
  · rw [pgGetpage_of_not_present uninit h, if_neg h]
    obtain ⟨f, rest, mswp, hf, he⟩ | ⟨hf, hv, he⟩ | ⟨v, fifo, hf, hv, hs, he⟩ |
      ⟨v, fifo, s, rest, mswp, hf, hv, hs, he⟩ := faultPage_cases uninit c pgn
    · rw [hf]
      split
      · next hm => rw [hm] at he; cases he
      · next hm => rw [hm] at he; cases he; exact ⟨rfl, rfl⟩
    · rw [hf, hv, he]
      exact ⟨rfl, rfl⟩
    · rw [hf, findVictimPage_eq_some.mpr hv, hs, he]
      exact ⟨rfl, rfl⟩
    · rw [hf, findVictimPage_eq_some.mpr hv, hs]
      split
      · next hm => rw [hm] at he; cases he
      · next hm => rw [hm] at he; cases he; exact ⟨rfl, rfl⟩

/-- A successful access leaves its page present. -/
theorem present_accessPage {mm : MmStruct} {ramFree swpFree : List Addr} {pgn : Addr}
    (h : (accessPage mm ramFree swpFree pgn).1 = true) :
    Present ((accessPage mm ramFree swpFree pgn).2.entry (ptIndex pgn)) := by
  unfold accessPage at h ⊢
  split
  · next hp => exact hp
  · next hp =>
    rw [if_neg hp] at h
    split
    · rw [mapPage_entry, Function.update_self]
      exact present_entrySetFpn _ _
    · dsimp only at h ⊢
      split
      · next hv => rw [hv] at h; cases h
      · next hv =>
        rw [hv] at h
        dsimp only at h ⊢
        split
        · cases h
        · unfold evictedMm
          rw [mapPage_entry, Function.update_self]
          exact present_entrySetFpn _ _

/-- A successful access hands out the frame of its page's entry. -/
theorem pgGetpage_some {c c' : ProcMem} {pgn fpn : CInt}
    (h : pgGetpage uninit c pgn = (some fpn, c')) :
    Present (c'.mm.entry (ptIndex (toAddr pgn))) ∧
      fpn = pagingFpn ((c'.mm.entry (ptIndex (toAddr pgn))).setWidth 32) := by
  obtain ⟨hr, hm⟩ := @pgGetpage_eq uninit c pgn
  rw [h] at hr hm
  unfold accessResult at hr
  dsimp only at hr hm
  split at hr
  · next ht =>
    rw [hm]
    exact ⟨present_accessPage ht, Option.some.inj hr⟩
  · cases hr

/-! ## Reading a byte of a present page -/

/-- Devices that agree in size, mode and one byte read the same byte at its address. -/
theorem memphyRead_congr {mp mp' : MemphyStruct} {addr : Addr} (hr : mp'.rdmflg = mp.rdmflg)
    (hm : mp'.maxsz = mp.maxsz) (hb : mp'.storage addr = mp.storage addr) :
    memphyRead mp' addr = memphyRead mp addr := by
  unfold memphyRead memphySeqRead
  rw [hr, hm, hb]
  split
  · rfl
  · split <;> rfl

/-- A byte read from a present page takes no fault. -/
theorem pgGetval_of_present {c : ProcMem} {addr : Addr} {data : Byte}
    (hp : Present (c.mm.entry (pageIndex addr))) : pgGetval uninit c addr data =
      match if c.listed then memphyRead c.mram (frameAddr (c.mm.entry (pageIndex addr)) addr)
        else none with
      | none => (-1, data, c)
      | some v => (0, v, c) := by
  rw [pgGetval_eq, pgGetpage_of_present uninit hp]
  rfl

/-- `libread` of a byte whose page is present. -/
theorem libread_of_present {c : ProcMem} {source : UInt} {offset addr : Addr}
    (ha : regionAddr c 0 source offset = .ok (some addr))
    (hp : Present (c.mm.entry (pageIndex addr))) : libread uninit c source offset =
      .ok (0, some (((if c.listed then memphyRead c.mram
        (frameAddr (c.mm.entry (pageIndex addr)) addr) else none).getD
          (uninit offset)).signExtend 32), c) := by
  unfold libread MemoryLibrary.read
  rw [ha]
  dsimp only [bind, Except.bind]
  rw [if_neg (by decide), pgGetval_of_present hp]
  cases (if c.listed then memphyRead c.mram
    (frameAddr (c.mm.entry (pageIndex addr)) addr) else none) <;> rfl

/-! ## What an instruction stores -/

/-- No instruction changes the mode or the size of RAM, or whether the process
is found. -/
theorem execInst_devices {c c' : ProcMem} {ins : Inst} {n : Int} {d : Option UInt}
    (h : execInst uninit c ins = .ok (n, d, c')) :
    c'.listed = c.listed ∧ c'.mram.rdmflg = c.mram.rdmflg ∧ c'.mram.maxsz = c.mram.maxsz := by
  cases execInst_effect h with
  | quiet _ hr _ => exact ⟨rfl, hr.rdmflg, hr.maxsz⟩
  | grow _ _ =>
    rw [vmMapRam_eq]
    split <;> exact ⟨rfl, rfl, rfl⟩
  | @touch addr mram _ hr =>
    obtain ⟨hs, _⟩ := (pgGetpage_access uninit c (addrPage addr)).sameRegions
    exact ⟨hs.listed, hr.rdmflg.trans hs.rdmflg, hr.maxsz.trans hs.maxsz⟩
  | memset _ _ _ => exact ⟨rfl, rfl, rfl⟩

/-- The physical write operation of the system call. -/
def RawWrite (ins : Inst) : Prop :=
  ins.opcode = .syscall ∧ toCInt ins.arg0 = 17 ∧ toCInt ins.arg1 = sysmemIoWrite

/-- What an instruction stores in RAM. -/
inductive StoreEffect (c : ProcMem) (ins : Inst) (c' : ProcMem) : Prop
  /-- Nothing. -/
  | unchanged (hs : c'.mram.storage = c.mram.storage)
  /-- One byte in the frame of the page it accesses. -/
  | stored {addr : Addr} (hop : ins.opcode = .write)
      (ha : regionAddr c 0 (toCInt ins.arg1) ins.arg2 = .ok (some addr))
      (hp : Present (c'.mm.entry (pageIndex addr)))
      (hs : c'.mram.storage = Function.update c.mram.storage
        (frameAddr (c'.mm.entry (pageIndex addr)) addr) (ins.arg0.setWidth 8))
  /-- One byte at an address the program chooses. -/
  | raw (hr : RawWrite ins)
      (hs : c'.mram.storage = Function.update c.mram.storage ins.arg2 (ins.arg3.setWidth 8))

/-- Serving a growth stores nothing. -/
theorem vmMapRam_storage (c : ProcMem) (mapstart : Addr) (incpgnum : CInt) :
    (vmMapRam c mapstart incpgnum).2.mram.storage = c.mram.storage := by
  rw [vmMapRam_eq]
  split <;> rfl

/-- What the system call instruction stores. -/
theorem libsyscall_store (c : ProcMem) {ins : Inst} (hop : ins.opcode = .syscall) :
    StoreEffect c ins (libsyscall uninit c (toCInt ins.arg0) ins.arg1 ins.arg2 ins.arg3).2 := by
  have hcall := @libsyscall_call uninit c ins
  generalize (libsyscall uninit c (toCInt ins.arg0) ins.arg1 ins.arg2 ins.arg3).2 = c' at hcall ⊢
  cases hcall with
  | idle | map | swp => exact .unchanged rfl
  | inc =>
    rw [incVmaLimit_eq]
    cases growthOf c.mm (toCInt ins.arg2) ins.arg3 with
    | none => exact .unchanged rfl
    | some g => exact .unchanged (vmMapRam_storage _ _ _)
  | ioWrite hnr hm hw => exact .raw ⟨hop, hnr, hm⟩ (memphyWrite_frame hw).2.2.2

/-- What a byte write stores, in terms of the memory afterwards. -/
theorem pgSetval_store (c : ProcMem) (addr : Addr) (value : Byte) :
    (pgSetval uninit c addr value).2.mram.storage = c.mram.storage ∨
      (Present ((pgSetval uninit c addr value).2.mm.entry (pageIndex addr)) ∧
        (pgSetval uninit c addr value).2.mram.storage = Function.update c.mram.storage
          (frameAddr ((pgSetval uninit c addr value).2.mm.entry (pageIndex addr)) addr) value) := by
  have hacc := (pgGetpage_access uninit c (addrPage addr)).sameRegions.2
  rw [pgSetval_snd]
  cases hg : pgGetpage uninit c (addrPage addr) with
  | mk r c' =>
    rw [hg] at hacc
    cases r with
    | none => exact Or.inl hacc
    | some fpn =>
      obtain ⟨hp, hf⟩ := pgGetpage_some hg
      dsimp only at hacc ⊢
      split
      · cases hw : memphyWrite c'.mram (byteAddr fpn addr) value with
        | none => exact Or.inl hacc
        | some mram =>
          refine Or.inr ⟨hp, ?_⟩
          rw [Option.getD_some, (memphyWrite_frame hw).2.2.2, hacc, hf]
          rfl
      · exact Or.inl hacc

/-- An access succeeds if the page is present or RAM has a free frame. -/
theorem accessPage_found {mm : MmStruct} {ramFree swpFree : List Addr} {pgn : Addr}
    (h : Present (mm.entry (ptIndex pgn)) ∨ ramFree ≠ []) :
    (accessPage mm ramFree swpFree pgn).1 = true := by
  unfold accessPage
  split
  · rfl
  · next hn =>
    cases ramFree with
    | nil => exact absurd rfl (h.resolve_left hn)
    | cons f rest => rfl

/-- A byte write whose page access succeeds leaves the page present. -/
theorem pgSetval_present {c : ProcMem} {addr : Addr} {value : Byte}
    (hfound : (accessPage c.mm c.mram.freeFpList c.activeMswp.freeFpList
      (toAddr (addrPage addr))).1 = true) :
    Present ((pgSetval uninit c addr value).2.mm.entry (pageIndex addr)) := by
  obtain ⟨mram, _, he⟩ := pgSetval_frames uninit c addr value
  rw [he]
  dsimp only
  rw [(pgGetpage_eq c (addrPage addr)).2]
  exact present_accessPage hfound

/-- `pg_setval` stores the byte if the frame of the page lies in RAM. -/
theorem pgSetval_found {c : ProcMem} {addr : Addr} {value : Byte} (hl : c.listed = true)
    (hr : c.mram.rdmflg = true)
    (hfound : (accessPage c.mm c.mram.freeFpList c.activeMswp.freeFpList
      (toAddr (addrPage addr))).1 = true)
    (hb : frameAddr ((pgSetval uninit c addr value).2.mm.entry (pageIndex addr)) addr <
      c.mram.maxsz) :
    (pgSetval uninit c addr value).2.mram.storage = Function.update c.mram.storage
      (frameAddr ((pgSetval uninit c addr value).2.mm.entry (pageIndex addr)) addr) value := by
  have hres := (@pgGetpage_eq uninit c (addrPage addr)).1
  obtain ⟨hsame, hacc⟩ := (pgGetpage_access uninit c (addrPage addr)).sameRegions
  unfold accessResult at hres
  rw [if_pos hfound] at hres
  rw [pgSetval_snd] at hb ⊢
  cases hg : pgGetpage uninit c (addrPage addr) with
  | mk r c' =>
    rw [hg] at hacc hsame hres hb
    dsimp only at hacc hres hb ⊢
    rw [hres] at hg hb ⊢
    obtain ⟨_, hf⟩ := pgGetpage_some hg
    dsimp only at hb ⊢
    rw [if_pos (hsame.listed.trans hl)] at hb ⊢
    dsimp only at hb ⊢
    rw [hf]
    change ((memphyWrite c'.mram (frameAddr (c'.mm.entry (pageIndex addr)) addr) value).getD
      c'.mram).storage = _
    rw [memphyWrite_eq_some (hsame.rdmflg.trans hr) (by rw [hsame.maxsz]; exact hb),
      Option.getD_some]
    dsimp only
    rw [hacc]

/-- An instruction stores at most one byte in RAM: a `WRITE` at the address of its symbol,
a system call at a physical one. -/
theorem execInst_store {c c' : ProcMem} {ins : Inst} {n : Int} {d : Option UInt}
    (h : execInst uninit c ins = .ok (n, d, c')) : StoreEffect c ins c' := by
  cases execInst_call h with
  | «calc» _ => exact .unchanged rfl
  | alloc _ ha =>
    obtain ⟨rg, k, _, _, _, rfl⟩ | ⟨_, _, _, rfl⟩ | ⟨i, cur, g, k, _, _, _, _, _, _, rfl⟩ :=
      alloc_cases ha
    · exact .unchanged rfl
    · exact .unchanged rfl
    · exact .unchanged (vmMapRam_storage _ _ _)
  | free _ ha =>
    obtain ⟨_, rfl⟩ | ⟨k, vma0, next, _, _, _, rfl⟩ := free_cases ha
    · exact .unchanged rfl
    · exact .unchanged rfl
  | readRefused _ _ => exact .unchanged rfl
  | @read addr _ _ =>
    rw [pgGetval_snd]
    exact .unchanged (pgGetpage_access uninit c (addrPage addr)).sameRegions.2
  | writeRefused _ _ => exact .unchanged rfl
  | @write addr hop hr =>
    rcases pgSetval_store c addr (ins.arg0.setWidth 8) with hs | ⟨hp, hs⟩
    · exact .unchanged hs
    · exact .stored hop hr hp hs
  | syscall hop => exact libsyscall_store c hop

end OsSim.MemoryBytes
