import OsSim.MemoryFault
import OsSim.MemoryBounds
import OsSim.ProcessRun

/-!
# Failures of a byte access

`__read` and `__write` drop the status of `pg_getval` and `pg_setval`. An access is
therefore reported truthfully exactly where the bounds check refuses it or nothing
behind the check can fail: the caller is found, its page gets a frame, and the byte
of that frame lies in a random-access RAM.
-/

namespace OsSim.MemoryAccess

open MemoryWords MemoryDevice MemoryPageTable MemoryMapping MemoryPaging MemoryLibrary
open MemoryEffects MemoryInstruction MemoryBytes MemorySwap MemoryFault MemoryBounds
open ProcessRun RunSteps

variable {uninit : Addr → Byte}

/-! ## The cell of a byte -/

/-- The frame a page ends up in, read off the memory before the access: the one it has,
the first free one, or the one of the victim. -/
def servedFrame (c : ProcMem) (pgn : CInt) : ℕ :=
  if Present (c.mm.entry (ptIndex (toAddr pgn))) then
    entryFrame (c.mm.entry (ptIndex (toAddr pgn)))
  else
    match c.mram.freeFpList, findVictimPage c.mm.fifoPgn with
    | f :: _, _ => f.toNat % 8192
    | [], some (v, _) => entryFrame (c.mm.entry (ptIndex v))
    | [], none => 0

/-- The physical address of a byte, read off the memory before the access. -/
def servedCell (c : ProcMem) (addr : Addr) : ℕ :=
  servedFrame c (addrPage addr) * 4096 + addr.toNat % 256

/-- The number of a victim's frame. -/
theorem victimFrame_toNat (mm : MmStruct) (v : Addr) :
    (victimFrame mm v).toNat = entryFrame (mm.entry (ptIndex v)) := by
  unfold victimFrame entryFrame
  rw [pteGetEntry_eq, BitVec.toNat_setWidth]
  exact Nat.mod_eq_of_lt (lt_of_lt_of_le (BitVec.isLt _) (by decide))

/-- Frame numbers of entries have thirteen bits. -/
theorem entryFrame_lt (e : Addr) : entryFrame e < 8192 := by
  rw [entryFrame_eq]
  exact Nat.mod_lt _ (by decide)

/-- After an access that finds a frame, the entry of the page names that frame. -/
theorem accessPage_frame {c : ProcMem} {pgn : CInt} (h : ¬Unservable c pgn) :
    entryFrame ((accessPage c.mm c.mram.freeFpList c.activeMswp.freeFpList
      (toAddr pgn)).2.entry (ptIndex (toAddr pgn))) = servedFrame c pgn := by
  unfold accessPage servedFrame
  by_cases hp : Present (c.mm.entry (ptIndex (toAddr pgn)))
  · rw [if_pos hp, if_pos hp]
  · rw [if_neg hp, if_neg hp]
    cases hf : c.mram.freeFpList with
    | cons f rest =>
      simp only [mapPage_entry, Function.update_self, entryFrame_entrySetFpn]
    | nil =>
      cases hv : findVictimPage c.mm.fifoPgn with
      | none => exact absurd ⟨hp, hf, Or.inl (findVictimPage_eq_none.mp hv)⟩ h
      | some r =>
        cases hs : c.activeMswp.freeFpList with
        | nil => exact absurd ⟨hp, hf, Or.inr hs⟩ h
        | cons s rest =>
          simp only [evictedMm, mapPage_entry, Function.update_self, entryFrame_entrySetFpn,
            victimFrame_toNat]
          exact Nat.mod_eq_of_lt (entryFrame_lt _)

/-- The memory manager after an access to the page of an address. -/
def accessedMm (c : ProcMem) (addr : Addr) : MmStruct :=
  (accessPage c.mm c.mram.freeFpList c.activeMswp.freeFpList (toAddr (addrPage addr))).2

/-- The physical address of a byte after the access to its page. -/
def accessedCell (c : ProcMem) (addr : Addr) : Addr :=
  frameAddr ((accessedMm c addr).entry (pageIndex addr)) addr

/-- The cell an access reaches can be read off the memory before it. -/
theorem accessedCell_toNat {c : ProcMem} {addr : Addr} (h : ¬Unservable c (addrPage addr)) :
    (accessedCell c addr).toNat = servedCell c addr := by
  unfold accessedCell servedCell
  rw [frameAddr_toNat, ← accessPage_frame h]
  rfl

/-- An access to a page that gets a frame. -/
structure PageServed (c : ProcMem) (addr : Addr) (fpn : CInt) (c' : ProcMem) : Prop where
  /-- The memory manager afterwards. -/
  mm : c'.mm = accessedMm c addr
  /-- The page is present. -/
  present : Present (c'.mm.entry (pageIndex addr))
  /-- The frame number handed out leads to the byte. -/
  cell : byteAddr fpn addr = accessedCell c addr
  /-- What no access changes. -/
  same : SameRegions c c'
  /-- The bytes of RAM. -/
  storage : c'.mram.storage = c.mram.storage

/-- Every page that is not unservable gets a frame. -/
theorem pgGetpage_served (uninit : Addr → Byte) {c : ProcMem} {addr : Addr}
    (h : ¬Unservable c (addrPage addr)) :
    ∃ fpn c', pgGetpage uninit c (addrPage addr) = (some fpn, c') ∧ PageServed c addr fpn c' := by
  have hacc := (pgGetpage_access uninit c (addrPage addr)).sameRegions
  have hmm := (@pgGetpage_eq uninit c (addrPage addr)).2
  have hsome := mt (@pgGetpage_eq_none uninit c _).mp h
  cases hg : pgGetpage uninit c (addrPage addr) with
  | mk r c' =>
    rw [hg] at hacc hmm hsome
    cases r with
    | none => exact absurd rfl hsome
    | some fpn =>
      obtain ⟨hp, hf⟩ := pgGetpage_some hg
      have hcell : byteAddr fpn addr = accessedCell c addr := by
        rw [hf, hmm]
        rfl
      exact ⟨fpn, c', rfl, ⟨hmm, hp, hcell, hacc.1, hacc.2⟩⟩

/-! ## What an access should report -/

/-- The access behind the bounds check cannot be completed: the page is not brought in,
or the device refuses the physical address. -/
def AccessFails (uninit : Addr → Byte) (c : ProcMem) (addr : Addr)
    (refuses : MemphyStruct → Addr → Prop) : Prop :=
  (pgGetpage uninit c (addrPage addr)).1 = none ∨
    ∃ fpn c', pgGetpage uninit c (addrPage addr) = (some fpn, c') ∧
      refuses c'.mram (byteAddr fpn addr)

/-- `MEMPHY_read` returns -1. -/
def ReadRefused (mp : MemphyStruct) (addr : Addr) : Prop := memphyRead mp addr = none

/-- `MEMPHY_write` returns -1. -/
def WriteRefused (data : Byte) (mp : MemphyStruct) (addr : Addr) : Prop :=
  memphyWrite mp addr data = none

/-- The outcome of a `libread` says what happened. -/
structure ReadReported (uninit : Addr → Byte) (c : ProcMem) (source : UInt) (offset : Addr)
    (n : Int) (d : Option UInt) (c' : ProcMem) : Prop where
  /-- With status 0 the word is the byte of the cell that the entry of the page designates. -/
  delivered : n = 0 → ∃ addr v, regionAddr c 0 source offset = .ok (some addr) ∧
    Present (c'.mm.entry (pageIndex addr)) ∧
    memphyRead c'.mram (frameAddr (c'.mm.entry (pageIndex addr)) addr) = some v ∧
    d = some (v.signExtend 32)
  /-- A failure behind the check has status -1, delivers nothing and leaves RAM. -/
  failed : ∀ addr, regionAddr c 0 source offset = .ok (some addr) →
    AccessFails uninit c addr ReadRefused →
    n = -1 ∧ d = none ∧ c'.mram.storage = c.mram.storage

/-- The outcome of a `libwrite` says what happened. -/
structure WriteReported (uninit : Addr → Byte) (c : ProcMem) (data : Byte) (destination : UInt)
    (offset : Addr) (n : Int) (c' : ProcMem) : Prop where
  /-- With status 0 the byte is in the cell that the entry of the page designates. -/
  stored : n = 0 → ∃ addr, regionAddr c 0 destination offset = .ok (some addr) ∧
    Present (c'.mm.entry (pageIndex addr)) ∧
    frameAddr (c'.mm.entry (pageIndex addr)) addr < c.mram.maxsz ∧
    c'.mram.storage = Function.update c.mram.storage
      (frameAddr (c'.mm.entry (pageIndex addr)) addr) data
  /-- A failure behind the check has status -1 and leaves RAM. -/
  failed : ∀ addr, regionAddr c 0 destination offset = .ok (some addr) →
    AccessFails uninit c addr (WriteRefused data) → n = -1 ∧ c'.mram.storage = c.mram.storage

/-- An instruction that reads a byte. -/
def ReadsByte (ins : Inst) (source : UInt) (offset : Addr) : Prop :=
  ins.opcode = .read ∧ toCInt ins.arg0 = source ∧ ins.arg1 = offset

/-- An instruction that writes a byte. -/
def WritesByte (ins : Inst) (destination : UInt) (offset : Addr) : Prop :=
  ins.opcode = .write ∧ toCInt ins.arg1 = destination ∧ ins.arg2 = offset

/-- `run` hands on a failure of the access: it returns -1 and changes neither registers nor
RAM. -/
def RunReports (c : ProcMem) (symbol : UInt) (offset : Addr) : Prop :=
  ∀ {ι : Type} [DecidableEq ι] (uninit : Addr → Byte) (k : Kernel ι) (i : ι) (ins : Inst)
    (addr : Addr), k.mem i = c → k.fetch i = some ins →
    regionAddr c 0 symbol offset = .ok (some addr) →
    (ReadsByte ins symbol offset ∧ AccessFails uninit c addr ReadRefused ∨
      WritesByte ins symbol offset ∧
        AccessFails uninit c addr (WriteRefused (ins.arg0.setWidth 8))) →
    ∃ k', run uninit k i = .ok (-1, k') ∧ (k'.pcb i).regs = (k.pcb i).regs ∧
      k'.mram.storage = k.mram.storage

/-- Accesses to a symbol at an offset are reported truthfully, whatever unset variables
hold and whatever is written. -/
structure AccessReported (c : ProcMem) (symbol : UInt) (offset : Addr) : Prop where
  /-- `libread`. -/
  read : ∀ uninit, ∃ n d c', libread uninit c symbol offset = .ok (n, d, c') ∧
    ReadReported uninit c symbol offset n d c'
  /-- `libwrite`. -/
  write : ∀ uninit data, ∃ n c', libwrite uninit c data symbol offset = .ok (n, c') ∧
    WriteReported uninit c data symbol offset n c'
  /-- `run`. -/
  run : RunReports c symbol offset

/-- The bounds check refuses the access, or nothing behind it can fail: the caller is
found, the page gets a frame, and the byte of that frame lies in a random-access RAM. -/
def AccessServed (c : ProcMem) (symbol : UInt) (offset : Addr) : Prop :=
  match regionAddr c 0 symbol offset with
  | .error _ => False
  | .ok none => True
  | .ok (some addr) => c.listed = true ∧ c.mram.rdmflg = true ∧
      ¬Unservable c (addrPage addr) ∧ servedCell c addr < c.mram.maxsz.toNat

/-! ## What the code reports -/

/-- A device answers a read exactly below the size of a random-access device. -/
theorem memphyRead_eq_none {mp : MemphyStruct} {addr : Addr} :
    memphyRead mp addr = none ↔ ¬(mp.rdmflg = true ∧ addr < mp.maxsz) := by
  cases hr : mp.rdmflg with
  | false => simp [memphyRead, memphySeqRead, hr]
  | true => simp [memphyRead, hr]

/-- A device accepts a write exactly below the size of a random-access device. -/
theorem memphyWrite_eq_none {mp : MemphyStruct} {addr : Addr} {data : Byte} :
    memphyWrite mp addr data = none ↔ ¬(mp.rdmflg = true ∧ addr < mp.maxsz) := by
  cases hr : mp.rdmflg with
  | false => simp [memphyWrite, memphySeqWrite, hr]
  | true => simp [memphyWrite, hr]

/-- Two bytes that are widened to the same word are equal. -/
theorem byte_signExtend_inj {v w : Byte} (h : v.signExtend 32 = w.signExtend 32) : v = w := by
  rw [← byte_roundTrip v, h, byte_roundTrip]

/-- No byte is its own successor. -/
theorem byte_add_one_ne (v : Byte) : v + 1 ≠ v := by bv_omega

variable (uninit) in
/-- Behind the check `libread` has status 0, whatever `pg_getval` returned. -/
theorem libread_passed {c : ProcMem} {source : UInt} {offset addr : Addr}
    (ha : regionAddr c 0 source offset = .ok (some addr)) : libread uninit c source offset =
      .ok (0, some ((pgGetval uninit c addr (uninit offset)).2.1.signExtend 32),
        (pgGetval uninit c addr (uninit offset)).2.2) := by
  unfold libread
  rw [(access_of_regionAddr uninit ha (uninit offset)).1]
  dsimp only [bind, Except.bind]
  rw [if_neg (by decide)]

variable (uninit) in
/-- Refused by the check it has status -1. -/
theorem libread_refused {c : ProcMem} {source : UInt} {offset : Addr}
    (ha : regionAddr c 0 source offset = .ok none) :
    libread uninit c source offset = .ok (-1, none, c) := by
  unfold libread
  rw [(access_of_refused uninit ha (uninit offset)).1]
  rfl

/-- `pg_getval` with a frame: the byte of the cell, or `*data` as it was. -/
theorem pgGetval_served {c c' : ProcMem} {addr : Addr} {fpn : CInt} {data : Byte}
    (hg : pgGetpage uninit c (addrPage addr) = (some fpn, c')) (h : PageServed c addr fpn c') :
    pgGetval uninit c addr data =
      match if c.listed then memphyRead c'.mram (accessedCell c addr) else none with
      | none => (-1, data, c')
      | some v => (0, v, c') := by
  have hread := @pgGetval_eq uninit c addr data
  rw [hg] at hread
  dsimp only at hread
  rw [h.cell, h.same.listed] at hread
  exact hread

/-- The cell after the access, as the entry of the page designates it. -/
theorem PageServed.frameAddr_eq {c c' : ProcMem} {addr : Addr} {fpn : CInt}
    (h : PageServed c addr fpn c') :
    frameAddr (c'.mm.entry (pageIndex addr)) addr = accessedCell c addr := by
  unfold accessedCell
  rw [h.mm]

/-- An access that is reported truthfully does not fail behind the check. -/
theorem not_accessFails_of_reported {c : ProcMem} {symbol : UInt} {offset addr : Addr}
    (h : AccessReported c symbol offset) (ha : regionAddr c 0 symbol offset = .ok (some addr))
    (uninit : Addr → Byte) : ¬AccessFails uninit c addr ReadRefused := by
  intro hfails
  obtain ⟨n, d, c', hread, hrep⟩ := h.read uninit
  rw [libread_passed uninit ha] at hread
  cases hread
  exact absurd (hrep.failed addr ha hfails).1 (by decide)

/-- The caller of an access that is reported as it should be is found: otherwise an unset
byte would be reported as read. -/
theorem listed_of_reported {c : ProcMem} {symbol : UInt} {offset addr : Addr}
    (h : AccessReported c symbol offset) (ha : regionAddr c 0 symbol offset = .ok (some addr))
    (hserved : ¬Unservable c (addrPage addr)) : c.listed = true := by
  by_contra hl
  rw [Bool.not_eq_true] at hl
  -- unset memory that differs from the byte of the cell
  let garbage : Addr → Byte := fun _ => c.mram.storage (accessedCell c addr) + 1
  obtain ⟨fpn, c', hg, hps⟩ := pgGetpage_served garbage hserved
  have hval : pgGetval garbage c addr (garbage offset) = (-1, garbage offset, c') := by
    rw [pgGetval_served hg hps, hl]
    rfl
  obtain ⟨n, d, c'', hread, hrep⟩ := h.read garbage
  rw [libread_passed garbage ha, hval] at hread
  cases hread
  obtain ⟨addr', v, ha', _, hv, hd⟩ := hrep.delivered rfl
  rw [ha] at ha'
  cases ha'
  have hin : ¬memphyRead c'.mram (frameAddr (c'.mm.entry (pageIndex addr)) addr) = none := by
    rw [hv]
    exact Option.some_ne_none v
  rw [memphyRead_eq_none, not_not] at hin
  rw [memphyRead_eq_some hin.1 hin.2, hps.frameAddr_eq, hps.storage] at hv
  cases hv
  have heq := byte_signExtend_inj (Option.some.inj hd)
  exact byte_add_one_ne _ heq

/-- An access that is reported truthfully is refused by the check or served. -/
theorem accessServed_of_reported {c : ProcMem} {symbol : UInt} {offset : Addr}
    (h : AccessReported c symbol offset) : AccessServed c symbol offset := by
  unfold AccessServed
  cases hr : regionAddr c 0 symbol offset with
  | error e =>
    obtain ⟨n, d, c', hread, _⟩ := h.read fun _ => 0
    unfold libread MemoryLibrary.read at hread
    rw [hr] at hread
    cases hread
  | ok o =>
    cases o with
    | none => trivial
    | some addr =>
      have hnever := not_accessFails_of_reported h hr (fun _ => 0)
      have hserved : ¬Unservable c (addrPage addr) := fun hu =>
        hnever (Or.inl (pgGetpage_eq_none.mpr hu))
      obtain ⟨fpn, c', hg, hps⟩ := pgGetpage_served (fun _ => 0) hserved
      have hin : ¬memphyRead c'.mram (byteAddr fpn addr) = none := fun hn =>
        hnever (Or.inr ⟨fpn, c', hg, hn⟩)
      rw [memphyRead_eq_none, not_not, hps.cell, BitVec.lt_def, accessedCell_toNat hserved,
        hps.same.maxsz, hps.same.rdmflg] at hin
      exact ⟨listed_of_reported h hr hserved, hin.1, hserved, hin.2⟩

/-- A served access does not fail behind the check. -/
theorem not_accessFails {c : ProcMem} {addr : Addr} {refuses : MemphyStruct → Addr → Prop}
    (hserved : ¬Unservable c (addrPage addr))
    (hdev : ∀ mp : MemphyStruct, mp.rdmflg = c.mram.rdmflg → mp.maxsz = c.mram.maxsz →
      ¬refuses mp (accessedCell c addr)) : ¬AccessFails uninit c addr refuses := by
  obtain ⟨fpn, c', hg, hps⟩ := pgGetpage_served uninit hserved
  rintro (hnone | ⟨fpn', c'', hg', href⟩)
  · rw [hg] at hnone
    cases hnone
  · rw [hg] at hg'
    cases hg'
    rw [hps.cell] at href
    exact hdev c'.mram hps.same.rdmflg hps.same.maxsz href

/-- An access whose address has passed the bounds check gets a frame and a byte of it. -/
structure ServedAt (c : ProcMem) (addr : Addr) : Prop where
  /-- The caller is found. -/
  listed : c.listed = true
  /-- RAM is random access. -/
  rdmflg : c.mram.rdmflg = true
  /-- The page gets a frame. -/
  page : ¬Unservable c (addrPage addr)
  /-- The byte of the frame lies in RAM. -/
  cell : accessedCell c addr < c.mram.maxsz

/-- A read of a served byte does not fail. -/
theorem ServedAt.not_readFails {c : ProcMem} {addr : Addr} (h : ServedAt c addr)
    (uninit : Addr → Byte) : ¬AccessFails uninit c addr ReadRefused := by
  refine not_accessFails h.page fun mp hm hs => ?_
  unfold ReadRefused
  rw [memphyRead_eq_none, not_not, hm, hs]
  exact ⟨h.rdmflg, h.cell⟩

/-- A write whose page and cell are served does not fail. -/
theorem ServedAt.not_writeFails {c : ProcMem} {addr : Addr} (h : ServedAt c addr)
    (uninit : Addr → Byte) (data : Byte) : ¬AccessFails uninit c addr (WriteRefused data) := by
  refine not_accessFails h.page fun mp hm hs => ?_
  unfold WriteRefused
  rw [memphyWrite_eq_none, not_not, hm, hs]
  exact ⟨h.rdmflg, h.cell⟩

/-- A served read delivers the byte of its cell. -/
theorem ServedAt.reads {c : ProcMem} {addr : Addr} (h : ServedAt c addr)
    (uninit : Addr → Byte) (data : Byte) : ∃ v c', pgGetval uninit c addr data = (0, v, c') ∧
      Present (c'.mm.entry (pageIndex addr)) ∧
      memphyRead c'.mram (frameAddr (c'.mm.entry (pageIndex addr)) addr) = some v := by
  obtain ⟨fpn, c', hg, hps⟩ := pgGetpage_served uninit h.page
  have hrdm : c'.mram.rdmflg = true := hps.same.rdmflg.trans h.rdmflg
  have hcell : accessedCell c addr < c'.mram.maxsz := by
    rw [hps.same.maxsz]
    exact h.cell
  have hv := memphyRead_eq_some hrdm hcell
  refine ⟨_, c', ?_, hps.present, by rw [hps.frameAddr_eq]; exact hv⟩
  rw [pgGetval_served hg hps, if_pos h.listed, hv]

/-- A served write stores its byte. -/
theorem ServedAt.stores {c : ProcMem} {addr : Addr} (h : ServedAt c addr)
    (uninit : Addr → Byte) (data : Byte) :
    Present ((pgSetval uninit c addr data).2.mm.entry (pageIndex addr)) ∧
      frameAddr ((pgSetval uninit c addr data).2.mm.entry (pageIndex addr)) addr <
        c.mram.maxsz ∧
      (pgSetval uninit c addr data).2.mram.storage = Function.update c.mram.storage
        (frameAddr ((pgSetval uninit c addr data).2.mm.entry (pageIndex addr)) addr) data := by
  have hfound : (accessPage c.mm c.mram.freeFpList c.activeMswp.freeFpList
      (toAddr (addrPage addr))).1 = true := by
    rw [← Bool.not_eq_false, accessPage_eq_false]
    exact h.page
  have hmm : (pgSetval uninit c addr data).2.mm = accessedMm c addr := by
    obtain ⟨mram, _, he⟩ := pgSetval_frames uninit c addr data
    rw [he]
    exact (pgGetpage_eq c (addrPage addr)).2
  have hin : frameAddr ((pgSetval uninit c addr data).2.mm.entry (pageIndex addr))
      addr < c.mram.maxsz := by
    rw [hmm]
    exact h.cell
  exact ⟨pgSetval_present hfound, hin, pgSetval_found h.listed h.rdmflg hfound hin⟩

/-- What the check refuses is reported as refused. -/
theorem accessReported_of_refused {c : ProcMem} {symbol : UInt} {offset : Addr}
    (hr : regionAddr c 0 symbol offset = .ok none) : AccessReported c symbol offset := by
  have hne : ∀ addr, regionAddr c 0 symbol offset ≠ .ok (some addr) := by
    intro addr ha
    rw [hr] at ha
    cases ha
  refine ⟨fun uninit => ⟨-1, none, c, libread_refused uninit hr, ?_, ?_⟩,
    fun uninit data => ⟨-1, c, (access_of_refused uninit hr data).2, ?_, ?_⟩, ?_⟩
  · exact fun h0 => absurd h0 (by decide)
  · exact fun addr ha => absurd ha (hne addr)
  · exact fun h0 => absurd h0 (by decide)
  · exact fun addr ha => absurd ha (hne addr)
  · exact fun _ _ _ _ addr _ _ ha => absurd ha (hne addr)

/-- What is served behind the check is reported as done. -/
theorem ServedAt.accessReported {c : ProcMem} {symbol : UInt} {offset addr : Addr}
    (h : ServedAt c addr) (hr : regionAddr c 0 symbol offset = .ok (some addr)) :
    AccessReported c symbol offset := by
  have honly : ∀ addr', regionAddr c 0 symbol offset = .ok (some addr') → addr' = addr := by
    intro addr' ha
    rw [hr] at ha
    cases ha
    rfl
  refine ⟨fun uninit => ?_, fun uninit data => ?_, ?_⟩
  · obtain ⟨v, c', hv, hp, hcell⟩ := h.reads uninit (uninit offset)
    have hread := libread_passed uninit hr
    rw [hv] at hread
    refine ⟨_, _, _, hread, fun _ => ⟨addr, v, hr, hp, hcell, rfl⟩, fun addr' ha hf => ?_⟩
    rw [honly addr' ha] at hf
    exact absurd hf (h.not_readFails uninit)
  · refine ⟨_, _, (access_of_regionAddr uninit hr data).2,
      fun _ => ⟨addr, hr, h.stores uninit data⟩, fun addr' ha hf => ?_⟩
    rw [honly addr' ha] at hf
    exact absurd hf (h.not_writeFails uninit data)
  · intro ι _ uninit k i ins addr' _ _ ha hf
    rw [honly addr' ha] at hf
    rcases hf with ⟨_, hf⟩ | ⟨_, hf⟩
    · exact absurd hf (h.not_readFails uninit)
    · exact absurd hf (h.not_writeFails uninit _)

/-- An access that is refused by the check or served is reported truthfully. -/
theorem accessReported_of_served {c : ProcMem} {symbol : UInt} {offset : Addr}
    (h : AccessServed c symbol offset) : AccessReported c symbol offset := by
  unfold AccessServed at h
  cases hr : regionAddr c 0 symbol offset with
  | error e => rw [hr] at h; exact h.elim
  | ok o =>
    rw [hr] at h
    cases o with
    | none => exact accessReported_of_refused hr
    | some addr =>
      obtain ⟨hl, hrdm, hpage, hcell⟩ := h
      rw [← accessedCell_toNat hpage, ← BitVec.lt_def] at hcell
      exact ServedAt.accessReported ⟨hl, hrdm, hpage, hcell⟩ hr

/-- Accesses are reported truthfully exactly where they are refused by the check or
served. -/
theorem accessReported_iff (c : ProcMem) (symbol : UInt) (offset : Addr) :
    AccessReported c symbol offset ↔ AccessServed c symbol offset :=
  ⟨accessServed_of_reported, accessReported_of_served⟩

/-- A RAM smaller than a frame: the only byte of a variable is read and written with
status 0, and no frame was ever there. -/
theorem not_accessReported_reachable : ¬∀ c : ProcMem,
    Reachable Booted (MemStep fun _ => 0) c → ∀ symbol offset,
      AccessReported c symbol offset := by
  intro h
  obtain ⟨c, hrun, hf⟩ := exists_run_of_map (fun _ _ => True)
    (memStep_of_memNext fun _ => 0) (bootMem 1024 8192) [.own ⟨.alloc, 1, 0, 0, 0⟩]
    (fun c => (regionAddr c 0 0 0, decide (Present (c.mm.entry 0)), c.mram.freeFpList,
      c.mm.fifoPgn)) (.ok (some 0), false, [], []) rfl
  simp only [Prod.mk.injEq, decide_eq_false_iff_not] at hf
  obtain ⟨hr, hp, hram, hv⟩ := hf
  have hserved := accessServed_of_reported (h c ⟨_, _, ⟨_, _, rfl⟩, hrun.unguard⟩ 0 0)
  unfold AccessServed at hserved
  rw [hr] at hserved
  have hun : Unservable c (addrPage 0) := ⟨hp, hram, Or.inl hv⟩
  exact hserved.2.2.1 hun

end OsSim.MemoryAccess
