import OsSim.MemorySwap
import OsSim.MemoryBytes

/-!
# The bounds check of a byte access

`__read` and `__write` compare the end of the region with `rg_start + offset`, a
64-bit sum. Below 2^64 that is the comparison of the offset with the length of the
region; a sum that wraps passes the check and reaches an address below the region.
-/

namespace OsSim.MemoryBounds

open MemoryWords MemoryDevice MemoryPageTable MemoryMapping MemoryPaging MemoryLibrary
open MemoryEffects MemoryInstruction MemoryBytes MemorySwap RunSteps

variable {uninit : Addr → Byte}

/-- The symbol id of an entry of `symrgtbl`. -/
def symbolId (k : Fin 30) : CInt := BitVec.ofNat 32 k

/-- The id of an entry selects that entry. -/
theorem symrgSlot_symbolId (k : Fin 30) : symrgSlot (symbolId k) = .ok k := by
  have hk : (symbolId k).toNat = k := by
    unfold symbolId
    rw [BitVec.toNat_ofNat]
    omega
  unfold symrgSlot
  rw [dif_pos (by omega)]
  exact congrArg Except.ok (Fin.ext hk)

/-- The guard of `get_symrg_byid` lets the ids of the table pass. -/
theorem getSymrgByid_symbolId (k : Fin 30) : getSymrgByid (symbolId k) = some (symbolId k) := by
  unfold getSymrgByid
  have hguard : ∀ j : Fin 30, ((symbolId j).slt 0 ||
      (BitVec.ofNat 32 pagingMaxSymtblSz).slt (symbolId j)) = false := by decide
  rw [hguard k]
  rfl

/-- The check on the entry of a symbol: the wrapped sum against the end. -/
theorem regionAddr_symbolId (c : ProcMem) (vmaid : CInt) (k : Fin 30) (offset : Addr) :
    regionAddr c vmaid (symbolId k) offset =
      if getVmaByNum c.mm vmaid = none ∨
        (c.mm.symrgtbl k).rgEnd ≤ (c.mm.symrgtbl k).rgStart + offset then .ok none
      else .ok (some ((c.mm.symrgtbl k).rgStart + offset)) := by
  unfold regionAddr
  rw [getSymrgByid_symbolId]
  cases getVmaByNum c.mm vmaid with
  | none => simp
  | some r =>
    simp only [symrgSlot_symbolId, bind, Except.bind, reduceCtorEq, false_or]

/-- As long as the sum does not wrap, the check is on the offset. -/
theorem rgEnd_le_add_iff {s e offset : Addr} (hse : s ≤ e)
    (hsum : s.toNat + offset.toNat < 2 ^ 64) : e ≤ s + offset ↔ e - s ≤ offset := by
  rw [BitVec.le_def] at hse
  rw [BitVec.le_def, BitVec.le_def, BitVec.toNat_add_of_lt hsum,
    BitVec.toNat_sub_of_le (BitVec.le_def.mpr hse)]
  omega

/-- A sum that wraps passes the check with any offset, and each such offset lies
outside the region. -/
theorem wrapped_add {s e offset : Addr} (hse : s ≤ e)
    (hsum : ¬s.toNat + offset.toNat < 2 ^ 64) : ¬e ≤ s + offset ∧ e - s ≤ offset := by
  have hs := s.isLt
  have he := e.isLt
  have ho := offset.isLt
  rw [BitVec.le_def] at hse
  rw [BitVec.le_def, BitVec.le_def, BitVec.toNat_add,
    BitVec.toNat_sub_of_le (BitVec.le_def.mpr hse)]
  omega

/-- Only the page of one virtual address is accessed, and only its byte can change. -/
structure TouchesOnly (addr : Addr) (c c' : ProcMem) : Prop where
  /-- Entries, lists and swap change as one access to the page changes them. -/
  page : ∃ p, PageAccess c (toAddr (addrPage addr)) p ∧ c' = {p with mram := c'.mram} ∧
    c'.mram.freeFpList = p.mram.freeFpList
  /-- A byte of RAM that changes is the one at the address. -/
  byte : ∀ x, c'.mram.storage x ≠ c.mram.storage x →
    Present (c'.mm.entry (pageIndex addr)) ∧ x = frameAddr (c'.mm.entry (pageIndex addr)) addr

/-- Reading a byte touches nothing but its page. -/
theorem touchesOnly_pgGetval (c : ProcMem) (addr : Addr) (data : Byte) :
    TouchesOnly addr c (pgGetval uninit c addr data).2.2 := by
  have hacc := pgGetpage_access uninit c (addrPage addr)
  rw [pgGetval_snd]
  refine ⟨⟨_, hacc, rfl, rfl⟩, fun x hx => ?_⟩
  rw [hacc.sameRegions.2] at hx
  exact absurd rfl hx

/-- Writing a byte touches nothing but its page and its byte. -/
theorem touchesOnly_pgSetval (c : ProcMem) (addr : Addr) (value : Byte) :
    TouchesOnly addr c (pgSetval uninit c addr value).2 := by
  obtain ⟨mram, hsame, he⟩ := pgSetval_frames uninit c addr value
  refine ⟨⟨_, pgGetpage_access uninit c (addrPage addr), ?_, ?_⟩, fun x hx => ?_⟩
  · rw [he]
  · rw [he]
    exact hsame.freeFpList
  · rcases pgSetval_store c addr value with hs | ⟨hp, hs⟩
    · rw [hs] at hx
      exact absurd rfl hx
    · refine ⟨hp, ?_⟩
      by_contra hne
      rw [hs, Function.update_of_ne hne] at hx
      exact hx rfl

/-- The bounds of the region of a symbol are enforced for an offset: inside, an access
touches the address it should or is refused; outside, it is refused. -/
structure BoundsEnforced (uninit : Addr → Byte) (c : ProcMem) (vmaid : CInt) (k : Fin 30)
    (offset : Addr) : Prop where
  /-- A read that is not refused reads at `rg_start + offset`, inside the region. -/
  readAt : ∀ data r, read uninit c vmaid (symbolId k) offset data = .ok r → r ≠ (-1, data, c) →
    offset < (c.mm.symrgtbl k).rgEnd - (c.mm.symrgtbl k).rgStart ∧
      r = (0, (pgGetval uninit c ((c.mm.symrgtbl k).rgStart + offset) data).2) ∧
      TouchesOnly ((c.mm.symrgtbl k).rgStart + offset) c r.2.2
  /-- A write that is not refused passes the bounds check, too, and changes one byte. -/
  writeAt : ∀ value r, write uninit c vmaid (symbolId k) offset value = .ok r → r ≠ (-1, c) →
    offset < (c.mm.symrgtbl k).rgEnd - (c.mm.symrgtbl k).rgStart ∧
      r = (0, (pgSetval uninit c ((c.mm.symrgtbl k).rgStart + offset) value).2) ∧
      TouchesOnly ((c.mm.symrgtbl k).rgStart + offset) c r.2
  /-- Outside the region both return -1 and leave the memory. -/
  refused : ¬offset < (c.mm.symrgtbl k).rgEnd - (c.mm.symrgtbl k).rgStart → ∀ data,
    read uninit c vmaid (symbolId k) offset data = .ok (-1, data, c) ∧
      write uninit c vmaid (symbolId k) offset data = .ok (-1, c)

variable (uninit) in
/-- Both accesses return 0 once the bounds check has passed, whatever becomes of the byte.
-/
theorem access_of_regionAddr {c : ProcMem} {vmaid rgid : CInt} {offset addr : Addr}
    (ha : regionAddr c vmaid rgid offset = .ok (some addr)) (data : Byte) :
    read uninit c vmaid rgid offset data = .ok (0, (pgGetval uninit c addr data).2) ∧
      write uninit c vmaid rgid offset data = .ok (0, (pgSetval uninit c addr data).2) := by
  unfold MemoryLibrary.read MemoryLibrary.write
  rw [ha]
  exact ⟨rfl, rfl⟩

variable (uninit) in
/-- Both accesses return -1 once the bounds check has failed, and leave the memory. -/
theorem access_of_refused {c : ProcMem} {vmaid rgid : CInt} {offset : Addr}
    (ha : regionAddr c vmaid rgid offset = .ok none) (data : Byte) :
    read uninit c vmaid rgid offset data = .ok (-1, data, c) ∧
      write uninit c vmaid rgid offset data = .ok (-1, c) := by
  unfold MemoryLibrary.read MemoryLibrary.write
  rw [ha]
  exact ⟨rfl, rfl⟩

/-- An offset that makes the sum wrap is not refused. -/
theorem not_boundsEnforced {c : ProcMem} {vmaid : CInt} {k : Fin 30} {offset : Addr}
    (hse : (c.mm.symrgtbl k).rgStart ≤ (c.mm.symrgtbl k).rgEnd)
    (hv : getVmaByNum c.mm vmaid ≠ none)
    (hsum : ¬(c.mm.symrgtbl k).rgStart.toNat + offset.toNat < 2 ^ 64) :
    ¬BoundsEnforced uninit c vmaid k offset := by
  intro h
  obtain ⟨hpass, hout⟩ := wrapped_add hse hsum
  have ha := regionAddr_symbolId c vmaid k offset
  rw [if_neg (not_or.mpr ⟨hv, hpass⟩)] at ha
  have hread := (access_of_regionAddr uninit ha 0).1
  rw [(h.refused (BitVec.not_lt.mpr hout) 0).1] at hread
  cases hread

/-- The bounds are enforced exactly where no area is found or the sum does not wrap. -/
theorem boundsEnforced_iff (uninit : Addr → Byte) (c : ProcMem) (vmaid : CInt) (k : Fin 30)
    (offset : Addr) (hse : (c.mm.symrgtbl k).rgStart ≤ (c.mm.symrgtbl k).rgEnd) :
    BoundsEnforced uninit c vmaid k offset ↔ getVmaByNum c.mm vmaid = none ∨
      (c.mm.symrgtbl k).rgStart.toNat + offset.toNat < 2 ^ 64 := by
  constructor
  · intro h
    by_contra hn
    obtain ⟨hv, hsum⟩ := not_or.mp hn
    exact not_boundsEnforced hse hv hsum h
  · intro hor
    have ha := regionAddr_symbolId c vmaid k offset
    by_cases hr : getVmaByNum c.mm vmaid = none ∨
        (c.mm.symrgtbl k).rgEnd ≤ (c.mm.symrgtbl k).rgStart + offset
    · rw [if_pos hr] at ha
      have hacc := access_of_refused uninit ha
      refine ⟨fun data r hread hne => ?_, fun value r hwrite hne => ?_, fun _ => hacc⟩
      · rw [(hacc data).1] at hread
        exact absurd (Except.ok.inj hread).symm hne
      · rw [(hacc value).2] at hwrite
        exact absurd (Except.ok.inj hwrite).symm hne
    · rw [if_neg hr] at ha
      obtain ⟨hv, hpass⟩ := not_or.mp hr
      have hsum := hor.resolve_left hv
      rw [rgEnd_le_add_iff hse hsum, BitVec.not_le] at hpass
      have hacc := access_of_regionAddr uninit ha
      refine ⟨fun data r hread _ => ?_, fun value r hwrite _ => ?_, fun hout => absurd hpass hout⟩
      · rw [(hacc data).1] at hread
        cases hread
        exact ⟨hpass, rfl, touchesOnly_pgGetval _ _ _⟩
      · rw [(hacc value).2] at hwrite
        cases hwrite
        exact ⟨hpass, rfl, touchesOnly_pgSetval _ _ _⟩

/-! ## The second of two variables -/

/-- A process can have two variables of one page each. -/
theorem exists_twoVariables : ∃ c, Reachable Booted (MemStep fun _ => 0) c ∧
    getVmaByNum c.mm 0 ≠ none ∧ c.mm.symrgtbl 1 = ⟨4096, 8192⟩ := by
  obtain ⟨c, hrun, hf⟩ := exists_run_of_map (fun _ _ => True)
    (memStep_of_memNext fun _ => 0) (bootMem 8192 0) twoPages
    (fun c => ((getVmaByNum c.mm 0).isSome, c.mm.symrgtbl 1)) (true, ⟨4096, 8192⟩) rfl
  obtain ⟨hv, hrg⟩ := Prod.mk.inj hf
  exact ⟨c, ⟨_, _, ⟨_, _, rfl⟩, hrun.unguard⟩, Option.isSome_iff_ne_none.mp hv, hrg⟩

/-- Offset 5 of the second variable is written at address 4101 and nowhere else, offset
4096 is refused, and the bounds are not enforced for offset -1. -/
theorem boundsEnforced_iff_twoVariables : ∃ c, Reachable Booted (MemStep fun _ => 0) c ∧
    c.mm.symrgtbl 1 = ⟨4096, 8192⟩ ∧
    (∃ c', write (fun _ => 0) c 0 (symbolId 1) 5 100 = .ok (0, c') ∧ TouchesOnly 4101 c c') ∧
    write (fun _ => 0) c 0 (symbolId 1) 4096 100 = .ok (-1, c) ∧
    ¬BoundsEnforced (fun _ => 0) c 0 1 (-1) := by
  obtain ⟨c, hreach, hv, hrg⟩ := exists_twoVariables
  have hiff := fun offset => boundsEnforced_iff (fun _ => 0) c 0 1 offset (by
    rw [hrg]
    decide)
  rw [hrg] at hiff
  have hin := (hiff 5).mpr (Or.inr (by decide))
  have hout := (hiff 4096).mpr (Or.inr (by decide))
  refine ⟨c, hreach, hrg, ?_, ?_, fun h => ?_⟩
  · have ha := regionAddr_symbolId c 0 1 5
    rw [if_neg (not_or.mpr ⟨hv, by rw [hrg]; decide⟩)] at ha
    have hwrite := (access_of_regionAddr (fun _ => 0) ha 100).2
    obtain ⟨-, -, htouch⟩ := hin.writeAt 100 _ hwrite fun he =>
      absurd (congrArg Prod.fst he) (by decide : ¬(0 : Int) = -1)
    rw [hrg] at hwrite htouch
    exact ⟨_, hwrite, htouch⟩
  · exact (hout.refused (by rw [hrg]; decide) 100).2
  · obtain hnone | hsum := (hiff (-1)).mp h
    · exact hv hnone
    · exact absurd hsum (by decide)

/-- Offset -1 of the second of two variables reaches the last byte of the first. -/
theorem not_boundsEnforced_reachable : ¬∀ c : ProcMem,
    Reachable Booted (MemStep fun _ => 0) c → ∀ vmaid k offset,
      (c.mm.symrgtbl k).rgStart ≤ (c.mm.symrgtbl k).rgEnd →
      BoundsEnforced (fun _ => 0) c vmaid k offset := by
  intro h
  obtain ⟨c, hreach, hv, hrg⟩ := exists_twoVariables
  have hle : (c.mm.symrgtbl 1).rgStart ≤ (c.mm.symrgtbl 1).rgEnd := by
    rw [hrg]
    decide
  have hsum : ¬(c.mm.symrgtbl 1).rgStart.toNat + (-1 : Addr).toNat < 2 ^ 64 := by
    rw [hrg]
    decide
  exact not_boundsEnforced hle hv hsum (h c hreach 0 1 (-1) hle)

end OsSim.MemoryBounds
