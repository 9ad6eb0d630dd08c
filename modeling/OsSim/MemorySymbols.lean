import OsSim.MemoryBounds

/-!
# Accesses to the symbol table

An operand is narrowed to 32 bits before any guard sees it. `__free` and
`get_symrg_byid` let the id 30 through, one past the table; `__alloc` has no guard and
reaches the table unless it fails before. An instruction with an id outside the
table is refused exactly where another reason to fail is met first.
-/

namespace OsSim.MemorySymbols

open MemoryWords MemoryDevice MemoryPageTable MemoryMapping MemoryPaging MemoryLibrary
open MemoryEffects MemoryInstruction MemoryBounds RunSteps

variable {uninit : Addr → Byte}

/-! ## Ids -/

/-- The operand of an instruction that names a symbol. -/
def symbolOperand (ins : Inst) : Option Addr :=
  match ins.opcode with
  | .alloc => some ins.arg1
  | .free => some ins.arg0
  | .read => some ins.arg0
  | .write => some ins.arg1
  | .calc => none
  | .syscall => none

/-- A narrowed id selects an entry exactly below 30. -/
theorem symrgSlot_eq (rgid : CInt) : symrgSlot rgid =
    if h : rgid.toNat < 30 then .ok ⟨rgid.toNat, h⟩ else .error (.symrgtbl rgid) := rfl

/-- Below 30 it is the id of the entry it selects. -/
theorem exists_symbolId {rgid : CInt} (h : rgid.toNat < 30) : ∃ k, rgid = symbolId k := by
  refine ⟨⟨rgid.toNat, h⟩, ?_⟩
  unfold symbolId
  rw [BitVec.ofNat_toNat, BitVec.setWidth_eq]

/-- The guard of `__free` and `get_symrg_byid` refuses what lies past 30. -/
theorem guard_eq (rgid : CInt) :
    (rgid.slt 0 || (BitVec.ofNat 32 pagingMaxSymtblSz).slt rgid) = decide (30 < rgid.toNat) := by
  have hlt := rgid.isLt
  have hmax : (BitVec.ofNat 32 pagingMaxSymtblSz).toInt = 30 := by decide
  have hzero : (0 : CInt).toInt = 0 := by decide
  rw [Bool.eq_iff_iff, Bool.or_eq_true, BitVec.slt_iff_toInt_lt, BitVec.slt_iff_toInt_lt, hmax,
    hzero, BitVec.toInt_eq_toNat_cond, decide_eq_true_eq]
  split <;> omega

/-- The id of an entry lies in the table. -/
theorem symbolId_toNat (k : Fin 30) : (symbolId k).toNat = k := by
  unfold symbolId
  rw [BitVec.toNat_ofNat]
  omega

/-- An id names an entry, is the one that passes the guard, or is refused by it. -/
theorem symbol_cases (rgid : CInt) :
    (∃ k, rgid = symbolId k) ∨ rgid = 30 ∨ 30 < rgid.toNat := by
  rcases Nat.lt_trichotomy rgid.toNat 30 with hlt | heq | hgt
  · exact Or.inl (exists_symbolId hlt)
  · exact Or.inr (Or.inl (BitVec.eq_of_toNat_eq heq))
  · exact Or.inr (Or.inr hgt)

/-- The id of an entry is not 30. -/
theorem symbolId_ne_thirty (k : Fin 30) : symbolId k ≠ 30 := by
  intro he
  have hk := congrArg BitVec.toNat he
  rw [symbolId_toNat] at hk
  exact absurd hk (Nat.ne_of_lt k.isLt)

/-- An id from 30 on is the id of no entry. -/
theorem ne_symbolId {rgid : CInt} (h : 30 ≤ rgid.toNat) (k : Fin 30) : rgid ≠ symbolId k := by
  rintro rfl
  rw [symbolId_toNat] at h
  omega

/-- Different entries have different ids. -/
theorem symbolId_inj {j k : Fin 30} (h : symbolId j = symbolId k) : j = k := by
  have hslot := symrgSlot_symbolId j
  rw [h, symrgSlot_symbolId] at hslot
  exact (Except.ok.inj hslot).symm

/-! ## `__free` and the bounds check, id by id -/

/-- `__free` of an entry. -/
theorem free_symbolId (c : ProcMem) (k : Fin 30) : free c (symbolId k) =
    if (c.mm.symrgtbl k).rgStart = 0 ∧ (c.mm.symrgtbl k).rgEnd = 0 then .ok (-1, c)
    else (enlistVmFreergList (c.mm.setSymrg k ⟨0, 0⟩) (c.mm.symrgtbl k)).map fun r =>
      (0, {c with mm := r.2}) := by
  have hin : ¬30 < (symbolId k).toNat := by
    rw [symbolId_toNat]
    omega
  unfold free
  rw [guard_eq, symrgSlot_symbolId, if_neg (by simpa using hin)]
  dsimp only [bind, Except.bind]
  split
  · rfl
  · cases enlistVmFreergList (c.mm.setSymrg k ⟨0, 0⟩) (c.mm.symrgtbl k) <;> rfl

/-- `__free` of the id that passes the guard. -/
theorem free_thirty (c : ProcMem) : free c 30 = .error (.symrgtbl 30) := rfl

/-- `__free` of an id that does not. -/
theorem free_past {c : ProcMem} {rgid : CInt} (h : 30 < rgid.toNat) :
    free c rgid = .ok (-1, c) := by
  unfold free
  rw [guard_eq, if_pos (by simpa using h)]

/-- The bounds check for the id that passes the guard. -/
theorem regionAddr_thirty (c : ProcMem) (vmaid : CInt) (offset : Addr) :
    regionAddr c vmaid 30 offset =
      if getVmaByNum c.mm vmaid = none then .ok none else .error (.symrgtbl 30) := by
  unfold regionAddr
  rw [show getSymrgByid 30 = some 30 from rfl]
  cases getVmaByNum c.mm vmaid <;> rfl

/-- The bounds check for an id that does not. -/
theorem regionAddr_past {c : ProcMem} {vmaid rgid : CInt} {offset : Addr}
    (h : 30 < rgid.toNat) : regionAddr c vmaid rgid offset = .ok none := by
  unfold regionAddr getSymrgByid
  rw [guard_eq, if_pos (by simpa using h)]

/-! ## Refusals -/

/-- `__alloc` fails before it reaches the table, and its search leaves the free regions:
no region fits, and the growth is refused. -/
def AllocRefused (c : ProcMem) (size : Addr) : Prop :=
  getVmaByNum c.mm 0 ≠ none ∧ foundRegion c.mm 0 size = none ∧ allocGrowth c 0 size = none ∧
    afterWalk c.mm 0 size = c.mm

/-- `__free` fails: the id is past 30, or its entry is empty. -/
def FreeRefused (c : ProcMem) (rgid : CInt) : Prop :=
  rgid ≠ 30 ∧ ∀ k, rgid = symbolId k →
    (c.mm.symrgtbl k).rgStart = 0 ∧ (c.mm.symrgtbl k).rgEnd = 0

/-- `liballoc` fails and changes nothing exactly if `__alloc` is refused. -/
theorem liballoc_refused_iff {c : ProcMem} {size : Addr} {rgid : UInt} :
    liballoc uninit c size rgid = .ok (-1, c) ↔ AllocRefused c size := by
  unfold liballoc AllocRefused
  cases hv : getVmaByNum c.mm 0 with
  | none =>
    unfold alloc
    rw [hv]
    simp [bind, Except.bind]
  | some r =>
    obtain ⟨i, cur⟩ := r
    rw [alloc_eq hv]
    cases hf : foundRegion c.mm 0 size with
    | some rg => cases symrgSlot rgid <;> simp [bind, Except.bind, Except.map]
    | none =>
      cases hg : allocGrowth c 0 size with
      | none =>
        simp only [bind, Except.bind, Option.isNone_none, if_true, Except.ok.injEq, Prod.mk.injEq,
          true_and, ne_eq, reduceCtorEq, not_false_eq_true]
        constructor
        · intro h
          exact congrArg ProcMem.mm h
        · intro h
          rw [h]
      | some g => cases symrgSlot rgid <;> simp [bind, Except.bind, Except.map]

/-- `__free` fails and changes nothing exactly if it is refused. -/
theorem free_refused_iff {c : ProcMem} {rgid : CInt} :
    free c rgid = .ok (-1, c) ↔ FreeRefused c rgid := by
  unfold FreeRefused
  rcases symbol_cases rgid with ⟨k, rfl⟩ | rfl | hpast
  · rw [free_symbolId]
    by_cases hempty : (c.mm.symrgtbl k).rgStart = 0 ∧ (c.mm.symrgtbl k).rgEnd = 0
    · rw [if_pos hempty]
      refine ⟨fun _ => ⟨symbolId_ne_thirty k, fun j hj => ?_⟩, fun _ => rfl⟩
      rw [← symbolId_inj hj]
      exact hempty
    · rw [if_neg hempty]
      refine ⟨fun h => ?_, fun h => absurd (h.2 k rfl) hempty⟩
      cases hlist : enlistVmFreergList (c.mm.setSymrg k ⟨0, 0⟩) (c.mm.symrgtbl k) with
      | error e => rw [hlist] at h; cases h
      | ok r => rw [hlist] at h; cases h
  · rw [free_thirty]
    refine ⟨fun h => ?_, fun h => absurd rfl h.1⟩
    cases h
  · refine ⟨fun _ => ⟨?_, fun k hk => absurd hk (ne_symbolId hpast.le k)⟩,
      fun _ => free_past hpast⟩
    rintro rfl
    exact absurd hpast (by decide)

/-- The bounds check refuses an id outside the table, except 30 where an area is found. -/
theorem regionAddr_outside {c : ProcMem} {vmaid rgid : CInt} {offset : Addr}
    (h : 30 ≤ rgid.toNat) :
    regionAddr c vmaid rgid offset = .ok none ↔ rgid ≠ 30 ∨ getVmaByNum c.mm vmaid = none := by
  rcases symbol_cases rgid with ⟨k, hk⟩ | rfl | hpast
  · exact absurd hk (ne_symbolId h k)
  · rw [regionAddr_thirty]
    cases getVmaByNum c.mm vmaid <;> simp
  · rw [regionAddr_past hpast]
    refine ⟨fun _ => Or.inl ?_, fun _ => rfl⟩
    rintro rfl
    exact absurd hpast (by decide)

/-! ## Instructions -/

/-- The instruction returns a failure, delivers nothing and leaves the whole memory. -/
def FailsUnchanged (uninit : Addr → Byte) (c : ProcMem) (ins : Inst) : Prop :=
  execInst uninit c ins = .ok (-1, none, c)

/-- An instruction reaches the symbol table only inside, and with an id outside, in the
given sense of the operand, it fails without a trace. -/
structure SymbolsInBounds (outside : Addr → Prop) (uninit : Addr → Byte) (c : ProcMem)
    (ins : Inst) : Prop where
  /-- No access lies outside the table. -/
  noFault : ∀ rgid, execInst uninit c ins ≠ .error (.symrgtbl rgid)
  /-- Ids outside are refused. -/
  refused : ∀ id, symbolOperand ins = some id → outside id → FailsUnchanged uninit c ins

/-- What makes an instruction with a symbol id fail before it has an effect. -/
def InstRefused (c : ProcMem) (ins : Inst) : Prop :=
  match ins.opcode with
  | .alloc => AllocRefused c ins.arg0
  | .free => FreeRefused c (toCInt ins.arg0)
  | .read => regionAddr c 0 (toCInt ins.arg0) ins.arg1 = .ok none
  | .write => regionAddr c 0 (toCInt ins.arg1) ins.arg2 = .ok none
  | .calc => False
  | .syscall => False

/-- An instruction on a symbol fails without an effect exactly if it is refused before it
has one. -/
theorem failsUnchanged_iff {c : ProcMem} {ins : Inst} {id : Addr}
    (hid : symbolOperand ins = some id) : FailsUnchanged uninit c ins ↔ InstRefused c ins := by
  unfold FailsUnchanged execInst InstRefused
  unfold symbolOperand at hid
  cases hop : ins.opcode with
  | «calc» => rw [hop] at hid; cases hid
  | syscall => rw [hop] at hid; cases hid
  | alloc =>
    rw [← @liballoc_refused_iff uninit c ins.arg0 (toCInt ins.arg1)]
    cases liballoc uninit c ins.arg0 (toCInt ins.arg1) <;> simp [bind, Except.bind, Prod.ext_iff]
  | free =>
    rw [← free_refused_iff]
    simp only [libfree]
    cases free c (toCInt ins.arg0) <;> simp [bind, Except.bind, Prod.ext_iff]
  | read =>
    simp only [libread, MemoryLibrary.read]
    cases regionAddr c 0 (toCInt ins.arg0) ins.arg1 with
    | error e => simp [bind, Except.bind]
    | ok o => cases o <;> simp [bind, Except.bind]
  | write =>
    simp only [libwrite, MemoryLibrary.write]
    cases regionAddr c 0 (toCInt ins.arg1) ins.arg2 with
    | error e => simp [bind, Except.bind]
    | ok o => cases o <;> simp [bind, Except.bind]

/-- `__alloc` with an id of the table does not leave it. -/
theorem alloc_no_fault {c : ProcMem} {vmaid rgid : CInt} {size : Addr} (h : rgid.toNat < 30)
    (r : CInt) : alloc uninit c vmaid rgid size ≠ .error (.symrgtbl r) := by
  cases hv : getVmaByNum c.mm vmaid with
  | none =>
    unfold alloc
    simp [hv]
  | some area =>
    rw [alloc_eq hv, symrgSlot_eq, dif_pos h]
    cases foundRegion c.mm vmaid size with
    | some rg => simp [Except.map]
    | none => cases allocGrowth c vmaid size <;> simp [Except.map]

/-- With a symbol of the table `__free` does not leave it. -/
theorem free_no_fault {c : ProcMem} {rgid : CInt} (h : rgid.toNat < 30) (r : CInt) :
    free c rgid ≠ .error (.symrgtbl r) := by
  obtain ⟨k, rfl⟩ := exists_symbolId h
  rw [free_symbolId]
  unfold enlistVmFreergList
  split_ifs
  · simp
  all_goals cases (c.mm.setSymrg k ⟨0, 0⟩).mmap <;> simp [Except.map]

/-- With a symbol of the table the bounds check does not leave it. -/
theorem regionAddr_no_fault {c : ProcMem} {vmaid rgid : CInt} {offset : Addr}
    (h : rgid.toNat < 30) (r : CInt) : regionAddr c vmaid rgid offset ≠ .error (.symrgtbl r) := by
  obtain ⟨k, rfl⟩ := exists_symbolId h
  rw [regionAddr_symbolId]
  split_ifs <;> simp

/-- An access outside the table comes from an id outside. -/
theorem outside_of_fault {c : ProcMem} {ins : Inst} {r : CInt}
    (h : execInst uninit c ins = .error (.symrgtbl r)) :
    ∃ id, symbolOperand ins = some id ∧ 30 ≤ (toCInt id).toNat := by
  unfold execInst at h
  unfold symbolOperand
  cases hop : ins.opcode with
  | «calc» => rw [hop] at h; cases h
  | syscall => rw [hop] at h; cases h
  | alloc =>
    rw [hop] at h
    refine ⟨ins.arg1, rfl, Nat.le_of_not_lt fun hin => ?_⟩
    have hlib := error_of_bind (fun _ => by simp) h
    exact alloc_no_fault hin r (error_of_bind (fun _ => by simp) hlib)
  | free =>
    rw [hop] at h
    refine ⟨ins.arg0, rfl, Nat.le_of_not_lt fun hin => ?_⟩
    exact free_no_fault hin r (error_of_bind (fun _ => by simp) h)
  | read =>
    rw [hop] at h
    refine ⟨ins.arg0, rfl, Nat.le_of_not_lt fun hin => ?_⟩
    have hlib := error_of_bind (fun _ => by simp) h
    have hread := error_of_bind (fun _ => by split <;> simp) hlib
    exact regionAddr_no_fault hin r (error_of_bind (fun o => by cases o <;> simp) hread)
  | write =>
    rw [hop] at h
    refine ⟨ins.arg1, rfl, Nat.le_of_not_lt fun hin => ?_⟩
    have hwrite := error_of_bind (fun _ => by simp) h
    exact regionAddr_no_fault hin r (error_of_bind (fun o => by cases o <;> simp) hwrite)

/-- If the ids outside include all that the narrowed operand puts outside, an instruction
stays in bounds exactly if it is refused whenever its id is one of them. -/
theorem symbolsInBounds_iff_refused {outside : Addr → Prop}
    (hout : ∀ id, 30 ≤ (toCInt id).toNat → outside id) {c : ProcMem} {ins : Inst} :
    SymbolsInBounds outside uninit c ins ↔
      ∀ id, symbolOperand ins = some id → outside id → InstRefused c ins := by
  constructor
  · intro h id hid ho
    exact (failsUnchanged_iff hid).mp (h.refused id hid ho)
  · intro h
    refine ⟨fun r hfault => ?_, fun id hid ho => (failsUnchanged_iff hid).mpr (h id hid ho)⟩
    obtain ⟨id, hid, hge⟩ := outside_of_fault hfault
    have hok := (@failsUnchanged_iff uninit c ins id hid).mpr (h id hid (hout id hge))
    rw [hok] at hfault
    cases hfault

/-- Outside as the library sees it, after the operand is narrowed to `uint32_t`. -/
def NarrowedOutside (id : Addr) : Prop := 30 ≤ (toCInt id).toNat

/-- Outside as the operand is written. -/
def OperandOutside (id : Addr) : Prop := 30 ≤ id.toNat

/-- The id, once narrowed, is not 30; for `ALLOC` it is one of the table, or the
allocation fails without it. -/
def NarrowedSafe (c : ProcMem) (ins : Inst) : Prop :=
  match ins.opcode with
  | .alloc => (toCInt ins.arg1).toNat < 30 ∨ AllocRefused c ins.arg0
  | .free => toCInt ins.arg0 ≠ 30
  | .read => toCInt ins.arg0 ≠ 30 ∨ getVmaByNum c.mm 0 = none
  | .write => toCInt ins.arg1 ≠ 30 ∨ getVmaByNum c.mm 0 = none
  | .calc => True
  | .syscall => True

/-- The id is one of the table as it is written, or the instruction fails for another
reason before it has an effect. -/
def OperandSafe (c : ProcMem) (ins : Inst) : Prop :=
  ∀ id, symbolOperand ins = some id → id.toNat < 30 ∨ InstRefused c ins

/-- A refusal of an id outside only depends on whether it is 30. -/
theorem freeRefused_outside {c : ProcMem} {rgid : CInt} (h : 30 ≤ rgid.toNat) :
    FreeRefused c rgid ↔ rgid ≠ 30 :=
  ⟨fun hr => hr.1, fun hne => ⟨hne, fun k hk => absurd hk (ne_symbolId h k)⟩⟩

/-- The bounds check refuses a symbol outside of the table unless that is 30 and there is
an area. -/
theorem regionAddr_safe_iff {c : ProcMem} {rgid : CInt} {offset : Addr} :
    (30 ≤ rgid.toNat → regionAddr c 0 rgid offset = .ok none) ↔
      rgid ≠ 30 ∨ getVmaByNum c.mm 0 = none := by
  refine ⟨fun h => ?_, fun hor ho => (regionAddr_outside ho).mpr hor⟩
  by_cases he : rgid = 30
  · have ho : 30 ≤ rgid.toNat := by
      rw [he]
      decide
    exact (regionAddr_outside ho).mp (h ho)
  · exact Or.inl he

/-- The condition on narrowed ids says that ids outside are refused. -/
theorem narrowedSafe_iff {c : ProcMem} {ins : Inst} :
    (∀ id, symbolOperand ins = some id → NarrowedOutside id → InstRefused c ins) ↔
      NarrowedSafe c ins := by
  unfold symbolOperand NarrowedSafe InstRefused NarrowedOutside
  cases ins.opcode with
  | «calc» => simp
  | syscall => simp
  | alloc =>
    simp only [Option.some.injEq, forall_eq']
    rw [← Nat.not_le, imp_iff_not_or]
  | free =>
    simp only [Option.some.injEq, forall_eq']
    refine ⟨fun h he => ?_, fun hne ho => (freeRefused_outside ho).mpr hne⟩
    exact (h (by rw [he]; decide)).1 he
  | read =>
    simp only [Option.some.injEq, forall_eq']
    exact regionAddr_safe_iff
  | write =>
    simp only [Option.some.injEq, forall_eq']
    exact regionAddr_safe_iff

/-- Instructions stay in the symbol table exactly under these conditions, for either
reading of an id. -/
theorem symbolsInBounds_iff (uninit : Addr → Byte) (c : ProcMem) (ins : Inst) :
    (SymbolsInBounds NarrowedOutside uninit c ins ↔ NarrowedSafe c ins) ∧
      (SymbolsInBounds OperandOutside uninit c ins ↔ OperandSafe c ins) := by
  constructor
  · have hout : ∀ id : Addr, 30 ≤ (toCInt id).toNat → NarrowedOutside id := fun _ h => h
    rw [symbolsInBounds_iff_refused hout]
    exact narrowedSafe_iff
  · have hout : ∀ id : Addr, 30 ≤ (toCInt id).toNat → OperandOutside id := by
      intro id h
      unfold toCInt at h
      rw [BitVec.toNat_setWidth] at h
      exact le_trans h (Nat.mod_le _ _)
    rw [symbolsInBounds_iff_refused hout]
    unfold OperandSafe OperandOutside
    refine forall₂_congr fun id _ => ?_
    rw [← Nat.not_le, imp_iff_not_or]

/-- Freeing symbol 30 of a fresh process reads past the table, and allocating under id
30 writes there. -/
theorem not_symbolsInBounds_boot :
    ¬SymbolsInBounds NarrowedOutside (fun _ => 0) (bootMem 8192 0) ⟨.free, 30, 0, 0, 0⟩ ∧
      ¬SymbolsInBounds OperandOutside (fun _ => 0) (bootMem 8192 0) ⟨.alloc, 16, 30, 0, 0⟩ :=
  ⟨fun h => h.noFault 30 rfl, fun h => h.noFault 30 rfl⟩

end OsSim.MemorySymbols
