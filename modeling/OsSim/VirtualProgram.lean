import OsSim.VirtualMemory
import OsSim.MemoryRegions
import OsSim.MemorySymbols
import OsSim.ProcessRun

/-!
# Programs on a memory of their own

A program is a list of instructions, executed in order on one abstract memory and ten
registers. Operands that the source does not check and the pages of the heap are
known from the text: a program whose operands are in order and whose heap fits the
page table runs to its end, and touches no byte above its break.
-/

namespace OsSim.VirtualProgram

open MemoryWords MemoryPageTable MemoryMapping MemoryPaging MemoryLibrary MemoryArea
open MemoryBounds MemorySymbols MemoryRegions VirtualMemory ProcessRun

/-! ## What a program means -/

/-- A process on a memory of its own. -/
structure VirtualProc where
  /-- The abstract memory. -/
  mem : VirtualMem
  /-- The registers. -/
  regs : Fin 10 → Addr

/-- A process that has just been loaded; its registers are not set. -/
def VirtualProc.load (regs : Fin 10 → Addr) : VirtualProc := ⟨VirtualMem.init, regs⟩

/-- One instruction. Nobody looks at its status. -/
def VirtualProc.exec (p : VirtualProc) (ins : Inst) : Except Fault VirtualProc := do
  let r ← p.mem.exec ins
  let regs ← putReg p.regs ins.arg2 r.2.1
  .ok ⟨r.2.2, regs⟩

/-- What an instruction that returns has done. -/
theorem VirtualProc.exec_cases {p q : VirtualProc} {ins : Inst} (h : p.exec ins = .ok q) :
    ∃ status word v regs, p.mem.exec ins = .ok (status, word, v) ∧
      putReg p.regs ins.arg2 word = .ok regs ∧ q = ⟨v, regs⟩ := by
  unfold VirtualProc.exec at h
  obtain ⟨⟨status, word, v⟩, he, h⟩ := RunSteps.ok_of_bind h
  obtain ⟨regs, hr, h⟩ := RunSteps.ok_of_bind h
  cases h
  exact ⟨status, word, v, regs, he, hr, rfl⟩

/-- The meaning of a program: its instructions one after the other. -/
def meaning (regs : Fin 10 → Addr) (code : List Inst) : Except Fault VirtualProc :=
  code.foldlM VirtualProc.exec (VirtualProc.load regs)

/-- A program with one more instruction means what that instruction does behind the rest of
the program. -/
theorem meaning_snoc {regs : Fin 10 → Addr} {code : List Inst} {p p' : VirtualProc} {ins : Inst}
    (h : meaning regs code = .ok p) (he : p.exec ins = .ok p') :
    meaning regs (code ++ [ins]) = .ok p' := by
  unfold meaning at h ⊢
  rw [List.foldlM_append, h]
  change ([ins].foldlM VirtualProc.exec p) = .ok p'
  rw [List.foldlM_cons, he]
  rfl

/-! ## What can be read off the text -/

/-- The operands that the source takes as they are: a symbol of the table, a size that
fits an `int`, a register of the file, and no operation on RAM or on the page table. -/
def WellFormed (ins : Inst) : Prop :=
  match ins.opcode with
  | .calc => True
  | .alloc => ins.arg0.toNat < 2 ^ 31 ∧ (toCInt ins.arg1).toNat < 30
  | .free => toCInt ins.arg0 ≠ 30
  | .read => toCInt ins.arg0 ≠ 30 ∧ ins.arg2.toNat < 10
  | .write => toCInt ins.arg1 ≠ 30
  | .syscall => toCInt ins.arg0 = 17 → toCInt ins.arg1 ≠ sysmemMapOp ∧
      toCInt ins.arg1 ≠ sysmemIoRead ∧ toCInt ins.arg1 ≠ sysmemIoWrite ∧
      (toCInt ins.arg1 = sysmemIncOp → ins.arg3.toNat < 2 ^ 31)

/-- The most pages an instruction adds to the heap. -/
def pagesOf (ins : Inst) : ℕ :=
  match ins.opcode with
  | .alloc => max 1 (pagesNeeded ins.arg0)
  | .syscall =>
    if toCInt ins.arg0 = 17 ∧ toCInt ins.arg1 = sysmemIncOp then max 1 (pagesNeeded ins.arg3)
    else 0
  | _ => 0

/-- The most pages a program adds to the heap. -/
def heapPages (code : List Inst) : ℕ := (code.map pagesOf).sum

@[simp] theorem heapPages_nil : heapPages [] = 0 := rfl

@[simp] theorem heapPages_cons (ins : Inst) (code : List Inst) :
    heapPages (ins :: code) = pagesOf ins + heapPages code := rfl

@[simp] theorem heapPages_append (code code' : List Inst) :
    heapPages (code ++ code') = heapPages code + heapPages code' := by
  unfold heapPages
  rw [List.map_append, List.sum_append]

/-! ## Memory below the break -/

/-- The heap takes at most so many pages, and all regions lie in it. -/
structure Confined (v : VirtualMem) (pages : ℕ) : Prop where
  /-- The break is reached by that many pages. -/
  sbrk_le : v.sbrk.toNat ≤ pages * 4096
  /-- The break is a multiple of the page size. -/
  aligned : 4096 ∣ v.sbrk.toNat
  /-- Symbols lie below the break. -/
  table : ∀ k, Within (v.symrgtbl k) v.sbrk
  /-- Free regions lie below the break. -/
  free : ∀ rg ∈ v.freergs, Within rg v.sbrk

/-- A fresh memory has no heap. -/
theorem confined_init : Confined VirtualMem.init 0 := by
  have hzero : Within ⟨0, 0⟩ 0 := ⟨le_refl _, le_refl _⟩
  refine ⟨le_refl _, dvd_zero _, fun _ => hzero, fun rg hrg => ?_⟩
  obtain rfl := List.mem_singleton.mp hrg
  exact hzero

/-- More pages may be allowed for. -/
theorem Confined.mono {v : VirtualMem} {m n : ℕ} (h : Confined v m) (hle : m ≤ n) :
    Confined v n :=
  ⟨h.sbrk_le.trans (Nat.mul_le_mul_right _ hle), h.aligned, h.table, h.free⟩

/-- A region below a break lies below every higher break. -/
theorem within_mono {rg : VmRg} {brk brk' : Addr} (h : Within rg brk)
    (hle : brk.toNat ≤ brk'.toNat) : Within rg brk' :=
  ⟨h.1, h.2.trans hle⟩

/-- A symbol gets a region below the break. -/
theorem Confined.setSymrg {v : VirtualMem} {n : ℕ} (h : Confined v n) (k : Fin 30) {rg : VmRg}
    (hrg : Within rg v.sbrk) : Confined (v.setSymrg k rg) n := by
  refine ⟨h.sbrk_le, h.aligned, fun j => ?_, h.free⟩
  by_cases hj : j = k
  · subst hj
    dsimp only [VirtualMem.setSymrg]
    rw [Function.update_self]
    exact hrg
  · dsimp only [VirtualMem.setSymrg]
    rw [Function.update_of_ne hj]
    exact h.table j

/-- Where a growth moves the break to. -/
theorem grow_sbrk {v grown : VirtualMem} {size : Addr} (hbrk : v.sbrk.toNat < 2 ^ 31)
    (hal : 4096 ∣ v.sbrk.toNat) (hsize : size.toNat < 2 ^ 31) (hg : v.grow size = some grown) :
    grown.sbrk.toNat = v.sbrk.toNat + pagesNeeded size * 4096 ∧ 4096 ∣ grown.sbrk.toNat ∧
      v.sbrk.toNat + size.toNat ≤ grown.sbrk.toNat := by
  obtain ⟨_, ⟨⟩⟩ := Option.ite_none_left_eq_some.mp hg
  have hpages : (paging64PageAlignsz size).toNat = pagesNeeded size * 4096 := by
    rw [paging64PageAlignsz_toNat, Nat.mod_eq_of_lt]
    unfold pagesNeeded
    omega
  rw [← hpages]
  exact raised_toNat hbrk hsize hal

/-- A growth raises the break by its pages. -/
theorem Confined.grow {v grown : VirtualMem} {n : ℕ} (h : Confined v n) {size : Addr}
    (hsize : size.toNat < 2 ^ 31) (hn : n ≤ 512) (hg : v.grow size = some grown) :
    Confined grown (n + max 1 (pagesNeeded size)) ∧
      v.sbrk.toNat + size.toNat ≤ grown.sbrk.toNat := by
  have hle := h.sbrk_le
  obtain ⟨hbrk, hdvd, hend⟩ := grow_sbrk (by omega) h.aligned hsize hg
  have hup : v.sbrk.toNat ≤ grown.sbrk.toNat := by omega
  obtain ⟨_, ⟨⟩⟩ := Option.ite_none_left_eq_some.mp hg
  refine ⟨⟨?_, hdvd, fun k => within_mono (h.table k) hup,
    fun rg hrg => within_mono (h.free rg hrg) hup⟩, hend⟩
  rw [hbrk, Nat.add_mul]
  have hmax := Nat.le_max_right 1 (pagesNeeded size)
  omega

/-- An allocation keeps the heap in its pages. -/
theorem Confined.alloc {v : VirtualMem} {n : ℕ} (h : Confined v n) (hn : n ≤ 512) {rgid : CInt}
    (hid : rgid.toNat < 30) {size : Addr} (hsize : size.toNat < 2 ^ 31) :
    ∃ status v', v.alloc rgid size = .ok (status, v') ∧
      Confined v' (n + max 1 (pagesNeeded size)) := by
  have hle := h.sbrk_le
  have hcut : (toCInt size).toNat = size.toNat := by
    unfold toCInt
    rw [BitVec.toNat_setWidth]
    omega
  have hk : symrgSlot rgid = .ok ⟨rgid.toNat, hid⟩ := dif_pos hid
  unfold VirtualMem.alloc
  dsimp only
  obtain hfree | ⟨rg, hfree, hc⟩ :=
    getFreeVmrgArea_spec (show (toCInt size).toNat < 2 ^ 31 by omega)
      (show v.sbrk.toNat < 2 ^ 63 by omega) h.free
  · rw [hfree]
    dsimp only
    cases hg : v.grow size with
    | none => exact ⟨-1, v, rfl, h.mono (Nat.le_add_right _ _)⟩
    | some grown =>
      obtain ⟨hgrown, hend⟩ := h.grow hsize hn hg
      rw [hk, toAddr_toCInt (show v.sbrk.toNat < 2 ^ 31 by omega)]
      refine ⟨0, _, rfl, hgrown.setSymrg _ ⟨?_, ?_⟩⟩
      · dsimp only
        rw [BitVec.toNat_add]
        omega
      · dsimp only
        rw [BitVec.toNat_add]
        omega
  · rw [hfree, hk]
    have hlist : Confined {v with freergs := (getFreeVmrgArea v.freergs (toCInt size)).2} n :=
      ⟨h.sbrk_le, h.aligned, h.table, hc.rest⟩
    exact ⟨0, _, rfl, (hlist.setSymrg _ hc.region).mono (Nat.le_add_right _ _)⟩

/-- An id other than 30 names an entry, or is refused. -/
theorem getSymrgByid_of_ne {rgid : CInt} (hid : rgid ≠ 30) :
    getSymrgByid rgid = none ∨ ∃ k, rgid = symbolId k := by
  rcases symbol_cases rgid with hk | rfl | hpast
  · exact Or.inr hk
  · exact absurd rfl hid
  · refine Or.inl ?_
    unfold getSymrgByid
    rw [guard_eq, if_pos (by simpa using hpast)]

/-- A release keeps the heap as it is. -/
theorem Confined.release {v : VirtualMem} {n : ℕ} (h : Confined v n) {rgid : CInt}
    (hid : rgid ≠ 30) : ∃ status v', v.free rgid = .ok (status, v') ∧ Confined v' n := by
  unfold VirtualMem.free
  obtain hnone | ⟨k, rfl⟩ := getSymrgByid_of_ne hid
  · rw [hnone]
    exact ⟨-1, v, rfl, h⟩
  · rw [getSymrgByid_symbolId, symrgSlot_symbolId]
    by_cases hzero : (v.symrgtbl k).rgStart = 0 ∧ (v.symrgtbl k).rgEnd = 0
    · exact ⟨-1, v, if_pos hzero, h⟩
    · refine ⟨0, _, if_neg hzero, ?_⟩
      have hset := h.setSymrg k (show Within ⟨0, 0⟩ v.sbrk from ⟨le_refl _, Nat.zero_le _⟩)
      refine ⟨hset.sbrk_le, hset.aligned, hset.table, fun rg hrg => ?_⟩
      dsimp only at hrg
      split at hrg
      · exact h.free rg hrg
      · obtain rfl | hmem := List.mem_cons.mp hrg
        · exact h.table k
        · exact h.free rg hmem

/-- A byte that passes the bounds check lies below the break. -/
theorem Confined.regionAddr {v : VirtualMem} {n : ℕ} (h : Confined v n) {rgid : CInt}
    (hid : rgid ≠ 30) (offset : Addr) : ∃ o, v.regionAddr rgid offset = .ok o ∧
      ∀ addr ∈ o, addr.toNat < v.sbrk.toNat := by
  unfold VirtualMem.regionAddr
  obtain hnone | ⟨k, rfl⟩ := getSymrgByid_of_ne hid
  · rw [hnone]
    exact ⟨none, rfl, fun _ hm => by cases hm⟩
  · rw [getSymrgByid_symbolId]
    dsimp only
    rw [symrgSlot_symbolId]
    by_cases hend : (v.symrgtbl k).rgEnd ≤ (v.symrgtbl k).rgStart + offset
    · exact ⟨none, if_pos hend, fun _ hm => by cases hm⟩
    · refine ⟨_, if_neg hend, fun addr hm => ?_⟩
      cases hm
      exact (BitVec.lt_def.mp (BitVec.not_le.mp hend)).trans_le (h.table k).2

/-- The system call keeps the heap in its pages. -/
theorem Confined.syscall {v : VirtualMem} {n : ℕ} (h : Confined v n) {ins : Inst}
    (hop : ins.opcode = .syscall) (hw : WellFormed ins) (hn : n ≤ 512) :
    Confined (v.syscall ins).2 (n + pagesOf ins) := by
  have hkeep : Confined v (n + pagesOf ins) := h.mono (Nat.le_add_right _ _)
  unfold WellFormed at hw
  rw [hop] at hw
  unfold VirtualMem.syscall
  split
  · exact hkeep
  · next hnr =>
    have hnr := not_not.mp hnr
    split
    · next hinc =>
      split
      · exact hkeep
      · cases hg : v.grow ins.arg3 with
        | none => exact hkeep
        | some grown =>
          have hpages : pagesOf ins = max 1 (pagesNeeded ins.arg3) := by
            unfold pagesOf
            rw [hop]
            exact if_pos ⟨hnr, hinc⟩
          rw [hpages]
          exact (h.grow ((hw hnr).2.2.2 hinc) hn hg).1
    · split
      · exact hkeep
      · exact hkeep

/-- A well-formed instruction returns and keeps the heap in its pages; only a read
delivers a word. -/
theorem Confined.exec {v : VirtualMem} {n : ℕ} (h : Confined v n) {ins : Inst}
    (hw : WellFormed ins) (hn : n ≤ 512) : ∃ status word v',
      v.exec ins = .ok (status, word, v') ∧ Confined v' (n + pagesOf ins) ∧
        (word = none ∨ ins.opcode = .read) := by
  have hkeep : Confined v (n + pagesOf ins) := h.mono (Nat.le_add_right _ _)
  unfold VirtualMem.exec
  cases hop : ins.opcode with
  | «calc» => exact ⟨0, none, v, rfl, hkeep, Or.inl rfl⟩
  | alloc =>
    unfold WellFormed at hw
    rw [hop] at hw
    obtain ⟨status, v', hv, hc⟩ := h.alloc hn hw.2 hw.1
    dsimp only
    rw [hv, pagesOf, hop]
    exact ⟨status, none, v', rfl, hc, Or.inl rfl⟩
  | free =>
    unfold WellFormed at hw
    rw [hop] at hw
    obtain ⟨status, v', hv, hc⟩ := h.release hw
    dsimp only
    rw [hv]
    exact ⟨status, none, v', rfl, hc.mono (Nat.le_add_right _ _), Or.inl rfl⟩
  | read =>
    unfold WellFormed at hw
    rw [hop] at hw
    obtain ⟨o, ho, _⟩ := h.regionAddr hw.1 ins.arg1
    dsimp only
    rw [ho]
    cases o with
    | none => exact ⟨-1, none, v, rfl, hkeep, Or.inl rfl⟩
    | some addr => exact ⟨0, _, v, rfl, hkeep, Or.inr rfl⟩
  | write =>
    unfold WellFormed at hw
    rw [hop] at hw
    obtain ⟨o, ho, _⟩ := h.regionAddr hw ins.arg2
    dsimp only
    rw [ho]
    cases o with
    | none => exact ⟨-1, none, v, rfl, hkeep, Or.inl rfl⟩
    | some addr =>
      exact ⟨0, none, _, rfl, ⟨hkeep.sbrk_le, hkeep.aligned, hkeep.table, hkeep.free⟩, Or.inl rfl⟩
  | syscall => exact ⟨_, none, _, rfl, h.syscall hop hw hn, Or.inl rfl⟩

/-- A well-formed instruction of a program returns. -/
theorem Confined.step {p : VirtualProc} {n : ℕ} (h : Confined p.mem n) {ins : Inst}
    (hw : WellFormed ins) (hn : n ≤ 512) : ∃ p', p.exec ins = .ok p' ∧
      Confined p'.mem (n + pagesOf ins) := by
  obtain ⟨status, word, v', he, hc, hword⟩ := h.exec hw hn
  obtain ⟨regs, hregs⟩ : ∃ regs, putReg p.regs ins.arg2 word = .ok regs := by
    obtain rfl | hread := hword
    · exact ⟨_, rfl⟩
    · unfold WellFormed at hw
      rw [hread] at hw
      cases word with
      | none => exact ⟨_, rfl⟩
      | some w => exact ⟨_, dif_pos hw.2⟩
  refine ⟨⟨v', regs⟩, ?_, hc⟩
  unfold VirtualProc.exec
  rw [he]
  dsimp only [bind, Except.bind]
  rw [hregs]

end OsSim.VirtualProgram
