import OsSim.MemoryRegions

/-!
# Where heap bytes go

A ledger kept beside the allocator records the bytes it gives up: those between a
size asked for and the end of the last page of the growth, and those of a region
whose symbol gets another one. Every other byte below the break is in a region, in
every state.
-/

namespace OsSim.MemoryLedger

open MemoryWords MemoryDevice MemoryPageTable MemoryMapping MemoryPaging MemoryLibrary
open MemoryInstruction MemoryRegions RunSteps SpanCover

variable {uninit : Addr → Byte}

/-- Allocations and releases, and whatever others do to the devices. -/
def allocOrFree : RegionOp → Bool
  | .inc _ _ => false
  | _ => true

/-- The bytes of the region that a symbol has before it gets another one. -/
def replacedBytes (c : ProcMem) (rgid : CInt) : Set ℕ :=
  {a | ∃ k, symrgSlot rgid = .ok k ∧ a ∈ regionBytes (c.mm.symrgtbl k)}

/-- The bytes from the end of the requested size to the new break. -/
def growthRest (c c' : ProcMem) (size : Addr) : Set ℕ :=
  {a | ∃ vma ∈ c.mm.mmap, ∃ vma' ∈ c'.mm.mmap,
    vma.sbrk.toNat + size.toNat ≤ a ∧ a < vma'.sbrk.toNat}

/-- The bytes an operation gives up. -/
def givenUp (uninit : Addr → Byte) (c : ProcMem) (op : RegionOp) (c' : ProcMem) : Set ℕ :=
  match op with
  | .alloc vmaid rgid size =>
    {a | (∃ addr, alloc uninit c vmaid rgid size = .ok (some addr, c')) ∧
      (a ∈ replacedBytes c rgid ∨ a ∈ growthRest c c' size)}
  | _ => ∅

/-- The memory of a process with the bytes it has given up. -/
structure Ledger where
  /-- The memory. -/
  mem : ProcMem
  /-- The bytes given up so far. -/
  lost : Set ℕ

/-- An operation, entered into the ledger. -/
def LedgerStep (uninit : Addr → Byte) (l : Ledger) (op : RegionOp) (l' : Ledger) : Prop :=
  RegionStep uninit l.mem op l'.mem ∧ l'.lost = l.lost ∪ givenUp uninit l.mem op l'.mem

/-- The condition on one operation: sizes and breaks fit an `int`, and the heap grows
by allocations only. -/
def LedgerOp (l : Ledger) (op : RegionOp) : Prop := OpFits l.mem op ∧ allocOrFree op

/-- What a run keeps: a byte below the break is in a region unless it is lost. -/
structure Accounted (l : Ledger) (vma : VmArea) : Prop where
  /-- Regions are well formed and disjoint. -/
  inv : RegionInv l.mem.mm vma
  /-- Lost bytes lie below the break. -/
  below : ∀ a ∈ l.lost, a < vma.sbrk.toNat
  /-- A byte below the break is covered exactly if it is not lost. -/
  covered : ∀ a < vma.sbrk.toNat,
    0 < tableCover l.mem.mm a + freeCover vma.vmFreergList a ↔ a ∉ l.lost

/-- Some region of a list contains a byte exactly if the list covers it. -/
theorem exists_regionBytes_iff (l : List VmRg) (a : ℕ) :
    (∃ rg ∈ l, a ∈ regionBytes rg) ↔ 0 < cover (l.map span) a := by
  constructor
  · rintro ⟨rg, hrg, ha⟩
    exact (hit_pos.mpr ha).trans_le (hit_le_cover (List.mem_map_of_mem hrg) a)
  · intro h
    obtain ⟨s, hs, hp⟩ := exists_mem_of_cover_pos h
    obtain ⟨rg, hrg, rfl⟩ := List.mem_map.mp hs
    exact ⟨rg, hrg, hit_pos.mp hp⟩

/-- Nothing past the break is covered. -/
theorem cover_eq_zero_of_le {mm : MmStruct} {vma : VmArea} (h : RegionInv mm vma) {a : ℕ}
    (ha : vma.sbrk.toNat ≤ a) : tableCover mm a = 0 ∧ freeCover vma.vmFreergList a = 0 := by
  refine ⟨cover_eq_zero_of_end_le fun s hs => ?_, cover_eq_zero_of_end_le fun s hs => ?_⟩
  · obtain ⟨k, rfl⟩ := List.mem_ofFn.mp hs
    exact (h.table k).2.trans ha
  · obtain ⟨rg, hrg, rfl⟩ := List.mem_map.mp hs
    exact (h.free rg hrg).2.trans ha

/-- The region of a symbol counts for its own bytes in the table. -/
theorem hit_symrgtbl_le (mm : MmStruct) (k : Fin 30) (a : ℕ) :
    hit (span (mm.symrgtbl k)) a ≤ tableCover mm a := by
  have hmem : span (mm.symrgtbl k) ∈ List.ofFn fun j => span (mm.symrgtbl j) :=
    List.mem_ofFn.mpr ⟨k, rfl⟩
  exact hit_le_cover hmem a

/-- The regions account for all bytes that are not lost. -/
theorem Accounted.allRegions_iff {l : Ledger} {vma : VmArea} (h : Accounted l vma) (a : ℕ) :
    (∃ rg ∈ allRegions l.mem.mm, a ∈ regionBytes rg) ↔ a < vma.sbrk.toNat ∧ a ∉ l.lost := by
  have hall : cover ((allRegions l.mem.mm).map span) a =
      tableCover l.mem.mm a + freeCover vma.vmFreergList a := by
    unfold allRegions
    rw [h.inv.single, List.flatMap_singleton, List.map_append, cover_append, List.map_ofFn]
    rfl
  rw [exists_regionBytes_iff, hall]
  by_cases ha : a < vma.sbrk.toNat
  · rw [h.covered a ha]
    exact ⟨fun hn => ⟨ha, hn⟩, fun hn => hn.2⟩
  · obtain ⟨ht, hf⟩ := cover_eq_zero_of_le h.inv (Nat.not_lt.mp ha)
    rw [ht, hf]
    exact ⟨fun h0 => absurd h0 (Nat.lt_irrefl 0), fun hn => absurd hn.1 ha⟩

/-- Once no symbol has a byte, the free list has all that are not lost. -/
theorem Accounted.freeList_iff {l : Ledger} {vma : VmArea} (h : Accounted l vma)
    (hfreed : ∀ k, regionBytes (l.mem.mm.symrgtbl k) = ∅) (a : ℕ) :
    (∃ rg ∈ vma.vmFreergList, a ∈ regionBytes rg) ↔ a < vma.sbrk.toNat ∧ a ∉ l.lost := by
  rw [← h.allRegions_iff a]
  unfold allRegions
  rw [h.inv.single, List.flatMap_singleton]
  constructor
  · rintro ⟨rg, hrg, ha⟩
    exact ⟨rg, List.mem_append_right _ hrg, ha⟩
  · rintro ⟨rg, hrg, ha⟩
    rcases List.mem_append.mp hrg with hrg | hrg
    · obtain ⟨k, rfl⟩ := List.mem_ofFn.mp hrg
      rw [hfreed k] at ha
      exact absurd ha (Set.notMem_empty a)
    · exact ⟨rg, hrg, ha⟩

/-- The bytes of the symbol that gets another region. -/
theorem mem_replacedBytes {c : ProcMem} {rgid : CInt} {k : Fin 30} (hk : symrgSlot rgid = .ok k)
    (a : ℕ) : a ∈ replacedBytes c rgid ↔ 0 < hit (span (c.mm.symrgtbl k)) a := by
  unfold replacedBytes
  rw [Set.mem_ofPred_eq, hit_pos]
  constructor
  · rintro ⟨k', hk', ha⟩
    cases hk.symm.trans hk'
    exact ha
  · exact fun ha => ⟨k, hk, ha⟩

/-- The bytes behind a growth, seen from the two breaks. -/
theorem mem_growthRest {c c' : ProcMem} {vma vma' : VmArea} (hm : c.mm.mmap = [vma])
    (hm' : c'.mm.mmap = [vma']) (size : Addr) (a : ℕ) : a ∈ growthRest c c' size ↔
      vma.sbrk.toNat + size.toNat ≤ a ∧ a < vma'.sbrk.toNat := by
  unfold growthRest
  rw [Set.mem_ofPred_eq, hm, hm']
  simp only [List.mem_singleton, exists_eq_left]

/-- Handing out a free region loses the bytes that its symbol had. -/
theorem Accounted.reused {l l' : Ledger} {vma : VmArea} (h : Accounted l vma) {rg : VmRg}
    {freergs : List VmRg} {k : Fin 30} {size : CInt}
    (hc : CutOut vma.vmFreergList vma.sbrk size rg freergs)
    (hm : l'.mem.mm = {l.mem.mm with mmap := [{vma with vmFreergList := freergs}]}.setSymrg k rg)
    (hlost : ∀ a, a ∈ l'.lost ↔ a ∈ l.lost ∨ 0 < hit (span (l.mem.mm.symrgtbl k)) a) :
    Accounted l' {vma with vmFreergList := freergs} := by
  refine ⟨?_, fun a ha => ?_, fun a ha => ?_⟩
  · rw [hm]
    exact h.inv.handOut hc k
  · rcases (hlost a).mp ha with ha | ha
    · exact h.below a ha
    · exact (hit_pos.mp ha).2.trans_le (h.inv.table k).2
  · have ht : tableCover l'.mem.mm a + hit (span (l.mem.mm.symrgtbl k)) a =
        tableCover l.mem.mm a + hit (span rg) a := by
      rw [hm]
      exact tableCover_setSymrg _ k rg a
    have hold := hit_symrgtbl_le l.mem.mm k a
    have hb := hc.bytes a
    have honce := h.inv.once a
    rw [hlost, not_or, ← h.covered a ha]
    dsimp only
    omega

/-- Handing out bytes behind the old break loses those up to the new one, and the bytes
that the symbol had. -/
theorem Accounted.grown {l l' : Ledger} {vma : VmArea} (h : Accounted l vma) {brk size : Addr}
    {k : Fin 30} (hinv : RegionInv l'.mem.mm {vma with vmEnd := brk, sbrk := brk})
    (hend : (vma.sbrk + size).toNat = vma.sbrk.toNat + size.toNat)
    (hle : vma.sbrk.toNat + size.toNat ≤ brk.toNat)
    (hsym : l'.mem.mm.symrgtbl =
      Function.update l.mem.mm.symrgtbl k ⟨vma.sbrk, vma.sbrk + size⟩)
    (hlost : ∀ a, a ∈ l'.lost ↔ a ∈ l.lost ∨ 0 < hit (span (l.mem.mm.symrgtbl k)) a ∨
      (vma.sbrk.toNat + size.toNat ≤ a ∧ a < brk.toNat)) :
    Accounted l' {vma with vmEnd := brk, sbrk := brk} := by
  refine ⟨hinv, fun a ha => ?_, fun a ha => ?_⟩
  · dsimp only
    rcases (hlost a).mp ha with ha | ha | ha
    · exact (h.below a ha).trans_le (by omega)
    · exact ((hit_pos.mp ha).2.trans_le (h.inv.table k).2).trans_le (by omega)
    · exact ha.2
  · have ht : tableCover l'.mem.mm a + hit (span (l.mem.mm.symrgtbl k)) a =
        tableCover l.mem.mm a + hit (span ⟨vma.sbrk, vma.sbrk + size⟩) a := by
      rw [← tableCover_setSymrg l.mem.mm k ⟨vma.sbrk, vma.sbrk + size⟩ a]
      unfold tableCover
      rw [hsym]
      rfl
    have hnew : 0 < hit (span ⟨vma.sbrk, vma.sbrk + size⟩) a ↔
        vma.sbrk.toNat ≤ a ∧ a < vma.sbrk.toNat + size.toNat := by
      rw [hit_pos, Set.mem_Ico, ← hend]
      exact Iff.rfl
    have hold := hit_symrgtbl_le l.mem.mm k a
    rw [hlost]
    dsimp only at ha ⊢
    by_cases hlt : a < vma.sbrk.toNat
    · have honce := h.inv.once a
      rw [not_or, not_or, ← h.covered a hlt]
      omega
    · -- past the old break there was nothing
      obtain ⟨ht0, hf0⟩ := cover_eq_zero_of_le h.inv (Nat.not_lt.mp hlt)
      have hlost0 : a ∉ l.lost := fun hl => hlt (h.below a hl)
      have honce := hit_le_one (span ⟨vma.sbrk, vma.sbrk + size⟩) a
      rw [not_or, not_or, eq_true hlost0, true_and]
      omega

/-- An allocation keeps the account, whether it fails, hands out a free region or grows
the heap. -/
theorem Accounted.allocated {l l' : Ledger} {vma : VmArea} (h : Accounted l vma)
    {vmaid rgid : CInt} {size : Addr} (hb : vma.sbrk.toNat < 2 ^ 31) (hsize : size.toNat < 2 ^ 31)
    (hstep : LedgerStep uninit l (.alloc vmaid rgid size) l') : ∃ vma, Accounted l' vma := by
  obtain ⟨⟨o, ha⟩, hlost⟩ := hstep
  have hs : (toCInt size).toNat < 2 ^ 31 := by
    unfold toCInt
    rw [BitVec.toNat_setWidth]
    exact (Nat.mod_le _ _).trans_lt hsize
  have hgiven : ∀ a, a ∈ l'.lost ↔ a ∈ l.lost ∨
      (∃ addr, o = some addr) ∧ (a ∈ replacedBytes l.mem rgid ∨
        a ∈ growthRest l.mem l'.mem size) := by
    intro a
    rw [hlost, Set.mem_union]
    unfold givenUp
    rw [Set.mem_ofPred_eq, ha]
    refine or_congr_right (and_congr_left' ?_)
    exact ⟨fun ⟨addr, he⟩ => ⟨addr, congrArg Prod.fst (Except.ok.inj he)⟩,
      fun ⟨addr, he⟩ => ⟨addr, by rw [he]⟩⟩
  obtain ⟨rfl, hm⟩ | ⟨rg, freergs, k, rfl, hk, hc, hm⟩ |
    ⟨brk, k, rfl, hk, hdvd, hend, hle, hm, hsym⟩ := h.inv.alloc_outcome hb hs (fun _ => hsize) ha
  · have hlost : ∀ a, a ∈ l'.lost ↔ a ∈ l.lost := fun a => by
      rw [hgiven]
      exact or_iff_left fun hg => hg.1.elim fun _ he => nomatch he
    refine ⟨vma, ?_, fun a ha => h.below a ((hlost a).mp ha), fun a ha => ?_⟩
    · rw [hm]
      exact h.inv
    · rw [hm, hlost]
      exact h.covered a ha
  · refine ⟨_, h.reused hc hm fun a => ?_⟩
    have hm' : l'.mem.mm.mmap = [{vma with vmFreergList := freergs}] := by
      rw [hm]
      rfl
    rw [hgiven, mem_replacedBytes hk, mem_growthRest h.inv.single hm']
    refine or_congr_right ⟨fun hg => hg.2.resolve_right fun hr => ?_,
      fun hg => ⟨⟨_, rfl⟩, Or.inl hg⟩⟩
    -- no break has moved
    dsimp only at hr
    omega
  · have hwithin : Within ⟨vma.sbrk, vma.sbrk + size⟩ brk :=
      ⟨by dsimp only; omega, by dsimp only; omega⟩
    have hinv : RegionInv l'.mem.mm {vma with vmEnd := brk, sbrk := brk} :=
      (h.inv.enter (by omega) hdvd k rfl hwithin).congr hm hsym
    refine ⟨_, h.grown hinv hend hle hsym fun a => ?_⟩
    rw [hgiven, mem_replacedBytes hk, mem_growthRest h.inv.single hm]
    exact or_congr_right ⟨fun hg => hg.2, fun hg => ⟨⟨_, rfl⟩, hg⟩⟩

/-- One operation keeps the account. -/
theorem accounted_step {l l' : Ledger} {op : RegionOp} (h : ∃ vma, Accounted l vma)
    (hok : LedgerOp l op) (hstep : LedgerStep uninit l op l') : ∃ vma, Accounted l' vma := by
  obtain ⟨vma, h⟩ := h
  obtain ⟨hop, hlost⟩ := hstep
  obtain ⟨⟨hbrk, hsize⟩, hkind⟩ := hok
  have hb : vma.sbrk.toNat < 2 ^ 31 := hbrk vma (by rw [h.inv.single]; exact List.mem_cons_self)
  cases op with
  | inc vmaid incSz => cases hkind
  | others mram mswp =>
    have hlost : l'.lost = l.lost := hlost.trans (Set.union_empty _)
    refine ⟨vma, ?_, ?_, ?_⟩
    · rw [hop]
      exact h.inv
    · rw [hlost]
      exact h.below
    · rw [hlost, hop]
      exact h.covered
  | free rgid =>
    obtain ⟨n, hf⟩ := hop
    have hlost : l'.lost = l.lost := hlost.trans (Set.union_empty _)
    obtain ⟨vma', hinv, hsame, hcover⟩ := h.inv.released hf
    refine ⟨vma', hinv, ?_, ?_⟩
    · rw [hlost, hsame]
      exact h.below
    · rw [hlost, hsame]
      intro a ha
      rw [hcover]
      exact h.covered a ha
  | alloc vmaid rgid size => exact h.allocated hb hsize ⟨hop, hlost⟩

/-- After any allocations and releases whose sizes and breaks fit an `int`, the regions
hold exactly the bytes below the break that have not been given up; once no symbol has
a byte, the free list holds them. -/
theorem heap_bytes_accounted {l l' : Ledger} {ops : List RegionOp} (hinit : l.mem.mm = initMm)
    (hempty : l.lost = ∅) (h : Run (Guarded LedgerOp (LedgerStep uninit)) l ops l') :
    ∃ vma, l'.mem.mm.mmap = [vma] ∧ vma.vmStart = 0 ∧
      (∀ a, (∃ rg ∈ allRegions l'.mem.mm, a ∈ regionBytes rg) ↔
        a < vma.sbrk.toNat ∧ a ∉ l'.lost) ∧
      ((∀ k, regionBytes (l'.mem.mm.symrgtbl k) = ∅) → ∀ a,
        (∃ rg ∈ vma.vmFreergList, a ∈ regionBytes rg) ↔ a < vma.sbrk.toNat ∧ a ∉ l'.lost) := by
  have hstart : Accounted l ⟨0, 0, 0, 0, [⟨0, 0⟩]⟩ := by
    refine ⟨?_, fun a ha => ?_, fun a ha => absurd ha (Nat.not_lt_zero a)⟩
    · rw [hinit]
      exact regionInv_initMm
    · rw [hempty] at ha
      exact absurd ha (Set.notMem_empty a)
  obtain ⟨vma, hv⟩ := h.invariant (fun l => ∃ vma, Accounted l vma)
    (fun _ _ _ hI hstep => accounted_step hI hstep.1 hstep.2) ⟨_, hstart⟩
  exact ⟨vma, hv.inv.single, hv.inv.vmStart, hv.allRegions_iff, hv.freeList_iff⟩

/-- Every run of the allocator has its ledger. -/
theorem exists_ledger {c c' : ProcMem} {ops : List RegionOp} (lost : Set ℕ)
    (h : Run (Guarded (fun c op => OpFits c op ∧ allocOrFree op) (RegionStep uninit)) c ops c') :
    ∃ lost', Run (Guarded LedgerOp (LedgerStep uninit)) ⟨c, lost⟩ ops ⟨c', lost'⟩ := by
  induction h generalizing lost with
  | nil c => exact ⟨lost, .nil _⟩
  | @cons c d e op ops hstep _ ih =>
    obtain ⟨hok, hop⟩ := hstep
    obtain ⟨lost', hrest⟩ := ih (lost ∪ givenUp uninit c op d)
    exact ⟨lost', .cons ⟨hok, hop, rfl⟩ hrest⟩

/-! ## Runs of the allocator -/

/-- Two variables, a release with a reuse, and a second region for a live symbol. -/
def replacePattern : List RegionOp :=
  [.alloc 0 0 300, .alloc 0 1 100, .free 0, .alloc 0 2 100, .alloc 0 1 20]

/-- The condition is met by ordinary sizes. -/
theorem heap_bytes_accounted_replacePattern : ∃ l : Ledger,
    Run (Guarded LedgerOp (LedgerStep fun _ => 0)) ⟨bootMem 65536 0, ∅⟩ replacePattern l ∧
    l.mem.mm.mmap.map VmArea.sbrk = [8192] ∧
    ∃ vma, l.mem.mm.mmap = [vma] ∧ vma.vmStart = 0 ∧
      (∀ a, (∃ rg ∈ allRegions l.mem.mm, a ∈ regionBytes rg) ↔
        a < vma.sbrk.toNat ∧ a ∉ l.lost) ∧
      ((∀ k, regionBytes (l.mem.mm.symrgtbl k) = ∅) → ∀ a,
        (∃ rg ∈ vma.vmFreergList, a ∈ regionBytes rg) ↔ a < vma.sbrk.toNat ∧ a ∉ l.lost) := by
  obtain ⟨c, hrun, hf⟩ := exists_run_of_map (fun c op => OpFits c op ∧ allocOrFree op)
    (regionStep_of_regionNext fun _ => 0) (bootMem 65536 0) replacePattern
    (fun c => c.mm.mmap.map VmArea.sbrk) [8192] rfl
  obtain ⟨lost, hledger⟩ := exists_ledger ∅ hrun
  exact ⟨⟨c, lost⟩, hledger, hf, heap_bytes_accounted rfl rfl hledger⟩

/-- After 300 bytes have been allocated, byte 300 of the heap is in no region. -/
theorem heap_bytes_lost : ¬ ∀ (uninit : Addr → Byte) (c c' : ProcMem) (ops : List RegionOp),
    c.mm = initMm → Run (Guarded (fun c op => OpFits c op ∧ allocOrFree op)
      (RegionStep uninit)) c ops c' → ∀ vma ∈ c'.mm.mmap, ∀ a < vma.sbrk.toNat,
        ∃ rg ∈ allRegions c'.mm, a ∈ regionBytes rg := by
  intro h
  obtain ⟨c, hrun, hf⟩ := exists_run_of_map (fun c op => OpFits c op ∧ allocOrFree op)
    (regionStep_of_regionNext fun _ => 0) (bootMem 65536 0) [.alloc 0 0 300]
    (fun c => (c.mm.mmap.map VmArea.sbrk,
      (allRegions c.mm).all fun rg => decide (rg.rgEnd ≤ 300))) ([4096], true) rfl
  obtain ⟨hbrk, hends⟩ := Prod.mk.inj hf
  obtain ⟨vma, hvma, hsbrk⟩ := List.mem_map.mp (hbrk ▸ List.mem_cons_self : (4096 : Addr) ∈ _)
  obtain ⟨rg, hrg, ha⟩ := h _ _ c _ rfl hrun vma hvma 300 (by rw [hsbrk]; decide)
  have hend : rg.rgEnd ≤ 300 := of_decide_eq_true (List.all_eq_true.mp hends rg hrg)
  have hlt : 300 < rg.rgEnd.toNat := ha.2
  have hle : rg.rgEnd.toNat ≤ 300 := hend
  omega

end OsSim.MemoryLedger
