import OsSim.MemoryInstruction
import OsSim.RunSteps
import Mathlib.Data.List.Count

/-!
# The replacement list and the resident pages

A process enlists a page whenever it maps one, and delists a page only to evict
it. The list therefore holds exactly the resident pages as long as no page is
mapped twice, no page number lies past the table, and no victim is dropped
because swap is full; each of the three breaks it.
-/

namespace OsSim.MemoryFifo

open MemoryWords MemoryDevice MemoryPageTable MemoryMapping MemoryPaging MemoryLibrary
open MemoryEffects MemoryInstruction RunSteps

variable {uninit : Addr → Byte}

/-- Every page with an entry of its own occurs in the list once if it is
resident, and otherwise not at all. -/
def FifoExact (mm : MmStruct) : Prop :=
  ∀ p : Addr, p.toNat < 512 →
    mm.fifoPgn.count p = if Resident (mm.entry (ptIndex p)) then 1 else 0

/-- The instructions of the replacement list: memory instructions of the process
and growth by system call. -/
def fifoOp (ins : Inst) : Bool :=
  match ins.opcode with
  | .calc => false
  | .syscall => toCInt ins.arg0 = 17 && toCInt ins.arg1 = sysmemIncOp
  | _ => true

/-- A growth that RAM can serve maps only pages with an entry of their own that
are not resident. -/
def GrowsFresh (c : ProcMem) (ins : Inst) : Prop :=
  ∀ g, instGrowth c ins = some g → loopCount g.pages ≤ c.mram.freeFpList.length →
    g.start.toNat / 4096 + loopCount g.pages ≤ 512 ∧
      ∀ k < loopCount g.pages, ¬Resident (c.mm.entry (ptIndex (rangePage g.start k)))

/-- A faulting access is to a page with an entry of its own and does not find
RAM and swap full with a page to replace. -/
def FaultsServed (c : ProcMem) (ins : Inst) : Prop :=
  ∀ a, instTouch c ins = some a → ¬Present (c.mm.entry (ptIndex (toAddr (addrPage a)))) →
    (toAddr (addrPage a)).toNat < 512 ∧
      ¬(c.mram.freeFpList = [] ∧ c.mm.fifoPgn ≠ [] ∧ c.activeMswp.freeFpList = [])

/-- The condition on one instruction and the state before it. -/
def fifoSafe (c : ProcMem) (ins : Inst) : Prop := GrowsFresh c ins ∧ FaultsServed c ins

/-- What a run keeps: the list is exact and holds no page past the table. -/
def FifoInv (mm : MmStruct) : Prop := (∀ p ∈ mm.fifoPgn, p.toNat < 512) ∧ FifoExact mm

theorem FifoInv.congr {mm mm' : MmStruct} (h : FifoInv mm) (hp : SamePaging mm mm') :
    FifoInv mm' := by
  unfold FifoInv FifoExact at h ⊢
  rw [hp.entry, hp.fifoPgn]
  exact h

/-- Pages with entries of their own do not share them. -/
theorem ptIndex_inj {p q : Addr} (hp : p.toNat < 512) (hq : q.toNat < 512)
    (h : ptIndex p = ptIndex q) : p = q := by
  have hv : p.toNat % 512 = q.toNat % 512 := congrArg Fin.val h
  rw [Nat.mod_eq_of_lt hp, Nat.mod_eq_of_lt hq] at hv
  exact BitVec.eq_of_toNat_eq hv

/-- Mapping a page that is not resident keeps the list exact. -/
theorem FifoInv.mapPage {mm : MmStruct} (h : FifoInv mm) {p : Addr} (hp : p.toNat < 512)
    (hn : ¬Resident (mm.entry (ptIndex p))) (f : Addr) : FifoInv (mapPage mm p f) := by
  refine ⟨fun q hq => ?_, fun q hq => ?_⟩
  · rw [mapPage_fifoPgn] at hq
    rcases List.mem_cons.mp hq with rfl | hq
    · exact hp
    · exact h.1 q hq
  · have hc := h.2 q hq
    rw [mapPage_fifoPgn, mapPage_entry, List.count_cons]
    by_cases he : p = q
    · subst he
      rw [if_neg hn] at hc
      rw [hc, Function.update_self, if_pos (resident_entrySetFpn _ _), if_pos (beq_self_eq_true p)]
    · have hi : ptIndex q ≠ ptIndex p := fun hi => he (ptIndex_inj hq hp hi).symm
      have hb : ¬(p == q) = true := by simpa using he
      rw [hc, Function.update_of_ne hi, if_neg hb, Nat.add_zero]

/-- Taking the victim off the list and marking its entry keeps the list exact. -/
theorem FifoInv.evict {mm : MmStruct} (h : FifoInv mm) {fifo : List Addr} {v s : Addr}
    (hv : mm.fifoPgn = fifo ++ [v]) :
    FifoInv (pteSetSwap {mm with fifoPgn := fifo} v 0 s).2 := by
  obtain ⟨_, hentry, _, _, hfifo⟩ := pteSetSwap_spec {mm with fifoPgn := fifo} v 0 s
  have hv512 : v.toNat < 512 := h.1 v (by rw [hv]; exact List.mem_append_right _ List.mem_cons_self)
  refine ⟨fun q hq => ?_, fun q hq => ?_⟩
  · rw [hfifo] at hq
    exact h.1 q (by rw [hv]; exact List.mem_append_left _ hq)
  · have hc := h.2 q hq
    rw [hv, List.count_append, List.count_singleton] at hc
    rw [hfifo, hentry]
    change fifo.count q = if Resident (Function.update mm.entry (ptIndex v) _ (ptIndex q)) then 1
      else 0
    by_cases he : v = q
    · subst he
      rw [Function.update_self, if_neg (fun hr => hr.2 (swapped_entrySetSwap _ _ _))]
      rw [if_pos (beq_self_eq_true v)] at hc
      split at hc <;> omega
    · have hi : ptIndex q ≠ ptIndex v := fun hi => he (ptIndex_inj hq hv512 hi).symm
      have hb : ¬(v == q) = true := by simpa using he
      rw [Function.update_of_ne hi, ← hc, if_neg hb, Nat.add_zero]

/-- Mapping a fresh range keeps the list exact. -/
theorem FifoInv.vmapPageRange {mm : MmStruct} (h : FifoInv mm) {start : Addr} {pgnum : CInt}
    {frames : List Addr} (hlen : frames.length = loopCount pgnum)
    (hend : start.toNat / 4096 + loopCount pgnum ≤ 512)
    (hfresh : ∀ k < loopCount pgnum, ¬Resident (mm.entry (ptIndex (rangePage start k)))) :
    FifoInv (vmapPageRange mm start pgnum frames).2 := by
  unfold MemoryMapping.vmapPageRange
  have hstart : FifoInv (ensureDirectories mm) ∧ 0 + frames.length = loopCount pgnum ∧
      ∀ j, 0 ≤ j → j < loopCount pgnum →
        ¬Resident ((ensureDirectories mm).entry (ptIndex (rangePage start j))) :=
    ⟨h.congr ⟨rfl, rfl⟩, by omega, fun j _ hj => hfresh j hj⟩
  refine (vmapPageRangeLoop_induct
    (fun k fs m => FifoInv m ∧ k + fs.length = loopCount pgnum ∧ ∀ j, k ≤ j → j < loopCount pgnum →
      ¬Resident (m.entry (ptIndex (rangePage start j)))) ?_ hlen hstart).1
  rintro k f fs m ⟨hm, hk, hrest⟩
  rw [List.length_cons] at hk
  have hpk := @rangePage_toNat start k (by omega) (by omega)
  refine ⟨hm.mapPage (by omega) (hrest k (Nat.le_refl k) (by omega)) f, by omega, ?_⟩
  intro j hkj hj
  -- later pages of the range have other entries
  have hpj := @rangePage_toNat start j (by omega) (by omega)
  have hne : ptIndex (rangePage start j) ≠ ptIndex (rangePage start k) := by
    intro he
    have := ptIndex_inj (by omega) (by omega) he
    rw [this] at hpj
    omega
  rw [mapPage_entry, Function.update_of_ne hne]
  exact hrest j (by omega) hj

/-- A page access that is served keeps the list exact. -/
theorem FifoInv.access {c c' : ProcMem} {p : Addr} (h : FifoInv c.mm) (ha : PageAccess c p c')
    (hs : ¬Present (c.mm.entry (ptIndex p)) → p.toNat < 512 ∧
      ¬(c.mram.freeFpList = [] ∧ c.mm.fifoPgn ≠ [] ∧ c.activeMswp.freeFpList = [])) :
    FifoInv c'.mm := by
  cases ha with
  | present => exact h
  | free hn hf => exact h.mapPage (hs hn).1 (fun hr => hn hr.1) _
  | noVictim => exact h
  | lostVictim hn hf hv hw =>
    exact absurd ⟨hf, by rw [hv]; exact List.append_ne_nil_of_right_ne_nil _ (by simp), hw⟩ (hs hn).2
  | evict hn hf hv hw =>
    rename_i v s fifo rest mswp
    unfold evictedMm
    refine (h.evict hv).mapPage (hs hn).1 (fun hr => ?_) _
    -- the victim was resident, the faulting page is not present
    rw [(pteSetSwap_spec _ _ _ _).2.1] at hr
    by_cases hi : ptIndex p = ptIndex v
    · rw [hi, Function.update_self] at hr
      exact hr.2 (swapped_entrySetSwap _ _ _)
    · rw [Function.update_of_ne hi] at hr
      exact hn hr.1

/-- One instruction that meets the condition keeps the list exact. -/
theorem fifoInv_step {c c' : ProcMem} {ins : Inst} (hI : FifoInv c.mm) (hop : fifoOp ins = true)
    (hs : fifoSafe c ins) (h : InstStep uninit c ins c') : FifoInv c'.mm := by
  obtain ⟨n, d, he⟩ := h
  cases execInst_effect he with
  | quiet hp => exact hI.congr hp
  | grow hg hp =>
    rename_i g mm
    have hsame := instGrowth_same hg
    have hgm : FifoInv g.mm := hI.congr hsame
    refine FifoInv.congr ?_ hp
    rw [vmMapRam_eq]
    split
    · next hlen =>
      obtain ⟨hend, hfresh⟩ := hs.1 g hg hlen
      refine hgm.vmapPageRange (List.length_take_of_le hlen) hend ?_
      rw [hsame.entry]
      exact hfresh
    · exact hgm
  | touch ht =>
    have hacc := hI.access (pgGetpage_access uninit c _) (hs.2 _ ht)
    exact hacc
  | memset hop' _ hm =>
    unfold fifoOp at hop
    rw [hop', Bool.and_eq_true, decide_eq_true_eq, decide_eq_true_eq] at hop
    rw [hop.2] at hm
    exact absurd hm (by decide)

/-- In every run whose instructions all meet the condition, the list is exact. -/
theorem fifo_exact {memramsz memswpsz : Addr} {prog : List Inst} {c : ProcMem}
    (h : Run (Guarded (fun c ins => fifoOp ins ∧ fifoSafe c ins) (InstStep uninit))
      (bootMem memramsz memswpsz) prog c) : FifoExact c.mm := by
  refine (h.invariant (fun c => FifoInv c.mm) ?_ ⟨?_, ?_⟩).2
  · rintro c ins c' hI ⟨⟨hop, hs⟩, hstep⟩
    exact fifoInv_step hI hop hs hstep
  · exact fun p hp => nomatch hp
  · intro p _
    have h0 : ¬Resident (0 : Addr) := by decide
    exact (if_neg h0).symm

instance (c : ProcMem) (ins : Inst) : Decidable (GrowsFresh c ins) :=
  decidableForallSome _ _

instance (c : ProcMem) (ins : Inst) : Decidable (FaultsServed c ins) :=
  decidableForallSome _ _

instance (c : ProcMem) (ins : Inst) : Decidable (fifoSafe c ins) :=
  inferInstanceAs (Decidable (_ ∧ _))

/-- Two variables, an access and a release. -/
def twoVariables : List Inst :=
  [⟨.alloc, 300, 0, 0, 0⟩, ⟨.alloc, 5000, 1, 0, 0⟩, ⟨.write, 7, 1, 4500, 0⟩, ⟨.free, 0, 0, 0, 0⟩]

/-- The condition is met by an ordinary program in a RAM of four frames. -/
theorem fifo_exact_twoVariables : ∃ c,
    Run (Guarded (fun c ins => fifoOp ins ∧ fifoSafe c ins) (InstStep fun _ => 0))
      (bootMem 16384 0) twoVariables c ∧ c.mm.fifoPgn = [2, 1, 0] ∧ FifoExact c.mm := by
  obtain ⟨c, hrun, hf⟩ := exists_run_of_map (fun c ins => fifoOp ins ∧ fifoSafe c ins)
    (instStep_of_instNext fun _ => 0) (bootMem 16384 0) twoVariables
    (fun c => c.mm.fifoPgn) [2, 1, 0] rfl
  exact ⟨c, hrun, hf, fifo_exact hrun⟩

/-- An allocation, a growth of size zero and another allocation. -/
def zeroGrowth : List Inst :=
  [⟨.alloc, 4096, 0, 0, 0⟩, ⟨.syscall, 17, 2, 0, 0⟩, ⟨.alloc, 4096, 1, 0, 0⟩]

/-- A zero-size growth maps the page past the break and leaves the break, so that
the next allocation enlists the page a second time. -/
theorem fifo_not_exact_zeroGrowth : ∃ c,
    Run (Guarded (fun _ ins => fifoOp ins) (InstStep fun _ => 0)) (bootMem 16384 0) zeroGrowth c ∧
      ¬FifoExact c.mm := by
  obtain ⟨c, hrun, hf⟩ := exists_run_of_map (fun _ ins => fifoOp ins)
    (instStep_of_instNext fun _ => 0) (bootMem 16384 0) zeroGrowth
    (fun c => c.mm.fifoPgn) [1, 1, 0] rfl
  refine ⟨c, hrun, fun h => ?_⟩
  have h1 := h 1 (by decide)
  rw [hf] at h1
  split at h1 <;> exact absurd h1 (by decide)

end OsSim.MemoryFifo
