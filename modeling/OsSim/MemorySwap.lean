import OsSim.MemoryInstruction
import OsSim.RunSteps

/-!
# Swapped pages are never brought back

An eviction marks the entry of the victim swapped and present at once, and a
page access faults only on an entry that is not present. Whatever happens after
an eviction, the next access to the page is answered from the marked entry: the
swap frame is neither read nor freed.
-/

namespace OsSim.MemorySwap

open MemoryWords MemoryDevice MemoryPageTable MemoryMapping MemoryPaging MemoryLibrary
open MemoryEffects MemoryInstruction RunSteps

variable {uninit : Addr → Byte}

/-- What happens to the memory of one process among others. -/
inductive MemEvent
  /-- The process executes an instruction. -/
  | own (ins : Inst)
  /-- Other processes change the two shared devices. -/
  | others (mram activeMswp : MemphyStruct)

/-- One event: an instruction of the process, or a change of the devices by the others. -/
def MemStep (uninit : Addr → Byte) (c : ProcMem) (e : MemEvent) (c' : ProcMem) : Prop :=
  match e with
  | .own ins => InstStep uninit c ins c'
  | .others mram mswp => c' = {c with mram := mram, activeMswp := mswp}

/-- The memory of a process at its start. -/
def Booted (c : ProcMem) : Prop := ∃ memramsz memswpsz, c = bootMem memramsz memswpsz

/-- An access to `q` is going to evict page `p` to the swap frame `s`. -/
def Evicts (c : ProcMem) (q : CInt) (p s : Addr) : Prop :=
  ¬Present (c.mm.entry (ptIndex (toAddr q))) ∧ c.mram.freeFpList = [] ∧
    (∃ fifo, c.mm.fifoPgn = fifo ++ [p]) ∧ ∃ rest, c.activeMswp.freeFpList = s :: rest

/-- What happens between an eviction and the next access to the evicted page. -/
inductive LaterEvent
  /-- `pg_getpage` on some page. -/
  | getpage (pgn : CInt)
  /-- Bytes are read or written, and other processes use the devices. -/
  | devices (mram activeMswp : MemphyStruct)

/-- One event after an eviction. -/
def LaterStep (uninit : Addr → Byte) (c : ProcMem) (e : LaterEvent) (c' : ProcMem) : Prop :=
  match e with
  | .getpage pgn => c' = (pgGetpage uninit c pgn).2
  | .devices mram mswp => c' = {c with mram := mram, activeMswp := mswp}

/-- Byte `i` of a 4096-byte frame. -/
def frameByte (mp : MemphyStruct) (fpn i : ℕ) : Byte :=
  mp.storage (BitVec.ofNat 64 (fpn * paging64Pagesz + i))

/-- The page evicted from `evicted` to the swap frame `s` is restored by the
access that leads from `before` to `after` and reports frame `fpn`. -/
structure SwapInRestores (evicted before after : ProcMem) (p s : Addr) (fpn : CInt) : Prop where
  /-- The entry is present and not swapped. -/
  resident : Resident (after.mm.entry (ptIndex p))
  /-- The frame holds the bytes of the moment of eviction. -/
  bytes : ∀ i < 4096, frameByte after.mram fpn.toNat i =
    frameByte evicted.mram (entryFrame (evicted.mm.entry (ptIndex p))) i
  /-- The swap frame is free again, once. -/
  swapFree : after.activeMswp.freeFpList.count s = 1
  /-- Pages other than this one and the new victim keep mapping and contents. -/
  others : ∀ q, ptIndex q ≠ ptIndex p →
    (∀ fifo v, before.mm.fifoPgn = fifo ++ [v] → ptIndex q ≠ ptIndex v) →
    after.mm.entry (ptIndex q) = before.mm.entry (ptIndex q) ∧
      (Resident (before.mm.entry (ptIndex q)) → ∀ i < 4096,
        frameByte after.mram (entryFrame (before.mm.entry (ptIndex q))) i =
          frameByte before.mram (entryFrame (before.mm.entry (ptIndex q))) i)

/-! ## Enlisted pages are present -/

/-- Every page of the replacement list has a present entry. -/
def FifoPresent (mm : MmStruct) : Prop := ∀ v ∈ mm.fifoPgn, Present (mm.entry (ptIndex v))

/-- An enlisted page has a present entry before and after everything that is written. -/
theorem entryInvariant_fifoPresent : EntryInvariant FifoPresent where
  shorten h he hsub v hv := by
    rw [he]
    exact h v (hsub v hv)
  write h hp he hsub v hv := by
    rw [he]
    rcases hsub v hv with hv | rfl
    · rw [Function.update_apply]
      split
      · exact hp
      · exact h v hv
    · rw [Function.update_self]
      exact hp

/-- Whatever happens to a process, its enlisted pages are present. -/
theorem fifoPresent_step {c c' : ProcMem} {e : MemEvent} (hI : FifoPresent c.mm)
    (h : MemStep uninit c e c') : FifoPresent c'.mm := by
  cases e with
  | others mram mswp =>
    cases h
    exact hI
  | own ins => exact entryInvariant_fifoPresent.inst hI h

/-- Enlisted pages are present in every reachable state. -/
theorem fifoPresent_of_reachable {c : ProcMem} (h : Reachable Booted (MemStep uninit) c) :
    FifoPresent c.mm := by
  refine h.invariant (fun c => FifoPresent c.mm) ?_ fun _ _ _ hI hstep => fifoPresent_step hI hstep
  rintro c ⟨_, _, rfl⟩ v hv
  cases hv

/-! ## What follows an eviction -/

/-- The entry carries both marks, present and swapped. -/
def Stuck (c : ProcMem) (i : Fin 512) : Prop := Present (c.mm.entry i) ∧ Swapped (c.mm.entry i)

/-- The evicted page carries both marks. -/
theorem stuck_of_evicts {c : ProcMem} {q : CInt} {p s : Addr} (hI : FifoPresent c.mm)
    (h : Evicts c q p s) : Stuck (pgGetpage uninit c q).2 (ptIndex p) := by
  obtain ⟨hn, hf, ⟨fifo, hv⟩, rest, hs⟩ := h
  have hp : Present (c.mm.entry (ptIndex p)) :=
    hI p (by rw [hv]; exact List.mem_append_right _ List.mem_cons_self)
  have hne : ptIndex p ≠ ptIndex (toAddr q) := fun he => hn (he ▸ hp)
  have ha := pgGetpage_access uninit c q
  generalize (pgGetpage uninit c q).2 = c' at ha
  cases ha with
  | present h => exact absurd h hn
  | free _ hf' => rw [hf] at hf'; cases hf'
  | noVictim _ _ hv' =>
    rw [hv] at hv'
    exact absurd hv' (List.append_ne_nil_of_right_ne_nil _ (List.cons_ne_nil _ _))
  | lostVictim _ _ _ hs' => rw [hs] at hs'; cases hs'
  | @evict v s' fifo' rest' mswp _ _ hv' _ =>
    rw [hv] at hv'
    obtain ⟨rfl, hvp⟩ := List.append_inj' hv' rfl
    cases hvp
    dsimp only [Stuck, evictedMm]
    rw [mapPage_entry, Function.update_of_ne hne, (pteSetSwap_spec _ _ _ _).2.1,
      Function.update_self]
    exact ⟨present_entrySetSwap _ _ _, swapped_entrySetSwap _ _ _⟩

/-- No page access removes the marks of an evicted page. -/
theorem Stuck.access {c c' : ProcMem} {i : Fin 512} {p : Addr} (h : Stuck c i)
    (ha : PageAccess c p c') : Stuck c' i := by
  cases ha with
  | present => exact h
  | free hn =>
    have hne : i ≠ ptIndex p := fun he => hn (he ▸ h.1)
    dsimp only [Stuck]
    rw [mapPage_entry, Function.update_of_ne hne]
    exact h
  | noVictim => exact h
  | lostVictim => exact h
  | @evict v s fifo rest mswp hn =>
    have hne : i ≠ ptIndex p := fun he => hn (he ▸ h.1)
    dsimp only [Stuck, evictedMm]
    rw [mapPage_entry, Function.update_of_ne hne, (pteSetSwap_spec _ _ _ _).2.1]
    by_cases he : i = ptIndex v
    · rw [he, Function.update_self]
      exact ⟨present_entrySetSwap _ _ _, swapped_entrySetSwap _ _ _⟩
    · rw [Function.update_of_ne he]
      exact h

/-- An evicted page stays marked through any later accesses. -/
theorem Stuck.run {c c' : ProcMem} {i : Fin 512} {ops : List LaterEvent} (h : Stuck c i)
    (hrun : Run (LaterStep uninit) c ops c') : Stuck c' i := by
  refine hrun.invariant (fun c => Stuck c i) (fun c e c' hI hstep => ?_) h
  cases e with
  | getpage pgn =>
    cases hstep
    exact hI.access (pgGetpage_access uninit c pgn)
  | devices mram mswp =>
    cases hstep
    exact hI

/-- The page number survives the passage through an `int`, as far as it selects
an entry. -/
theorem ptIndex_toAddr_toCInt (p : Addr) : ptIndex (toAddr (toCInt p)) = ptIndex p := by
  have hlow : ∀ x : Addr, x.toNat % 512 = (x.setWidth 9).toNat := fun x => by
    rw [BitVec.toNat_setWidth]
  have hw : (toAddr (toCInt p)).setWidth 9 = p.setWidth 9 := by
    unfold toAddr toCInt
    ext i hi
    rw [BitVec.getElem_setWidth, BitVec.getElem_setWidth, BitVec.getLsbD_signExtend,
      if_pos (by omega), BitVec.getLsbD_setWidth]
    simp only [Nat.lt_trans hi (by decide : 9 < 64), Nat.lt_trans hi (by decide : 9 < 32),
      decide_true, Bool.true_and]
  apply Fin.ext
  change (toAddr (toCInt p)).toNat % 512 = p.toNat % 512
  rw [hlow, hlow, hw]

/-- After an eviction in any reachable state and any later accesses, the next
access to the evicted page succeeds and restores nothing. -/
theorem swapIn_never_restores {c c₂ : ProcMem} {q : CInt} {p s : Addr} {ops : List LaterEvent}
    (hreach : Reachable Booted (MemStep uninit) c) (hev : Evicts c q p s)
    (hlater : Run (LaterStep uninit) (pgGetpage uninit c q).2 ops c₂) :
    ∃ fpn, (pgGetpage uninit c₂ (toCInt p)).1 = some fpn ∧
      ¬SwapInRestores c c₂ (pgGetpage uninit c₂ (toCInt p)).2 p s fpn := by
  have hstuck := (stuck_of_evicts (fifoPresent_of_reachable hreach) hev).run hlater
  have hpresent : Present (c₂.mm.entry (ptIndex (toAddr (toCInt p)))) := by
    rw [ptIndex_toAddr_toCInt]
    exact hstuck.1
  rw [pgGetpage_of_present uninit hpresent]
  exact ⟨_, rfl, fun h => h.resident.2 hstuck.2⟩

/-! ## A run that evicts -/

/-- The memory after an event, computed. -/
def memNext (uninit : Addr → Byte) (c : ProcMem) : MemEvent → Option ProcMem
  | .own ins => instNext uninit c ins
  | .others mram mswp => some {c with mram := mram, activeMswp := mswp}

theorem memStep_of_memNext (uninit : Addr → Byte) (c : ProcMem) (e : MemEvent) (c' : ProcMem)
    (h : memNext uninit c e = some c') : MemStep uninit c e c' := by
  cases e with
  | own ins => exact instStep_of_instNext uninit c ins c' h
  | others mram mswp => exact (Option.some.inj h).symm

/-- Two variables of one page each. -/
def twoPages : List MemEvent := [.own ⟨.alloc, 4096, 0, 0, 0⟩, .own ⟨.alloc, 4096, 1, 0, 0⟩]

/-- One more than two frames of RAM can hold. -/
def threePages : List MemEvent := twoPages ++ [.own ⟨.alloc, 4096, 2, 0, 0⟩]

/-- The third variable has no frame; accessing it evicts the page of the first,
which the access after that reports present. -/
theorem threePages_evicts : ∃ c, Run (MemStep fun _ => 0) (bootMem 8192 8192) threePages c ∧
    Evicts c 2 0 0 ∧
    ¬Resident ((pgGetpage (fun _ => 0) (pgGetpage (fun _ => 0) c 2).2 0).2.mm.entry 0) ∧
    (pgGetpage (fun _ => 0) (pgGetpage (fun _ => 0) c 2).2 0).1 = some 0 := by
  obtain ⟨c, hrun, hf⟩ := exists_run_of_map (fun _ _ => True)
    (memStep_of_memNext fun _ => 0) (bootMem 8192 8192) threePages
    (fun c => ((decide (Present (c.mm.entry 2)), c.mram.freeFpList, c.mm.fifoPgn,
      c.activeMswp.freeFpList),
      decide (Resident ((pgGetpage (fun _ => 0) (pgGetpage (fun _ => 0) c 2).2 0).2.mm.entry 0)),
      (pgGetpage (fun _ => 0) (pgGetpage (fun _ => 0) c 2).2 0).1))
    ((false, [], [1, 0], [0, 1]), false, some 0) rfl
  simp only [Prod.mk.injEq, decide_eq_false_iff_not] at hf
  obtain ⟨⟨hp, hr, hv, hs⟩, hres, hpage⟩ := hf
  exact ⟨c, hrun.unguard, ⟨hp, hr, ⟨[1], hv⟩, [1], hs⟩, hres, hpage⟩

/-- The eviction by the third variable, followed by the next access to the page. -/
theorem swapIn_never_restores_threePages : ∃ c, Run (MemStep fun _ => 0) (bootMem 8192 8192)
    threePages c ∧ Evicts c 2 0 0 ∧
    ∃ fpn, (pgGetpage (fun _ => 0) (pgGetpage (fun _ => 0) c 2).2 (toCInt 0)).1 = some fpn ∧
      ¬SwapInRestores c (pgGetpage (fun _ => 0) c 2).2
        (pgGetpage (fun _ => 0) (pgGetpage (fun _ => 0) c 2).2 (toCInt 0)).2 0 0 fpn := by
  obtain ⟨c, hrun, hev, _, _⟩ := threePages_evicts
  exact ⟨c, hrun, hev, swapIn_never_restores ⟨_, _, ⟨_, _, rfl⟩, hrun⟩ hev (.nil _)⟩

/-- Not every eviction is undone by the next access to the page. -/
theorem swapIn_not_restored : ¬∀ (c c₂ : ProcMem) (q : CInt) (p s : Addr) (ops : List LaterEvent)
    (fpn : CInt), Reachable Booted (MemStep fun _ => 0) c → Evicts c q p s →
    Run (LaterStep fun _ => 0) (pgGetpage (fun _ => 0) c q).2 ops c₂ →
    (∀ r, .getpage r ∈ ops → toAddr r ≠ p) →
    (pgGetpage (fun _ => 0) c₂ (toCInt p)).1 = some fpn →
    SwapInRestores c c₂ (pgGetpage (fun _ => 0) c₂ (toCInt p)).2 p s fpn := by
  intro h
  obtain ⟨c, hrun, hev, hres, hpage⟩ := threePages_evicts
  exact hres (h c _ 2 0 0 [] 0 ⟨_, _, ⟨_, _, rfl⟩, hrun⟩ hev (.nil _)
    (fun _ hr => nomatch hr) hpage).resident

end OsSim.MemorySwap
