import OsSim.MemoryInstruction
import OsSim.RunSteps
import OsSim.ResourcePool

/-!
# Who owns the frames of RAM

Processes that share one RAM and one swap device. A present entry owns the frame
it translates to, the free list is the pool. Frames are handed out from the head
of the list only, so ownership stays exclusive until a frame number does not fit
its thirteen-bit field or an evicted page keeps its present mark.
-/

namespace OsSim.MemoryFrames

open MemoryWords MemoryDevice MemoryPageTable MemoryMapping MemoryPaging MemoryLibrary
open MemoryEffects MemoryInstruction RunSteps ResourcePool

variable {uninit : Addr → Byte} {ι : Type*}

/-- Processes over shared devices. -/
structure SharedMem (ι : Type*) where
  /-- The memory manager of every process. -/
  mm : ι → MmStruct
  /-- The shared RAM. -/
  mram : MemphyStruct
  /-- The shared swap device. -/
  activeMswp : MemphyStruct

/-- What one process sees, with the result of its lookup by pid. -/
def SharedMem.view (s : SharedMem ι) (i : ι) (listed : Bool) : ProcMem :=
  ⟨s.mm i, s.mram, s.activeMswp, listed⟩

/-- An instruction of one of the processes. -/
structure SharedOp (ι : Type*) where
  /-- The process that executes it. -/
  proc : ι
  /-- Whether the lookup by pid finds the process. -/
  listed : Bool
  /-- The instruction. -/
  ins : Inst

/-- Fresh memory managers over devices that `init_memphy` has set up. -/
def SharedBoot (s : SharedMem ι) : Prop :=
  (∀ i, s.mm i = initMm) ∧ (∃ size flag, s.mram = initMemphy size flag) ∧
    ∃ size flag, s.activeMswp = initMemphy size flag

/-- The frame each table index of each process owns: the one its entry translates
to if it is present. -/
def frameOwner (entry : ι → Fin 512 → Addr) (k : ι × Fin 512) : Option ℕ :=
  if Present (entry k.1 k.2) then some (entryFrame (entry k.1 k.2)) else none

/-- Frames of RAM are owned exclusively: distinct pages of distinct entries do not
share one, each lies in RAM, none is free, and none is free twice. -/
structure FramesExclusive (s : SharedMem ι) : Prop where
  /-- Two pages that translate to one frame use the same entry. -/
  unshared : ∀ (i j : ι) (p q : Addr), Present ((s.mm i).entry (ptIndex p)) →
    Present ((s.mm j).entry (ptIndex q)) → (i, ptIndex p) ≠ (j, ptIndex q) →
    entryFrame ((s.mm i).entry (ptIndex p)) ≠ entryFrame ((s.mm j).entry (ptIndex q))
  /-- Every frame in use lies in RAM. -/
  bounded : ∀ (i : ι) (p : Addr), Present ((s.mm i).entry (ptIndex p)) →
    entryFrame ((s.mm i).entry (ptIndex p)) < frameCount s.mram
  /-- No frame in use is free. -/
  used : ∀ (i : ι) (p : Addr), Present ((s.mm i).entry (ptIndex p)) →
    ∀ f ∈ s.mram.freeFpList, f.toNat ≠ entryFrame ((s.mm i).entry (ptIndex p))
  /-- No frame is free twice. -/
  nodup : s.mram.freeFpList.Nodup

/-- The invariant, over the entries, the free list and the number of frames. -/
structure FramesInv (entry : ι → Fin 512 → Addr) (free : List Addr) (frames : ℕ) : Prop where
  /-- Ownership is exclusive. -/
  exclusive : Exclusive (frameOwner entry) (free.map BitVec.toNat)
  /-- Owned frames lie in RAM. -/
  owned : ∀ k r, frameOwner entry k = some r → r < frames
  /-- Free frames lie in RAM. -/
  free : ∀ f ∈ free, f.toNat < frames

/-- The invariant of a shared memory. -/
def SharedMem.Inv (s : SharedMem ι) : Prop :=
  FramesInv (fun i => (s.mm i).entry) s.mram.freeFpList (frameCount s.mram)

/-- A present entry owns its frame. -/
theorem frameOwner_of_present (entry : ι → Fin 512 → Addr) {i : ι} {x : Fin 512}
    (h : Present (entry i x)) : frameOwner entry (i, x) = some (entryFrame (entry i x)) :=
  if_pos h

/-- Entries that translate to one frame are one entry. -/
theorem FramesInv.eq_of_frame_eq {entry : ι → Fin 512 → Addr} {free : List Addr} {n : ℕ}
    (h : FramesInv entry free n) {i j : ι} {x y : Fin 512} (hx : Present (entry i x))
    (hy : Present (entry j y)) (he : entryFrame (entry i x) = entryFrame (entry j y)) :
    (i, x) = (j, y) := by
  have hi := frameOwner_of_present entry hx
  have hj := frameOwner_of_present entry hy
  rw [← he] at hj
  exact h.exclusive.unshared _ _ _ hi hj

/-- A present entry translates to a frame of the device. -/
theorem FramesInv.frame_lt {entry : ι → Fin 512 → Addr} {free : List Addr} {n : ℕ}
    (h : FramesInv entry free n) {i : ι} {x : Fin 512} (hx : Present (entry i x)) :
    entryFrame (entry i x) < n :=
  h.owned _ _ (frameOwner_of_present entry hx)

/-- The invariant gives the property. -/
theorem SharedMem.Inv.framesExclusive {s : SharedMem ι} (h : s.Inv) : FramesExclusive s := by
  refine ⟨fun i j p q hp hq hne he => ?_, fun i p hp => ?_, fun i p hp f hf he => ?_, ?_⟩
  · exact hne (FramesInv.eq_of_frame_eq h hp hq he)
  · exact FramesInv.frame_lt h hp
  · have hi := frameOwner_of_present (fun i => (s.mm i).entry) hp
    exact h.exclusive.unpooled _ _ hi (he ▸ List.mem_map_of_mem hf)
  · exact List.Nodup.of_map _ h.exclusive.nodup

/-- Free frames may get lost. -/
theorem FramesInv.sublist {entry : ι → Fin 512 → Addr} {free free' : List Addr} {n : ℕ}
    (h : FramesInv entry free n) (hs : free'.Sublist free) : FramesInv entry free' n :=
  ⟨h.exclusive.sublist (hs.map _), h.owned, fun f hf => h.free f (hs.subset hf)⟩

/-- The invariant holds of fresh devices. -/
theorem inv_of_sharedBoot {s : SharedMem ι} (h : SharedBoot s) : s.Inv := by
  obtain ⟨hmm, ⟨size, flag, hr⟩, _⟩ := h
  obtain ⟨n, hn, hfree⟩ := initMemphy_freeFpList size flag
  have hcount : frameCount s.mram = size.toNat / paging64Pagesz := by
    unfold frameCount
    rw [hr, initMemphy_maxsz]
  have hsize : size.toNat / paging64Pagesz < 2 ^ 64 :=
    (Nat.div_le_self _ _).trans_lt size.isLt
  have hmap : (s.mram.freeFpList).map BitVec.toNat = List.range n := by
    rw [hr, hfree, List.map_map]
    refine (List.map_congr_left fun k hk => ?_).trans (List.map_id _)
    have hk' := List.mem_range.mp hk
    change (BitVec.ofNat 64 k).toNat = k
    rw [BitVec.toNat_ofNat]
    exact Nat.mod_eq_of_lt (by omega)
  have hown : frameOwner (fun i => (s.mm i).entry) = fun _ => none := by
    funext k
    have h0 : ¬Present ((s.mm k.1).entry k.2) := by
      have hz : ¬Present (0 : Addr) := by decide
      rw [hmm]
      exact hz
    exact if_neg h0
  refine ⟨?_, fun k r hk => ?_, fun f hf => ?_⟩
  · rw [hown, hmap]
    exact exclusive_unowned List.nodup_range
  · rw [hown] at hk
    cases hk
  · have hmem : f.toNat ∈ List.range n := hmap ▸ List.mem_map_of_mem hf
    have hlt := List.mem_range.mp hmem
    omega

variable [DecidableEq ι]

/-- What one process leaves behind. -/
def SharedMem.store (s : SharedMem ι) (i : ι) (c : ProcMem) : SharedMem ι :=
  ⟨Function.update s.mm i c.mm, c.mram, c.activeMswp⟩

/-- One instruction that does not run into undefined behaviour. -/
def SharedStep (uninit : Addr → Byte) (s : SharedMem ι) (op : SharedOp ι) (s' : SharedMem ι) :
    Prop :=
  ∃ c', InstStep uninit (s.view op.proc op.listed) op.ins c' ∧ s' = s.store op.proc c'

/-- Mapping a page to the head of the free list. -/
theorem FramesInv.map {entry : ι → Fin 512 → Addr} {f : Addr} {rest : List Addr} {n : ℕ}
    (h : FramesInv entry (f :: rest) n) (hf : f.toNat < 2 ^ 13) (i : ι) (x : Fin 512) :
    FramesInv (Function.update entry i
      (Function.update (entry i) x (entrySetFpn (entry i x) f))) rest n := by
  have hown : frameOwner (Function.update entry i
      (Function.update (entry i) x (entrySetFpn (entry i x) f))) =
      Function.update (frameOwner entry) (i, x) (some f.toNat) := by
    funext k
    obtain ⟨j, y⟩ := k
    by_cases hk : (j, y) = (i, x)
    · cases hk
      rw [Function.update_self]
      dsimp only [frameOwner]
      rw [Function.update_self, Function.update_self, if_pos (present_entrySetFpn _ _),
        entryFrame_entrySetFpn]
      exact congrArg some (Nat.mod_eq_of_lt hf)
    · rw [Function.update_of_ne hk]
      dsimp only [frameOwner]
      by_cases hj : j = i
      · subst hj
        have hy : y ≠ x := fun hy => hk (hy ▸ rfl)
        rw [Function.update_self, Function.update_of_ne hy]
      · rw [Function.update_of_ne hj]
  refine ⟨?_, fun k r hk => ?_, fun g hg => h.free g (List.mem_cons_of_mem _ hg)⟩
  · rw [hown]
    exact h.exclusive.assign (i, x)
  · rw [hown] at hk
    by_cases he : k = (i, x)
    · rw [he, Function.update_self] at hk
      obtain rfl := Option.some.inj hk
      exact h.free f List.mem_cons_self
    · rw [Function.update_of_ne he] at hk
      exact h.owned k r hk

/-- Mapping a range from the head of the free list. -/
theorem FramesInv.vmapPageRange {entry : ι → Fin 512 → Addr} {free rest : List Addr} {n : ℕ}
    {mm : MmStruct} {i : ι} (h : FramesInv (Function.update entry i mm.entry) (free ++ rest) n)
    (hf : ∀ f ∈ free, f.toNat < 2 ^ 13) (start : Addr) {pgnum : CInt}
    (hlen : free.length = loopCount pgnum) :
    FramesInv (Function.update entry i (vmapPageRange mm start pgnum free).2.entry) rest n := by
  have hstart : FramesInv (Function.update entry i (ensureDirectories mm).entry) (free ++ rest) n ∧
      ∀ f ∈ free, f.toNat < 2 ^ 13 := ⟨h, hf⟩
  unfold MemoryMapping.vmapPageRange
  refine (vmapPageRangeLoop_induct (fun _ fs m =>
    FramesInv (Function.update entry i m.entry) (fs ++ rest) n ∧ ∀ f ∈ fs, f.toNat < 2 ^ 13)
    ?_ hlen hstart).1
  rintro k f fs m ⟨hm, hfs⟩
  have hmap := hm.map (hfs f List.mem_cons_self) i (ptIndex (rangePage start k))
  rw [Function.update_self, Function.update_idem] at hmap
  rw [mapPage_entry]
  exact ⟨hmap, fun g hg => hfs g (List.mem_cons_of_mem _ hg)⟩

/-! ## The condition and the step -/

/-- The frames a growth takes fit the frame field. -/
def GrowthFits (c : ProcMem) (ins : Inst) : Prop :=
  ∀ g, instGrowth c ins = some g → loopCount g.pages ≤ c.mram.freeFpList.length →
    ∀ f ∈ c.mram.freeFpList.take (loopCount g.pages), f.toNat < 2 ^ 13

/-- A faulting access takes a frame that fits the frame field, and does not
evict. -/
def FaultFits (c : ProcMem) (ins : Inst) : Prop :=
  ∀ a, instTouch c ins = some a → ¬Present (c.mm.entry (ptIndex (toAddr (addrPage a)))) →
    (∀ f ∈ c.mram.freeFpList.head?, f.toNat < 2 ^ 13) ∧
      ¬(c.mram.freeFpList = [] ∧ c.mm.fifoPgn ≠ [] ∧ c.activeMswp.freeFpList ≠ [])

/-- The mapping operation of the system call overwrites no entry. -/
def MapIdle (ins : Inst) : Prop :=
  ins.opcode = .syscall → toCInt ins.arg0 = 17 → toCInt ins.arg1 = sysmemMapOp →
    loopCount (toCInt ins.arg3) = 0

/-- The condition on one instruction and the state before it. -/
def frameSafe (c : ProcMem) (ins : Inst) : Prop := GrowthFits c ins ∧ FaultFits c ins

/-- What one process does to entries and free list, seen from its own memory. -/
theorem framesInv_inst {entry : ι → Fin 512 → Addr} {n : ℕ} {c c' : ProcMem} {ins : Inst} {i : ι}
    (h : FramesInv (Function.update entry i c.mm.entry) c.mram.freeFpList n)
    (hm : MapIdle ins) (hs : frameSafe c ins) (hstep : InstStep uninit c ins c') :
    FramesInv (Function.update entry i c'.mm.entry) c'.mram.freeFpList n ∧
      c'.mram.maxsz = c.mram.maxsz := by
  obtain ⟨m, d, he⟩ := hstep
  cases execInst_effect he with
  | quiet hp hr =>
    dsimp only
    rw [hp.entry, hr.freeFpList]
    exact ⟨h, hr.maxsz⟩
  | @grow g mm hg hp =>
    have hsame := instGrowth_same hg
    dsimp only
    rw [hp.entry, vmMapRam_eq]
    split
    · next hlen =>
      dsimp only
      refine ⟨?_, rfl⟩
      refine FramesInv.vmapPageRange ?_ (hs.1 g hg hlen) _ (List.length_take_of_le hlen)
      rw [List.take_append_drop, hsame.entry]
      exact h
    · dsimp only
      rw [hsame.entry]
      exact ⟨h.sublist (List.nil_sublist _), rfl⟩
  | @touch a mram ht hr =>
    have hacc := pgGetpage_access uninit c (addrPage a)
    have hfault := hs.2 a ht
    dsimp only
    rw [hr.freeFpList, hr.maxsz]
    generalize (pgGetpage uninit c (addrPage a)).2 = c₁ at hacc
    cases hacc with
    | present => exact ⟨h, rfl⟩
    | free hn hf =>
      obtain ⟨hfit, _⟩ := hfault hn
      rw [hf] at h hfit
      have hmap := h.map (hfit _ rfl) i (ptIndex (toAddr (addrPage a)))
      rw [Function.update_self, Function.update_idem] at hmap
      dsimp only
      rw [mapPage_entry]
      exact ⟨hmap, rfl⟩
    | noVictim => exact ⟨h, rfl⟩
    | lostVictim => exact ⟨h, rfl⟩
    | evict hn hf hv hw =>
      refine absurd ⟨hf, ?_, ?_⟩ (hfault hn).2
      · rw [hv]
        exact List.append_ne_nil_of_right_ne_nil _ (List.cons_ne_nil _ _)
      · rw [hw]
        exact List.cons_ne_nil _ _
  | memset hop hnr hmap =>
    dsimp only
    unfold vmapPgdMemset
    rw [hm hop hnr hmap]
    exact ⟨h, rfl⟩

/-- One instruction of one process keeps the invariant. -/
theorem framesInv_step {s s' : SharedMem ι} {op : SharedOp ι} (hI : s.Inv) (hm : MapIdle op.ins)
    (hs : frameSafe (s.view op.proc op.listed) op.ins) (h : SharedStep uninit s op s') : s'.Inv := by
  obtain ⟨c', hstep, rfl⟩ := h
  have hupd : ∀ m : MmStruct, (fun j => (Function.update s.mm op.proc m j).entry) =
      Function.update (fun j => (s.mm j).entry) op.proc m.entry := by
    intro m
    funext j
    by_cases hj : j = op.proc
    · rw [hj, Function.update_self, Function.update_self]
    · rw [Function.update_of_ne hj, Function.update_of_ne hj]
  have hview : FramesInv (Function.update (fun j => (s.mm j).entry) op.proc
      (s.view op.proc op.listed).mm.entry) (s.view op.proc op.listed).mram.freeFpList
      (frameCount s.mram) := by
    rw [← hupd]
    change FramesInv (fun j => (Function.update s.mm op.proc (s.mm op.proc) j).entry) _ _
    rw [Function.update_eq_self]
    exact hI
  obtain ⟨hres, hmax⟩ := framesInv_inst hview hm hs hstep
  dsimp only [SharedMem.Inv, SharedMem.store, frameCount]
  rw [hupd, hmax]
  exact hres

/-- The four memory instructions. -/
def memoryOp (ins : Inst) : Bool :=
  match ins.opcode with
  | .alloc | .free | .read | .write => true
  | .calc | .syscall => false

theorem mapIdle_of_memoryOp {ins : Inst} (h : memoryOp ins = true) : MapIdle ins := by
  intro hop
  unfold memoryOp at h
  rw [hop] at h
  cases h

/-- In every interleaving of memory instructions that all meet the condition,
frames of RAM are owned exclusively. -/
theorem frames_exclusive {s s' : SharedMem ι} {ops : List (SharedOp ι)} (hb : SharedBoot s)
    (h : Run (Guarded (fun s op => memoryOp op.ins ∧
      frameSafe (s.view op.proc op.listed) op.ins) (SharedStep uninit)) s ops s') :
    FramesExclusive s' := by
  refine (h.invariant SharedMem.Inv ?_ (inv_of_sharedBoot hb)).framesExclusive
  rintro s op s' hI ⟨⟨hop, hs⟩, hstep⟩
  exact framesInv_step hI (mapIdle_of_memoryOp hop) hs hstep

/-! ## Runs of two processes -/

instance (c : ProcMem) (ins : Inst) : Decidable (GrowthFits c ins) :=
  haveI (l : List Addr) : Decidable (∀ f ∈ l, f.toNat < 2 ^ 13) := List.decidableBAll _ l
  decidableForallSome _ _

instance (c : ProcMem) (ins : Inst) : Decidable (FaultFits c ins) :=
  haveI (o : Option Addr) : Decidable (∀ f ∈ o, f.toNat < 2 ^ 13) := decidableForallSome o _
  decidableForallSome _ _

instance (c : ProcMem) (ins : Inst) : Decidable (frameSafe c ins) :=
  inferInstanceAs (Decidable (_ ∧ _))

/-- Fresh processes over random-access devices of the given sizes. -/
def sharedStart (memramsz memswpsz : Addr) : SharedMem (Fin 2) :=
  ⟨fun _ => initMm, initMemphy memramsz true, initMemphy memswpsz true⟩

theorem sharedBoot_sharedStart (memramsz memswpsz : Addr) :
    SharedBoot (sharedStart memramsz memswpsz) :=
  ⟨fun _ => rfl, ⟨_, _, rfl⟩, ⟨_, _, rfl⟩⟩

/-- The memory after an instruction, computed. -/
def sharedNext (uninit : Addr → Byte) (s : SharedMem ι) (op : SharedOp ι) :
    Option (SharedMem ι) :=
  (instNext uninit (s.view op.proc op.listed) op.ins).map fun c => s.store op.proc c

theorem sharedStep_of_sharedNext (uninit : Addr → Byte) (s : SharedMem ι) (op : SharedOp ι)
    (s' : SharedMem ι) (h : sharedNext uninit s op = some s') : SharedStep uninit s op s' := by
  obtain ⟨c, hc, rfl⟩ := Option.map_eq_some_iff.mp h
  exact ⟨c, instStep_of_instNext uninit _ _ _ hc, rfl⟩

/-- Two processes that allocate and write in turns. -/
def takingTurns : List (SharedOp (Fin 2)) :=
  [⟨0, true, ⟨.alloc, 300, 0, 0, 0⟩⟩, ⟨1, true, ⟨.alloc, 5000, 0, 0, 0⟩⟩,
    ⟨0, true, ⟨.write, 7, 0, 20, 0⟩⟩, ⟨1, true, ⟨.write, 9, 0, 4100, 0⟩⟩]

/-- The condition is met by two processes in a RAM of four frames. -/
theorem frames_exclusive_takingTurns : ∃ s,
    Run (Guarded (fun s op => memoryOp op.ins ∧ frameSafe (s.view op.proc op.listed) op.ins)
      (SharedStep fun _ => 0)) (sharedStart 16384 0) takingTurns s ∧
      (entryFrame ((s.mm 0).entry 0), entryFrame ((s.mm 1).entry 0),
        entryFrame ((s.mm 1).entry 1)) = (0, 1, 2) ∧ FramesExclusive s := by
  obtain ⟨s, hrun, hf⟩ := exists_run_of_map
    (fun (s : SharedMem (Fin 2)) op => memoryOp op.ins ∧
      frameSafe (s.view op.proc op.listed) op.ins)
    (sharedStep_of_sharedNext fun _ => 0) (sharedStart 16384 0) takingTurns
    (fun s => (entryFrame ((s.mm 0).entry 0), entryFrame ((s.mm 1).entry 0),
      entryFrame ((s.mm 1).entry 1))) (0, 1, 2) rfl
  exact ⟨s, hrun, hf, frames_exclusive (sharedBoot_sharedStart _ _) hrun⟩

/-- Two frames of RAM, two variables that get them, a variable that gets none, and a
write to that one. -/
def takeover : List (SharedOp (Fin 2)) :=
  [⟨0, true, ⟨.alloc, 16, 0, 0, 0⟩⟩, ⟨0, true, ⟨.alloc, 4096, 1, 0, 0⟩⟩,
    ⟨0, true, ⟨.alloc, 5000, 2, 0, 0⟩⟩, ⟨0, true, ⟨.write, 7, 2, 0, 0⟩⟩]

/-- The evicted page and the page that took its frame over both pass for present,
and both translate to frame 0. -/
theorem frames_not_exclusive_takeover : ∃ s,
    Run (Guarded (fun _ op => memoryOp op.ins) (SharedStep fun _ => 0)) (sharedStart 8192 8192)
      takeover s ∧ ¬FramesExclusive s := by
  obtain ⟨s, hrun, hf⟩ := exists_run_of_map (fun (_ : SharedMem (Fin 2)) op => memoryOp op.ins)
    (sharedStep_of_sharedNext fun _ => 0) (sharedStart 8192 8192) takeover
    (fun s => (decide (Present ((s.mm 0).entry 0)), decide (Present ((s.mm 0).entry 2)),
      entryFrame ((s.mm 0).entry 0), entryFrame ((s.mm 0).entry 2))) (true, true, 0, 0) rfl
  simp only [Prod.mk.injEq, decide_eq_true_eq] at hf
  obtain ⟨h0, h1, hf0, hf1⟩ := hf
  refine ⟨s, hrun, fun h => h.unshared 0 0 0 2 h0 h1 ?_ (hf0.trans hf1.symm)⟩
  decide

end OsSim.MemoryFrames
