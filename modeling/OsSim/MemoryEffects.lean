import OsSim.MemoryLibrary

/-!
# What a page access may change

Inversion lemmas for the fault handler and its parts. A page access finds its
page present, takes a free frame, fails with or without losing a victim, or
evicts; byte accesses add at most one write to RAM.
-/

namespace OsSim.MemoryEffects

open MemoryWords MemoryDevice MemoryPageTable MemoryMapping MemoryPaging MemoryLibrary

variable (uninit : Addr → Byte)

/-- An `int` survives the passage through a 64-bit register. -/
@[simp] theorem toCInt_toAddr (n : CInt) : toCInt (toAddr n) = n := by
  unfold toCInt toAddr
  ext i hi
  simp only [BitVec.getElem_setWidth, BitVec.getLsbD_signExtend]
  simp only [hi, Nat.lt_trans hi (by decide : 32 < 64), decide_true, Bool.true_and, if_true,
    BitVec.getLsbD_eq_getElem]

/-- Two memory managers with the same entries and the same replacement list. -/
structure SamePaging (mm mm' : MmStruct) : Prop where
  /-- The entries agree. -/
  entry : mm'.entry = mm.entry
  /-- The replacement lists agree. -/
  fifoPgn : mm'.fifoPgn = mm.fifoPgn

theorem SamePaging.refl (mm : MmStruct) : SamePaging mm mm := ⟨rfl, rfl⟩

theorem SamePaging.trans {mm mm' mm'' : MmStruct} (h : SamePaging mm mm')
    (h' : SamePaging mm' mm'') : SamePaging mm mm'' :=
  ⟨h'.entry.trans h.entry, h'.fifoPgn.trans h.fifoPgn⟩

/-- Two devices that differ at most in the bytes they store. -/
structure SameFrames (mp mp' : MemphyStruct) : Prop where
  /-- The sizes agree. -/
  maxsz : mp'.maxsz = mp.maxsz
  /-- The access modes agree. -/
  rdmflg : mp'.rdmflg = mp.rdmflg
  /-- The free lists agree. -/
  freeFpList : mp'.freeFpList = mp.freeFpList

theorem SameFrames.refl (mp : MemphyStruct) : SameFrames mp mp := ⟨rfl, rfl, rfl⟩

theorem SameFrames.trans {mp mp' mp'' : MemphyStruct} (h : SameFrames mp mp')
    (h' : SameFrames mp' mp'') : SameFrames mp mp'' :=
  ⟨h'.maxsz.trans h.maxsz, h'.rdmflg.trans h.rdmflg, h'.freeFpList.trans h.freeFpList⟩

/-- A write, accepted or refused, changes nothing but bytes. -/
theorem sameFrames_memphyWrite (mp : MemphyStruct) (addr : Addr) (data : Byte) :
    SameFrames mp ((memphyWrite mp addr data).getD mp) := by
  cases h : memphyWrite mp addr data with
  | none => exact SameFrames.refl mp
  | some mp' =>
    obtain ⟨h1, h2, h3, _⟩ := memphyWrite_frame h
    exact ⟨h1, h2, h3⟩

/-- A page copy changes nothing but bytes of its destination. -/
theorem sameFrames_swapCpPage (mpsrc : MemphyStruct) (srcfpn : Addr) (mpdst : MemphyStruct)
    (dstfpn : Addr) : SameFrames mpdst (swapCpPage uninit mpsrc srcfpn mpdst dstfpn) := by
  unfold swapCpPage
  induction pagingPagesz with
  | zero => exact SameFrames.refl mpdst
  | succ n ih => exact ih.trans (sameFrames_memphyWrite _ _ _)

/-- The victim is the last page of the list. -/
theorem findVictimPage_eq_some {l l' : List Addr} {v : Addr} :
    findVictimPage l = some (v, l') ↔ l = l' ++ [v] := by
  induction l generalizing l' with
  | nil => simp [findVictimPage]
  | cons pg rest ih =>
    cases rest with
    | nil =>
      cases l' with
      | nil => simp [findVictimPage]
      | cons a l' => simp [findVictimPage]
    | cons next rest =>
      rw [findVictimPage, Option.map_eq_some_iff]
      constructor
      · rintro ⟨⟨w, m⟩, hw, he⟩
        cases he
        rw [ih.mp hw, List.cons_append]
      · intro he
        cases l' with
        | nil => cases he
        | cons a l' =>
          rw [List.cons_append, List.cons.injEq] at he
          obtain ⟨rfl, he⟩ := he
          exact ⟨(v, l'), ih.mpr he, rfl⟩

/-- `find_victim_page` finds no victim exactly in an empty list. -/
theorem findVictimPage_eq_none {l : List Addr} : findVictimPage l = none ↔ l = [] := by
  cases l with
  | nil => simp [findVictimPage]
  | cons pg rest =>
    have h : findVictimPage (pg :: rest) =
        some ((pg :: rest).getLast (List.cons_ne_nil _ _), (pg :: rest).dropLast) :=
      findVictimPage_eq_some.mpr (List.dropLast_concat_getLast _).symm
    rw [h]
    simp

/-- The swap call of the fault handler copies bytes and changes nothing else. -/
theorem syscall_swp (c : ProcMem) (vicfpn swpfpn : Addr) :
    ∃ mswp, SameFrames c.activeMswp mswp ∧
      (syscall uninit c 17 ⟨toAddr sysmemSwpOp, vicfpn, swpfpn⟩).2.2 =
        {c with activeMswp := mswp} := by
  unfold syscall
  rw [if_pos rfl]
  dsimp only [sysMemmap]
  rw [toCInt_toAddr, if_neg (by decide : sysmemSwpOp ≠ sysmemMapOp),
    if_neg (by decide : sysmemSwpOp ≠ sysmemIncOp), if_pos rfl]
  split
  · exact ⟨c.activeMswp, SameFrames.refl _, rfl⟩
  · exact ⟨_, sameFrames_swapCpPage uninit _ _ _ _, rfl⟩

/-- The growth call of the allocator. -/
theorem syscall_inc (c : ProcMem) (a2 incSz : Addr) :
    (syscall uninit c 17 ⟨toAddr sysmemIncOp, a2, incSz⟩).1 =
        (if c.listed then (incVmaLimit c (toCInt a2) incSz).1 else -1) ∧
      (syscall uninit c 17 ⟨toAddr sysmemIncOp, a2, incSz⟩).2.2 =
        (if c.listed then (incVmaLimit c (toCInt a2) incSz).2 else c) := by
  unfold syscall
  rw [if_pos rfl]
  dsimp only [sysMemmap]
  rw [toCInt_toAddr, if_neg (by decide : sysmemIncOp ≠ sysmemMapOp), if_pos rfl]
  cases c.listed <;> exact ⟨rfl, rfl⟩

/-- The block for swapped entries reaches neither the memory manager nor RAM. -/
theorem swapInBlock_eq (c : ProcMem) (pte : UInt) (tgtfpn : Addr) :
    ∃ mswp, swapInBlock uninit c pte tgtfpn = {c with activeMswp := mswp} := by
  dsimp only [swapInBlock]
  split
  · obtain ⟨mswp, _, h⟩ := syscall_swp uninit c ((pagingSwp pte).setWidth 64) tgtfpn
    rw [h]
    exact ⟨_, rfl⟩
  · exact ⟨c.activeMswp, rfl⟩

/-- The end of a fault maps the page and, apart from that, changes only swap. -/
theorem mapFaulted_eq (c : ProcMem) (pte : UInt) (pgn : CInt) (tgtfpn : Addr) :
    ∃ mswp, mapFaulted uninit c pte pgn tgtfpn =
      {c with mm := mapPage c.mm (toAddr pgn) tgtfpn, activeMswp := mswp} := by
  obtain ⟨mswp, h⟩ := swapInBlock_eq uninit c pte tgtfpn
  unfold mapFaulted
  rw [h]
  exact ⟨mswp, rfl⟩

/-- An eviction marks the victim's entry and, apart from that, changes only the
bytes of the swap device. -/
theorem evictVictim_eq (c : ProcMem) (vicpgn swpfpn : Addr) :
    ∃ mswp, SameFrames c.activeMswp mswp ∧ evictVictim uninit c vicpgn swpfpn =
      {c with mm := (pteSetSwap c.mm vicpgn 0 swpfpn).2, activeMswp := mswp} := by
  obtain ⟨mswp, hm, h⟩ := syscall_swp uninit c (victimFrame c.mm vicpgn) swpfpn
  unfold evictVictim
  rw [h]
  exact ⟨mswp, hm, rfl⟩

/-- The entry table after an eviction and the mapping that follows it. -/
def evictedMm (mm : MmStruct) (fifo : List Addr) (vicpgn swpfpn pgn : Addr) : MmStruct :=
  mapPage (pteSetSwap {mm with fifoPgn := fifo} vicpgn 0 swpfpn).2 pgn (victimFrame mm vicpgn)

/-- The outcomes of a fault: a free frame is mapped, there is no victim, a victim is
dropped because swap is full, and the frame of an evicted victim is mapped. -/
theorem faultPage_outcome (c : ProcMem) (pgn : CInt) :
    (∃ f rest, c.mram.freeFpList = f :: rest ∧ (faultPage uninit c pgn).1 =
      some (mapFaulted uninit {c with mram := {c.mram with freeFpList := rest}}
        (pteGetEntry c.mm (toAddr pgn)) pgn f)) ∨
    (c.mram.freeFpList = [] ∧ c.mm.fifoPgn = [] ∧ faultPage uninit c pgn = (none, c)) ∨
    (∃ v fifo, c.mram.freeFpList = [] ∧ c.mm.fifoPgn = fifo ++ [v] ∧
      c.activeMswp.freeFpList = [] ∧
      faultPage uninit c pgn = (none, {c with mm := {c.mm with fifoPgn := fifo}})) ∨
    (∃ v fifo s rest mswp, c.mram.freeFpList = [] ∧ c.mm.fifoPgn = fifo ++ [v] ∧
      c.activeMswp.freeFpList = s :: rest ∧ mswp.freeFpList = rest ∧
      (faultPage uninit c pgn).1 = some (mapFaulted uninit
        {c with mm := (pteSetSwap {c.mm with fifoPgn := fifo} v 0 s).2, activeMswp := mswp}
        (pteGetEntry c.mm (toAddr pgn)) pgn (victimFrame c.mm v))) := by
  dsimp only [faultPage]
  cases hl : c.mram.freeFpList with
  | cons f rest =>
    rw [memphyGetFreefp_cons hl]
    exact Or.inl ⟨f, rest, rfl, rfl⟩
  | nil =>
    rw [memphyGetFreefp_none.mpr hl]
    dsimp only
    cases hv : findVictimPage c.mm.fifoPgn with
    | none => exact Or.inr (Or.inl ⟨rfl, findVictimPage_eq_none.mp hv, rfl⟩)
    | some r =>
      obtain ⟨v, fifo⟩ := r
      have hf := findVictimPage_eq_some.mp hv
      dsimp only
      cases hs : c.activeMswp.freeFpList with
      | nil =>
        rw [memphyGetFreefp_none.mpr hs]
        exact Or.inr (Or.inr (Or.inl ⟨v, fifo, rfl, hf, rfl, rfl⟩))
      | cons s rest =>
        obtain ⟨mswp, hsame, he⟩ := evictVictim_eq uninit
          {c with mm := {c.mm with fifoPgn := fifo},
                  activeMswp := {c.activeMswp with freeFpList := rest}} v s
        refine Or.inr (Or.inr (Or.inr ⟨v, fifo, s, rest, mswp, rfl, hf, rfl,
          hsame.freeFpList, ?_⟩))
        rw [memphyGetFreefp_cons hs]
        dsimp only
        rw [he]
        rfl

/-- What the outcomes of a fault change; the swap device is left open. -/
theorem faultPage_cases (c : ProcMem) (pgn : CInt) :
    (∃ f rest mswp, c.mram.freeFpList = f :: rest ∧ (faultPage uninit c pgn).1 =
      some {c with mm := mapPage c.mm (toAddr pgn) f, mram := {c.mram with freeFpList := rest},
                   activeMswp := mswp}) ∨
    (c.mram.freeFpList = [] ∧ c.mm.fifoPgn = [] ∧ faultPage uninit c pgn = (none, c)) ∨
    (∃ v fifo, c.mram.freeFpList = [] ∧ c.mm.fifoPgn = fifo ++ [v] ∧
      c.activeMswp.freeFpList = [] ∧
      faultPage uninit c pgn = (none, {c with mm := {c.mm with fifoPgn := fifo}})) ∨
    (∃ v fifo s rest mswp, c.mram.freeFpList = [] ∧ c.mm.fifoPgn = fifo ++ [v] ∧
      c.activeMswp.freeFpList = s :: rest ∧ (faultPage uninit c pgn).1 =
        some {c with mm := evictedMm c.mm fifo v s (toAddr pgn), activeMswp := mswp}) := by
  obtain ⟨f, rest, hl, he⟩ | hnone | hlost | ⟨v, fifo, s, rest, m, hl, hv, hs, _, he⟩ :=
    faultPage_outcome uninit c pgn
  · obtain ⟨mswp, hm⟩ := mapFaulted_eq uninit
      {c with mram := {c.mram with freeFpList := rest}} (pteGetEntry c.mm (toAddr pgn)) pgn f
    exact Or.inl ⟨f, rest, mswp, hl, he.trans (congrArg some hm)⟩
  · exact Or.inr (Or.inl hnone)
  · exact Or.inr (Or.inr (Or.inl hlost))
  · obtain ⟨mswp, hm⟩ := mapFaulted_eq uninit
      {c with mm := (pteSetSwap {c.mm with fifoPgn := fifo} v 0 s).2, activeMswp := m}
      (pteGetEntry c.mm (toAddr pgn)) pgn (victimFrame c.mm v)
    exact Or.inr (Or.inr (Or.inr ⟨v, fifo, s, rest, mswp, hl, hv, hs,
      he.trans (congrArg some hm)⟩))

/-- `pg_getpage` on a page whose entry is present: no change, whatever the
swapped mark says. -/
theorem pgGetpage_of_present {c : ProcMem} {pgn : CInt}
    (h : Present (c.mm.entry (ptIndex (toAddr pgn)))) : pgGetpage uninit c pgn =
      (some (pagingFpn ((c.mm.entry (ptIndex (toAddr pgn))).setWidth 32)), c) := by
  unfold pgGetpage
  rw [pteGetEntry_eq]
  exact if_pos h

/-- `pg_getpage` on a page whose entry is not present is its fault handler. -/
theorem pgGetpage_of_not_present {c : ProcMem} {pgn : CInt}
    (h : ¬Present (c.mm.entry (ptIndex (toAddr pgn)))) : pgGetpage uninit c pgn =
      match faultPage uninit c pgn with
      | (none, c) => (none, c)
      | (some c, _) => (some (pagingFpn ((c.mm.entry (ptIndex (toAddr pgn))).setWidth 32)), c) := by
  unfold pgGetpage
  simp only [pteGetEntry_eq]
  exact if_neg h

/-- The five ways an access to a page can go. -/
inductive PageAccess (c : ProcMem) (pgn : Addr) : ProcMem → Prop
  /-- The entry is present. -/
  | present (h : Present (c.mm.entry (ptIndex pgn))) : PageAccess c pgn c
  /-- RAM has a free frame. -/
  | free {f : Addr} {rest : List Addr} {mswp : MemphyStruct}
      (h : ¬Present (c.mm.entry (ptIndex pgn))) (hf : c.mram.freeFpList = f :: rest) :
      PageAccess c pgn {c with
        mm := mapPage c.mm pgn f, mram := {c.mram with freeFpList := rest}, activeMswp := mswp}
  /-- No page of the process can be replaced. -/
  | noVictim (h : ¬Present (c.mm.entry (ptIndex pgn))) (hf : c.mram.freeFpList = [])
      (hv : c.mm.fifoPgn = []) : PageAccess c pgn c
  /-- The victim has left the list before the swap device turns out to be full. -/
  | lostVictim {v : Addr} {fifo : List Addr} (h : ¬Present (c.mm.entry (ptIndex pgn)))
      (hf : c.mram.freeFpList = []) (hv : c.mm.fifoPgn = fifo ++ [v])
      (hs : c.activeMswp.freeFpList = []) :
      PageAccess c pgn {c with mm := {c.mm with fifoPgn := fifo}}
  /-- The victim's frame is taken over. -/
  | evict {v s : Addr} {fifo rest : List Addr} {mswp : MemphyStruct}
      (h : ¬Present (c.mm.entry (ptIndex pgn))) (hf : c.mram.freeFpList = [])
      (hv : c.mm.fifoPgn = fifo ++ [v]) (hs : c.activeMswp.freeFpList = s :: rest) :
      PageAccess c pgn {c with mm := evictedMm c.mm fifo v s pgn, activeMswp := mswp}

/-- Every access to a page is one of the list. -/
theorem pgGetpage_access (c : ProcMem) (pgn : CInt) :
    PageAccess c (toAddr pgn) (pgGetpage uninit c pgn).2 := by
  by_cases h : Present (c.mm.entry (ptIndex (toAddr pgn)))
  · rw [pgGetpage_of_present uninit h]
    exact .present h
  · rw [pgGetpage_of_not_present uninit h]
    obtain ⟨f, rest, mswp, hf, he⟩ | ⟨hf, hv, he⟩ | ⟨v, fifo, hf, hv, hs, he⟩ |
      ⟨v, fifo, s, rest, mswp, hf, hv, hs, he⟩ := faultPage_cases uninit c pgn
    · split
      · next hm => rw [hm] at he; cases he
      · next hm => rw [hm] at he; cases he; exact .free h hf
    · rw [he]
      exact .noVictim h hf hv
    · rw [he]
      exact .lostVictim h hf hv hs
    · split
      · next hm => rw [hm] at he; cases he
      · next hm => rw [hm] at he; cases he; exact .evict h hf hv hs

@[simp] theorem evictedMm_mmap (mm : MmStruct) (fifo : List Addr) (v s pgn : Addr) :
    (evictedMm mm fifo v s pgn).mmap = mm.mmap := by
  unfold evictedMm
  rw [mapPage_mmap, (pteSetSwap_spec _ _ _ _).2.2.1]

@[simp] theorem evictedMm_symrgtbl (mm : MmStruct) (fifo : List Addr) (v s pgn : Addr) :
    (evictedMm mm fifo v s pgn).symrgtbl = mm.symrgtbl := by
  unfold evictedMm
  rw [mapPage_symrgtbl, (pteSetSwap_spec _ _ _ _).2.2.2.1]

/-- What a page access leaves alone in every case. -/
structure SameRegions (c c' : ProcMem) : Prop where
  /-- The areas agree. -/
  mmap : c'.mm.mmap = c.mm.mmap
  /-- The regions of the symbols agree. -/
  symrgtbl : c'.mm.symrgtbl = c.mm.symrgtbl
  /-- The caller is as findable as before. -/
  listed : c'.listed = c.listed
  /-- The size of RAM agrees. -/
  maxsz : c'.mram.maxsz = c.mram.maxsz
  /-- The access mode of RAM agrees. -/
  rdmflg : c'.mram.rdmflg = c.mram.rdmflg

/-- An access neither allocates nor frees, and leaves the bytes of RAM alone. -/
theorem PageAccess.sameRegions {c c' : ProcMem} {pgn : Addr} (h : PageAccess c pgn c') :
    SameRegions c c' ∧ c'.mram.storage = c.mram.storage := by
  cases h with
  | present | noVictim | lostVictim => exact ⟨⟨rfl, rfl, rfl, rfl, rfl⟩, rfl⟩
  | free => exact ⟨⟨mapPage_mmap _ _ _, mapPage_symrgtbl _ _ _, rfl, rfl, rfl⟩, rfl⟩
  | evict => exact ⟨⟨evictedMm_mmap _ _ _ _ _, evictedMm_symrgtbl _ _ _ _ _, rfl, rfl, rfl⟩, rfl⟩

/-- The page number of an address, as `pg_getval` and `pg_setval` compute it. -/
def addrPage (addr : Addr) : CInt := (getPgnOffset addr).1

/-- The physical address of a byte whose page lies at a frame, as `pg_getval` and
`pg_setval` compute it. -/
def byteAddr (fpn : CInt) (addr : Addr) : Addr := toAddr (getPhyaddr fpn (getPgnOffset addr).2)

/-- A byte survives the trip through a register. -/
theorem byte_roundTrip (v : Byte) : ((v.signExtend 32).setWidth 64 : Addr).setWidth 8 = v := by
  ext i hi
  rw [BitVec.getElem_setWidth, BitVec.getLsbD_setWidth, BitVec.getLsbD_signExtend, if_pos hi,
    BitVec.getLsbD_eq_getElem hi]
  simp only [Nat.lt_trans hi (by decide : 8 < 64), Nat.lt_trans hi (by decide : 8 < 32),
    decide_true, Bool.true_and]

/-- The physical read call. -/
theorem syscall_ioRead (c : ProcMem) (a2 a3 : Addr) :
    syscall uninit c 17 ⟨toAddr sysmemIoRead, a2, a3⟩ =
      match if c.listed then memphyRead c.mram a2 else none with
      | none => (-1, ⟨toAddr sysmemIoRead, a2, a3⟩, c)
      | some v => (0, ⟨toAddr sysmemIoRead, a2, (v.signExtend 32).setWidth 64⟩, c) := by
  unfold syscall
  rw [if_pos rfl]
  dsimp only [sysMemmap]
  rw [toCInt_toAddr, if_neg (by decide : sysmemIoRead ≠ sysmemMapOp),
    if_neg (by decide : sysmemIoRead ≠ sysmemIncOp),
    if_neg (by decide : sysmemIoRead ≠ sysmemSwpOp), if_pos rfl]
  cases c.listed with
  | false => rfl
  | true => cases memphyRead c.mram a2 <;> rfl

/-- The physical write call. -/
theorem syscall_ioWrite (c : ProcMem) (a2 a3 : Addr) :
    syscall uninit c 17 ⟨toAddr sysmemIoWrite, a2, a3⟩ =
      match if c.listed then memphyWrite c.mram a2 (a3.setWidth 8) else none with
      | none => (-1, ⟨toAddr sysmemIoWrite, a2, a3⟩, c)
      | some mram => (0, ⟨toAddr sysmemIoWrite, a2, a3⟩, {c with mram := mram}) := by
  unfold syscall
  rw [if_pos rfl]
  dsimp only [sysMemmap]
  rw [toCInt_toAddr, if_neg (by decide : sysmemIoWrite ≠ sysmemMapOp),
    if_neg (by decide : sysmemIoWrite ≠ sysmemIncOp),
    if_neg (by decide : sysmemIoWrite ≠ sysmemSwpOp),
    if_neg (by decide : sysmemIoWrite ≠ sysmemIoRead), if_pos rfl]
  cases c.listed with
  | false => rfl
  | true => cases memphyWrite c.mram a2 (a3.setWidth 8) <;> rfl

/-- `pg_getval` reads the byte of its page's frame, if it gets one. -/
theorem pgGetval_eq (c : ProcMem) (addr : Addr) (data : Byte) : pgGetval uninit c addr data =
    match pgGetpage uninit c (addrPage addr) with
    | (none, c') => (-1, data, c')
    | (some fpn, c') =>
      match if c'.listed then memphyRead c'.mram (byteAddr fpn addr) else none with
      | none => (-1, data, c')
      | some v => (0, v, c') := by
  dsimp only [pgGetval, addrPage, byteAddr]
  cases pgGetpage uninit c (getPgnOffset addr).1 with
  | mk r c' =>
    cases r with
    | none => rfl
    | some fpn =>
      dsimp only
      rw [syscall_ioRead]
      cases (if c'.listed then memphyRead c'.mram
        (toAddr (getPhyaddr fpn (getPgnOffset addr).2)) else none) with
      | none => rfl
      | some v => exact congrArg (fun d => ((0 : Int), d, c')) (byte_roundTrip v)

/-- `pg_setval` writes the byte of its page's frame, if it gets one. -/
theorem pgSetval_snd (c : ProcMem) (addr : Addr) (value : Byte) :
    (pgSetval uninit c addr value).2 =
      match pgGetpage uninit c (addrPage addr) with
      | (none, c') => c'
      | (some fpn, c') =>
        if c'.listed then
          {c' with mram := (memphyWrite c'.mram (byteAddr fpn addr) value).getD c'.mram}
        else c' := by
  dsimp only [pgSetval, addrPage, byteAddr]
  cases pgGetpage uninit c (getPgnOffset addr).1 with
  | mk r c' =>
    cases r with
    | none => rfl
    | some fpn =>
      dsimp only
      rw [syscall_ioWrite, byte_roundTrip]
      by_cases hl : c'.listed = true
      · rw [if_pos hl, if_pos hl]
        cases memphyWrite c'.mram (toAddr (getPhyaddr fpn (getPgnOffset addr).2)) value <;> rfl
      · rw [if_neg hl, if_neg hl]
        rfl

/-- Reading a byte changes memory exactly as the access to its page does. -/
theorem pgGetval_snd (c : ProcMem) (addr : Addr) (data : Byte) :
    (pgGetval uninit c addr data).2.2 = (pgGetpage uninit c (addrPage addr)).2 := by
  rw [pgGetval_eq]
  cases pgGetpage uninit c (addrPage addr) with
  | mk r c' =>
    cases r with
    | none => rfl
    | some fpn =>
      dsimp only
      split <;> rfl

/-- Writing a byte changes RAM by at most one byte more than the page access. -/
theorem pgSetval_frames (c : ProcMem) (addr : Addr) (value : Byte) :
    ∃ mram, SameFrames (pgGetpage uninit c (addrPage addr)).2.mram mram ∧
      (pgSetval uninit c addr value).2 =
        {(pgGetpage uninit c (addrPage addr)).2 with mram := mram} := by
  rw [pgSetval_snd]
  cases pgGetpage uninit c (addrPage addr) with
  | mk r c' =>
    cases r with
    | none => exact ⟨c'.mram, SameFrames.refl _, rfl⟩
    | some fpn =>
      dsimp only
      split
      · exact ⟨_, sameFrames_memphyWrite _ _ _, rfl⟩
      · exact ⟨c'.mram, SameFrames.refl _, rfl⟩

end OsSim.MemoryEffects
