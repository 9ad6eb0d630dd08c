import OsSim.RunSimulation
import OsSim.MemoryArea
import OsSim.MemoryFrames
import OsSim.MemoryTranslation

/-!
# The memory a process believes it has

The abstract memory of one process: its break, its regions and 512 pages of 256 bytes,
with no frame, no page table and no other process in it. Addresses that agree in the low
byte and in the page modulo 512 share a byte, as they do in the code, and a byte is read
with its sign. Processes that share RAM run as if each of them had one of its own, as long
as RAM serves every page they need.
-/

namespace OsSim.VirtualMemory

open MemoryWords MemoryDevice MemoryPageTable MemoryMapping MemoryPaging MemoryLibrary
open MemoryEffects MemoryInstruction MemoryArea MemoryBytes MemoryFrames MemoryTranslation
open RunSteps RunSimulation

variable {uninit : Addr → Byte} {ι : Type*}

/-! ## The abstract memory -/

/-- A byte of the abstract memory: its page, and its place in the page. -/
abbrev Cell := Fin 512 × Fin 256

/-- The byte that an address stands for: `get_pgn_offset` keeps eight bits of the offset,
and `get_pd_from_pagenum` nine of the page, so other addresses stand for it too. -/
def cell (addr : Addr) : Cell :=
  (⟨addr.toNat / 4096 % 512, Nat.mod_lt _ (by decide)⟩,
    ⟨addr.toNat % 256, Nat.mod_lt _ (by decide)⟩)

/-- The memory of one process. Its bytes are shared by addresses of one `cell`, and `READ`
extends the sign of the byte it delivers, since a `BYTE` is a `char`. -/
structure VirtualMem where
  /-- The break of the heap. -/
  sbrk : Addr
  /-- The free regions, head first. -/
  freergs : List VmRg
  /-- The region of every symbol. -/
  symrgtbl : Fin 30 → VmRg
  /-- The bytes. -/
  byte : Cell → Byte

/-- The memory of a process that has just been loaded. -/
def VirtualMem.init : VirtualMem := ⟨0, [⟨0, 0⟩], fun _ => ⟨0, 0⟩, fun _ => 0⟩

/-- Bytes of which a range of pages has been cleared. -/
def cleared (start : Addr) (pages : ℕ) (byte : Cell → Byte) : Cell → Byte := fun x =>
  if ∃ k < pages, (start.toNat / 4096 + k) % 512 = x.1 then 0 else byte x

/-- The pages a growth asks for. -/
def growthPages (size : Addr) : ℕ := loopCount (incNumPage (paging64PageAlignsz size))

/-- The heap grows by whole pages, which are cleared, unless the break would be zero. -/
def VirtualMem.grow (v : VirtualMem) (size : Addr) : Option VirtualMem :=
  if v.sbrk + paging64PageAlignsz size = 0 then none
  else some {v with
    sbrk := v.sbrk + paging64PageAlignsz size
    byte := cleared v.sbrk (growthPages size) v.byte}

/-- A symbol gets a region. -/
def VirtualMem.setSymrg (v : VirtualMem) (k : Fin 30) (rg : VmRg) : VirtualMem :=
  {v with symrgtbl := Function.update v.symrgtbl k rg}

/-- An allocation: a free region that is large enough, or the end of a grown heap. -/
def VirtualMem.alloc (v : VirtualMem) (rgid : CInt) (size : Addr) :
    Except Fault (Int × VirtualMem) :=
  let free := getFreeVmrgArea v.freergs (toCInt size)
  let v : VirtualMem := {v with freergs := free.2}
  match free.1 with
  | some rg => do
    let k ← symrgSlot rgid
    .ok (0, v.setSymrg k rg)
  | none =>
    match v.grow size with
    | none => .ok (-1, v)
    | some grown => do
      let k ← symrgSlot rgid
      .ok (0, grown.setSymrg k ⟨toAddr (toCInt v.sbrk), toAddr (toCInt v.sbrk) + size⟩)

/-- A release: the region of the symbol becomes free. -/
def VirtualMem.free (v : VirtualMem) (rgid : CInt) : Except Fault (Int × VirtualMem) :=
  if (getSymrgByid rgid).isNone then .ok (-1, v)
  else do
    let k ← symrgSlot rgid
    let rg := v.symrgtbl k
    if rg.rgStart = 0 ∧ rg.rgEnd = 0 then .ok (-1, v)
    else
      let freergs := if rg.rgEnd ≤ rg.rgStart then v.freergs else rg :: v.freergs
      .ok (0, {v.setSymrg k ⟨0, 0⟩ with freergs := freergs})

/-- The address of a byte of a region, if it passes the bounds check. -/
def VirtualMem.regionAddr (v : VirtualMem) (rgid : CInt) (offset : Addr) :
    Except Fault (Option Addr) :=
  match getSymrgByid rgid with
  | none => .ok none
  | some p => do
    let k ← symrgSlot p
    let rg := v.symrgtbl k
    if rg.rgEnd ≤ rg.rgStart + offset then .ok none else .ok (some (rg.rgStart + offset))

/-- The system call: of its operations only a growth has an effect. -/
def VirtualMem.syscall (v : VirtualMem) (ins : Inst) : Int × VirtualMem :=
  if toCInt ins.arg0 ≠ 17 then (0, v)
  else if toCInt ins.arg1 = sysmemIncOp then
    if (0 : CInt).slt (toCInt ins.arg2) then (-1, v)
    else
      match v.grow ins.arg3 with
      | none => (-1, v)
      | some grown => (0, grown)
  else if toCInt ins.arg1 = sysmemSwpOp then (0, v)
  else (-1, v)

/-- One instruction: its status, the word a read delivers, and the memory afterwards. -/
def VirtualMem.exec (v : VirtualMem) (ins : Inst) : Except Fault (Int × Option UInt × VirtualMem) :=
  match ins.opcode with
  | .calc => .ok (0, none, v)
  | .alloc => (v.alloc (toCInt ins.arg1) ins.arg0).map fun r => (r.1, none, r.2)
  | .free => (v.free (toCInt ins.arg0)).map fun r => (r.1, none, r.2)
  | .read => (v.regionAddr (toCInt ins.arg0) ins.arg1).map fun
    | none => (-1, none, v)
    | some addr => (0, some ((v.byte (cell addr)).signExtend 32), v)
  | .write => (v.regionAddr (toCInt ins.arg1) ins.arg2).map fun
    | none => (-1, none, v)
    | some addr => (0, none,
        {v with byte := Function.update v.byte (cell addr) (ins.arg0.setWidth 8)})
  | .syscall => .ok ((v.syscall ins).1, none, (v.syscall ins).2)

/-- An instruction with the status and the word it delivers. -/
structure Event where
  /-- The instruction. -/
  ins : Inst
  /-- The status it returns. -/
  status : Int
  /-- The word it delivers. -/
  word : Option UInt

/-- One instruction on the abstract memory. -/
def VirtualStep (v : VirtualMem) (e : Event) (v' : VirtualMem) : Prop :=
  v.exec e.ins = .ok (e.status, e.word, v')

/-- The instruction decides everything else. -/
theorem determined_virtualStep : Determined VirtualStep Event.ins := by
  rintro v ⟨ins, n, d⟩ ⟨ins', n', d'⟩ v' v'' h h' rfl
  unfold VirtualStep at h h'
  obtain ⟨rfl, rfl, rfl⟩ : n = n' ∧ d = d' ∧ v' = v'' := by
    simpa using h.symm.trans h'
  exact ⟨rfl, rfl⟩

/-! ## Bytes and the frames behind them -/

/-- Bytes of processes that lie in the frames their entries name. A page without a frame,
and a frame without a page, hold zeros. -/
structure Backed (entry : ι → Fin 512 → Addr) (free : List Addr) (storage : Addr → Byte)
    (byte : ι → Cell → Byte) : Prop where
  /-- A byte of a present page lies in the frame of its entry. -/
  present : ∀ i x (low : Fin 256) (b : Addr), Present (entry i x) →
    b.toNat = entryFrame (entry i x) * 4096 + low → storage b = byte i (x, low)
  /-- A page that is not present has never been written. -/
  absent : ∀ i x low, ¬Present (entry i x) → byte i (x, low) = 0
  /-- A free frame has never been written. -/
  free : ∀ f ∈ free, ∀ b : Addr, b.toNat / 4096 = f.toNat → storage b = 0

variable [DecidableEq ι]

/-- A free frame is mapped to a page, which it clears. -/
theorem Backed.map {entry : ι → Fin 512 → Addr} {f : Addr} {rest : List Addr}
    {storage : Addr → Byte} {byte : ι → Cell → Byte} (h : Backed entry (f :: rest) storage byte)
    (hf : f.toNat < 2 ^ 13) (i : ι) (x : Fin 512) :
    Backed (Function.update entry i (Function.update (entry i) x (entrySetFpn (entry i x) f))) rest
      storage (Function.update byte i fun y => if y.1 = x then 0 else byte i y) := by
  have hframe : entryFrame (entrySetFpn (entry i x) f) = f.toNat := by
    rw [entryFrame_entrySetFpn]
    exact Nat.mod_eq_of_lt hf
  refine ⟨fun j y low b hp hb => ?_, fun j y low hn => ?_, fun g hg b hb => ?_⟩
  · by_cases hj : j = i
    · subst hj
      rw [Function.update_self] at hp hb ⊢
      dsimp only
      by_cases hy : y = x
      · subst hy
        rw [Function.update_self, hframe] at hb
        rw [if_pos rfl]
        exact h.free f List.mem_cons_self b (by omega)
      · rw [Function.update_of_ne hy] at hp hb
        rw [if_neg hy]
        exact h.present j y low b hp hb
    · rw [Function.update_of_ne hj] at hp hb ⊢
      exact h.present j y low b hp hb
  · by_cases hj : j = i
    · subst hj
      rw [Function.update_self] at hn ⊢
      dsimp only
      by_cases hy : y = x
      · exact if_pos hy
      · rw [Function.update_of_ne hy] at hn
        rw [if_neg hy]
        exact h.absent j y low hn
    · rw [Function.update_of_ne hj] at hn ⊢
      exact h.absent j y low hn
  · exact h.free g (List.mem_cons_of_mem _ hg) b hb

/-- A byte is written where its page lies. -/
theorem Backed.write {entry : ι → Fin 512 → Addr} {free : List Addr} {n : ℕ}
    {storage : Addr → Byte} {byte : ι → Cell → Byte} (h : Backed entry free storage byte)
    (hI : FramesInv entry free n) {i : ι} {x : Fin 512} {low : Fin 256} {b : Addr}
    (hp : Present (entry i x)) (hb : b.toNat = entryFrame (entry i x) * 4096 + low) (v : Byte) :
    Backed entry free (Function.update storage b v)
      (Function.update byte i (Function.update (byte i) (x, low) v)) := by
  refine ⟨fun j y low' b' hp' hb' => ?_, fun j y low' hn => ?_, fun f hf b' hb' => ?_⟩
  · by_cases hcell : b' = b
    · -- one physical address is one byte of one page
      subst hcell
      have hframe : entryFrame (entry j y) = entryFrame (entry i x) := by omega
      have hlow : low' = low := Fin.ext (by omega)
      obtain ⟨rfl, rfl⟩ := Prod.mk.inj (hI.eq_of_frame_eq hp' hp hframe)
      subst hlow
      rw [Function.update_self, Function.update_self, Function.update_self]
    · rw [Function.update_of_ne hcell, h.present j y low' b' hp' hb']
      by_cases hj : j = i
      · subst hj
        rw [Function.update_self, Function.update_of_ne]
        rintro ⟨⟩
        exact hcell (BitVec.eq_of_toNat_eq (by omega))
      · rw [Function.update_of_ne hj]
  · by_cases hj : j = i
    · subst hj
      rw [Function.update_self, Function.update_of_ne]
      · exact h.absent j y low' hn
      · rintro ⟨⟩
        exact hn hp
    · rw [Function.update_of_ne hj]
      exact h.absent j y low' hn
  · rw [Function.update_of_ne]
    · exact h.free f hf b' hb'
    · rintro rfl
      refine hI.exclusive.unpooled _ _ (frameOwner_of_present entry hp) ?_
      rw [List.mem_map]
      exact ⟨f, hf, by omega⟩

/-- One more page is cleared. -/
theorem cleared_succ (start : Addr) (k : ℕ) (byte : Cell → Byte) :
    cleared start (k + 1) byte = fun y =>
      if y.1 = ptIndex (rangePage start k) then 0 else cleared start k byte y := by
  funext y
  unfold cleared
  by_cases hy : y.1 = ptIndex (rangePage start k)
  · rw [if_pos hy, if_pos ⟨k, Nat.lt_succ_self k, by rw [hy, ptIndex_rangePage]⟩]
  · rw [if_neg hy]
    refine if_congr ⟨?_, ?_⟩ rfl rfl
    · rintro ⟨j, hj, he⟩
      refine ⟨j, lt_of_le_of_ne (Nat.le_of_lt_succ hj) ?_, he⟩
      rintro rfl
      exact hy (Fin.ext (by rw [ptIndex_rangePage, he]))
    · rintro ⟨j, hj, he⟩
      exact ⟨j, Nat.lt_succ_of_lt hj, he⟩

/-- A range of pages is mapped, and cleared. -/
theorem Backed.vmapPageRange {entry : ι → Fin 512 → Addr} {free rest : List Addr}
    {storage : Addr → Byte} {byte : ι → Cell → Byte} {own : Cell → Byte} {mm : MmStruct} {i : ι}
    (h : Backed (Function.update entry i mm.entry) (free ++ rest) storage
      (Function.update byte i own))
    (hf : ∀ f ∈ free, f.toNat < 2 ^ 13) (start : Addr) {pgnum : CInt}
    (hlen : free.length = loopCount pgnum) :
    Backed (Function.update entry i (vmapPageRange mm start pgnum free).2.entry) rest storage
      (Function.update byte i (cleared start (loopCount pgnum) own)) := by
  have hzero : cleared start 0 own = own := by
    funext y
    exact if_neg fun ⟨k, hk, _⟩ => Nat.not_lt_zero k hk
  have hstart : Backed (Function.update entry i (ensureDirectories mm).entry) (free ++ rest)
      storage (Function.update byte i (cleared start 0 own)) ∧ ∀ f ∈ free, f.toNat < 2 ^ 13 := by
    rw [hzero]
    exact ⟨h, hf⟩
  have hstep : ∀ k f fs m,
      (Backed (Function.update entry i (MmStruct.entry m)) (f :: fs ++ rest) storage
        (Function.update byte i (cleared start k own)) ∧ ∀ g ∈ f :: fs, g.toNat < 2 ^ 13) →
      Backed (Function.update entry i (mapPage m (rangePage start k) f).entry) (fs ++ rest) storage
        (Function.update byte i (cleared start (k + 1) own)) ∧ ∀ g ∈ fs, g.toNat < 2 ^ 13 := by
    rintro k f fs m ⟨hm, hfs⟩
    have hmap := hm.map (hfs f List.mem_cons_self) i (ptIndex (rangePage start k))
    simp only [Function.update_self, Function.update_idem] at hmap
    rw [mapPage_entry, cleared_succ]
    exact ⟨hmap, fun g hg => hfs g (List.mem_cons_of_mem _ hg)⟩
  have hend := vmapPageRangeLoop_induct (fun k fs m =>
    Backed (Function.update entry i m.entry) (fs ++ rest) storage
      (Function.update byte i (cleared start k own)) ∧ ∀ f ∈ fs, f.toNat < 2 ^ 13)
    hstep hlen hstart
  rw [Nat.zero_add] at hend
  exact hend.1

/-! ## One process -/

/-- The area of a heap. -/
def VirtualMem.area (v : VirtualMem) : VmArea := ⟨0, 0, v.sbrk, v.sbrk, v.freergs⟩

/-- What one process sees of the shared memory stands for its abstract memory; the other
processes are given by their entries and bytes. -/
structure StandsFor (entry : ι → Fin 512 → Addr) (byte : ι → Cell → Byte) (i : ι) (c : ProcMem)
    (v : VirtualMem) : Prop where
  /-- The only area is the heap. -/
  area : HeapArea c.mm v.area
  /-- The regions are those of the symbols. -/
  symrgtbl : c.mm.symrgtbl = v.symrgtbl
  /-- Frames are owned exclusively. -/
  frames : FramesInv (Function.update entry i c.mm.entry) c.mram.freeFpList (frameCount c.mram)
  /-- The bytes lie in the frames. -/
  backed : Backed (Function.update entry i c.mm.entry) c.mram.freeFpList c.mram.storage
    (Function.update byte i v.byte)
  /-- RAM is a random-access device. -/
  rdmflg : c.mram.rdmflg = true

section StandsFor

variable {entry : ι → Fin 512 → Addr} {byte : ι → Cell → Byte} {i : ι} {c : ProcMem}
  {v : VirtualMem}

/-- Regions and free list may change together. -/
theorem StandsFor.setRegions (h : StandsFor entry byte i c v) {mm : MmStruct} {l : List VmRg}
    {tbl : Fin 30 → VmRg} (hentry : mm.entry = c.mm.entry)
    (hm : mm.mmap = [{v.area with vmFreergList := l}]) (hs : mm.symrgtbl = tbl) :
    StandsFor entry byte i {c with mm := mm} {v with freergs := l, symrgtbl := tbl} where
  area := h.area.of_setFree hm
  symrgtbl := hs
  frames := by
    dsimp only
    rw [hentry]
    exact h.frames
  backed := by
    dsimp only
    rw [hentry]
    exact h.backed
  rdmflg := h.rdmflg

/-- The swap device does not matter. -/
theorem StandsFor.setSwap (h : StandsFor entry byte i c v) (mswp : MemphyStruct) :
    StandsFor entry byte i {c with activeMswp := mswp} v :=
  ⟨h.area, h.symrgtbl, h.frames, h.backed, h.rdmflg⟩

variable (uninit) in
/-- An access that RAM serves changes no byte, and leaves the page present. -/
theorem StandsFor.access (h : StandsFor entry byte i c v) {addr : Addr}
    (hs : ¬Present (c.mm.entry (pageIndex addr)) → ∃ f ∈ c.mram.freeFpList.head?, f.toNat < 2 ^ 13) :
    StandsFor entry byte i (pgGetpage uninit c (addrPage addr)).2 v ∧
      Present ((pgGetpage uninit c (addrPage addr)).2.mm.entry (pageIndex addr)) := by
  have hacc := pgGetpage_access uninit c (addrPage addr)
  have habsent : ¬Present (c.mm.entry (pageIndex addr)) → c.mram.freeFpList ≠ [] := by
    rintro hn hnil
    obtain ⟨f, hf, _⟩ := hs hn
    rw [hnil] at hf
    cases hf
  generalize (pgGetpage uninit c (addrPage addr)).2 = c' at hacc ⊢
  cases hacc with
  | present hp => exact ⟨h, hp⟩
  | @free f rest mswp hn hf =>
    obtain ⟨g, hg, hlt⟩ := hs hn
    rw [hf] at hg
    cases hg
    have hframes := h.frames
    have hbacked := h.backed
    rw [hf] at hframes hbacked
    have hframes := hframes.map hlt i (pageIndex addr)
    have hbacked := hbacked.map hlt i (pageIndex addr)
    -- the page was absent, so that clearing it changes nothing
    have hsame : (fun y : Cell => if y.1 = pageIndex addr then 0 else v.byte y) = v.byte := by
      funext y
      by_cases hy : y.1 = pageIndex addr
      · have hzero := h.backed.absent i y.1 y.2 (by rwa [Function.update_self, hy])
        rw [Function.update_self] at hzero
        rw [if_pos hy]
        exact hzero.symm
      · exact if_neg hy
    simp only [Function.update_self, Function.update_idem, hsame] at hframes hbacked
    refine ⟨⟨h.area.congr (mapPage_mmap ..), ?_, ?_, ?_, h.rdmflg⟩, ?_⟩
    · exact (mapPage_symrgtbl ..).trans h.symrgtbl
    · dsimp only
      rw [mapPage_entry]
      exact hframes
    · dsimp only
      rw [mapPage_entry]
      exact hbacked
    · rw [mapPage_entry, pageIndex, Function.update_self]
      exact present_entrySetFpn _ _
  | noVictim hn hf => exact absurd hf (habsent hn)
  | lostVictim hn hf => exact absurd hf (habsent hn)
  | evict hn hf => exact absurd hf (habsent hn)

/-- A page that is present is found where its entry says. -/
theorem StandsFor.memphyRead_eq (h : StandsFor entry byte i c v) {addr : Addr}
    (hp : Present (c.mm.entry (pageIndex addr))) :
    memphyRead c.mram (frameAddr (c.mm.entry (pageIndex addr)) addr) =
      some (v.byte (cell addr)) := by
  have hp' : Present (Function.update entry i c.mm.entry i (pageIndex addr)) := by
    rwa [Function.update_self]
  have hlt := h.frames.frame_lt hp'
  rw [Function.update_self] at hlt
  have hbyte := h.backed.present i (pageIndex addr) (cell addr).2
    (frameAddr (c.mm.entry (pageIndex addr)) addr) hp' (by
      rw [Function.update_self]
      exact frameAddr_toNat _ _)
  have hcell : (pageIndex addr, (cell addr).2) = cell addr :=
    Prod.ext (Fin.ext (pageIndex_val addr)) rfl
  rw [Function.update_self, hcell] at hbyte
  rw [memphyRead_eq_some h.rdmflg (frameAddr_lt_maxsz hlt addr), hbyte]

variable (uninit) in
/-- An access that RAM serves finds a frame. -/
theorem pgGetpage_served {addr : Addr}
    (hs : ¬Present (c.mm.entry (pageIndex addr)) → ∃ f ∈ c.mram.freeFpList.head?, f.toNat < 2 ^ 13) :
    ∃ c', pgGetpage uninit c (addrPage addr) =
      (some (pagingFpn ((c'.mm.entry (pageIndex addr)).setWidth 32)), c') := by
  have hfound : (accessPage c.mm c.mram.freeFpList c.activeMswp.freeFpList
      (toAddr (addrPage addr))).1 = true := by
    refine accessPage_found ?_
    by_cases hp : Present (c.mm.entry (pageIndex addr))
    · exact Or.inl hp
    · obtain ⟨f, hf, _⟩ := hs hp
      refine Or.inr fun hnil => ?_
      rw [hnil] at hf
      cases hf
  have hres := (@pgGetpage_eq uninit c (addrPage addr)).1
  unfold accessResult at hres
  rw [if_pos hfound] at hres
  generalize hpg : pgGetpage uninit c (addrPage addr) = r at hres
  obtain ⟨o, c'⟩ := r
  obtain rfl : o = _ := hres
  obtain ⟨_, hfpn⟩ := pgGetpage_some hpg
  rw [hfpn]
  exact ⟨c', rfl⟩

variable (uninit) in
/-- Reading a byte delivers the byte of the abstract memory. -/
theorem StandsFor.read (h : StandsFor entry byte i c v) (hl : c.listed = true) {addr : Addr}
    (hs : ¬Present (c.mm.entry (pageIndex addr)) → ∃ f ∈ c.mram.freeFpList.head?, f.toNat < 2 ^ 13)
    (data : Byte) : (pgGetval uninit c addr data).2.1 = v.byte (cell addr) ∧
      StandsFor entry byte i (pgGetval uninit c addr data).2.2 v := by
  obtain ⟨hc', hp⟩ := h.access uninit hs
  refine ⟨?_, by rwa [pgGetval_snd]⟩
  have hlist := (pgGetpage_access uninit c (addrPage addr)).sameRegions.1.listed
  obtain ⟨c', hpg⟩ := pgGetpage_served uninit hs
  rw [hpg] at hc' hp hlist
  have hread := hc'.memphyRead_eq hp
  rw [pgGetval_eq, hpg]
  dsimp only at hlist ⊢
  rw [hlist, hl, if_pos rfl]
  unfold frameAddr at hread
  rw [hread]

variable (uninit) in
/-- Writing a byte changes that byte. -/
theorem StandsFor.write (h : StandsFor entry byte i c v) (hl : c.listed = true) {addr : Addr}
    (hs : ¬Present (c.mm.entry (pageIndex addr)) → ∃ f ∈ c.mram.freeFpList.head?, f.toNat < 2 ^ 13)
    (value : Byte) : StandsFor entry byte i (pgSetval uninit c addr value).2
      {v with byte := Function.update v.byte (cell addr) value} := by
  obtain ⟨hc', hp⟩ := h.access uninit hs
  have hlist := (pgGetpage_access uninit c (addrPage addr)).sameRegions.1.listed
  obtain ⟨c', hpg⟩ := pgGetpage_served uninit hs
  rw [hpg] at hc' hp hlist
  have hp' : Present (Function.update entry i c'.mm.entry i (pageIndex addr)) := by
    rwa [Function.update_self]
  have hlt := hc'.frames.frame_lt hp'
  rw [Function.update_self] at hlt
  have haddr : (frameAddr (c'.mm.entry (pageIndex addr)) addr).toNat = entryFrame
      (Function.update entry i c'.mm.entry i (pageIndex addr)) * 4096 + (cell addr).2 := by
    rw [Function.update_self]
    exact frameAddr_toNat _ _
  have hbacked := hc'.backed.write hc'.frames hp' haddr value
  have hcell : (pageIndex addr, (cell addr).2) = cell addr :=
    Prod.ext (Fin.ext (pageIndex_val addr)) rfl
  rw [Function.update_self, Function.update_idem, hcell] at hbacked
  rw [pgSetval_snd, hpg]
  dsimp only at hlist ⊢
  have hwrite := memphyWrite_eq_some hc'.rdmflg (frameAddr_lt_maxsz hlt addr) value
  unfold frameAddr at hwrite
  rw [if_pos (hlist.trans hl), hwrite]
  exact ⟨hc'.area, hc'.symrgtbl, hc'.frames, hbacked, hc'.rdmflg⟩

/-- A growth that RAM serves moves the break and clears its pages. -/
theorem StandsFor.grow (h : StandsFor entry byte i c v) {vmaid : CInt} {size : Addr} {g : Growth}
    (hg : growthOf c.mm vmaid size = some g)
    (hs : loopCount g.pages ≤ c.mram.freeFpList.length ∧
      ∀ f ∈ c.mram.freeFpList.take (loopCount g.pages), f.toNat < 2 ^ 13) :
    ∃ grown, v.grow size = some grown ∧
      StandsFor entry byte i (vmMapRam {c with mm := g.mm} g.start g.pages).2 grown := by
  obtain ⟨hlen, hfit⟩ := hs
  obtain ⟨hsame, htbl⟩ := growthOf_some hg
  have hregions := vmapPageRange_regions g.mm g.start (List.length_take_of_le hlen)
  have hframes := h.frames
  have hbacked := h.backed
  rw [← List.take_append_drop (loopCount g.pages) c.mram.freeFpList, ← hsame.entry]
    at hframes hbacked
  have hframes := hframes.vmapPageRange hfit g.start (List.length_take_of_le hlen)
  have hbacked := hbacked.vmapPageRange hfit g.start (List.length_take_of_le hlen)
  rw [vmMapRam_eq, if_pos hlen]
  rw [h.area.growthOf_eq] at hg
  obtain ⟨hn, ⟨⟩⟩ := Option.ite_none_left_eq_some.mp hg
  rw [not_or] at hn
  exact ⟨_, if_neg hn.2, h.area.of_setBreak hregions.1, hregions.2.trans h.symrgtbl, hframes,
    hbacked, h.rdmflg⟩

/-! ## One instruction -/

/-- The search for a free region changes the free list only. -/
theorem StandsFor.afterWalk (h : StandsFor entry byte i c v) (size : Addr) :
    StandsFor entry byte i {c with mm := afterWalk c.mm 0 size}
      {v with freergs := (getFreeVmrgArea v.freergs (toCInt size)).2} := by
  obtain ⟨hpaging, htbl⟩ := afterWalk_same c.mm 0 size
  have hm := h.area.afterWalk_mmap 0 size
  rw [if_neg (by decide)] at hm
  exact h.setRegions hpaging.entry hm (htbl.trans h.symrgtbl)

/-- A symbol gets a region. -/
theorem StandsFor.setSymrg (h : StandsFor entry byte i c v) (k : Fin 30) (rg : VmRg) :
    StandsFor entry byte i {c with mm := c.mm.setSymrg k rg} (v.setSymrg k rg) :=
  h.setRegions rfl h.area.single (congrArg (fun tbl : Fin 30 → VmRg => Function.update tbl k rg) h.symrgtbl)

/-- `__alloc` on the shared memory is an allocation on the abstract one. -/
theorem StandsFor.alloc (h : StandsFor entry byte i c v) (hl : c.listed = true) {rgid : CInt}
    {size : Addr} {o : Option Addr} {c' : ProcMem}
    (ha : alloc uninit c 0 rgid size = .ok (o, c'))
    (hs : ∀ g, foundRegion c.mm 0 size = none →
      growthOf (MemoryInstruction.afterWalk c.mm 0 size) 0 size = some g →
        loopCount g.pages ≤ c.mram.freeFpList.length ∧
          ∀ f ∈ c.mram.freeFpList.take (loopCount g.pages), f.toNat < 2 ^ 13) :
    ∃ v', v.alloc rgid size = .ok (if o.isNone then -1 else 0, v') ∧
      StandsFor entry byte i c' v' := by
  have hwalk := h.afterWalk size
  have hfound := h.area.foundRegion_eq 0 size
  rw [if_neg (by decide)] at hfound
  change _ = (getFreeVmrgArea v.freergs (toCInt size)).1 at hfound
  unfold VirtualMem.alloc
  dsimp only
  rw [← hfound]
  obtain ⟨rg, k, hf, hk, rfl, rfl⟩ | ⟨hf, hg, rfl, rfl⟩ | ⟨j, cur, g, k, hf, _, hv, hg, hk, rfl, rfl⟩ :=
    alloc_cases ha
  · rw [hf, hk]
    exact ⟨_, rfl, hwalk.setSymrg k rg⟩
  · have hg := hg.resolve_left (by rw [hl]; exact Bool.noConfusion)
    rw [hwalk.area.growthOf_eq] at hg
    have hzero := (ite_eq_left_iff.mp hg)
    rw [hf]
    refine ⟨_, ?_, hwalk⟩
    have hbreak : v.sbrk + paging64PageAlignsz size = 0 := by
      by_contra hne
      cases hzero fun hor => hor.elim (fun h0 => absurd h0 (by decide)) hne
    simp only [VirtualMem.grow]
    rw [if_pos hbreak]
    rfl
  · obtain ⟨grown, hgrow, hstands⟩ := hwalk.grow hg (hs g hf hg)
    have hcur : cur.sbrk = v.sbrk := by
      rw [h.area.getVmaByNum_eq, if_neg (by decide)] at hv
      cases hv
      rfl
    rw [hf, hgrow, hk, hcur]
    exact ⟨_, rfl, hstands.setSymrg k _⟩

/-- `__free` is a release. -/
theorem StandsFor.free (h : StandsFor entry byte i c v) {rgid : CInt} {n : Int} {c' : ProcMem}
    (hf : MemoryLibrary.free c rgid = .ok (n, c')) :
    ∃ v', v.free rgid = .ok (n, v') ∧ StandsFor entry byte i c' v' := by
  unfold MemoryLibrary.free at hf
  unfold VirtualMem.free getSymrgByid
  by_cases hid : (rgid.slt 0 || (BitVec.ofNat 32 pagingMaxSymtblSz).slt rgid) = true
  · rw [if_pos hid] at hf ⊢
    cases hf
    exact ⟨v, rfl, h⟩
  · rw [if_neg hid] at hf ⊢
    obtain ⟨k, hk, hf⟩ := ok_of_bind hf
    rw [hk]
    dsimp only at hf
    rw [h.symrgtbl] at hf
    by_cases hzero : (v.symrgtbl k).rgStart = 0 ∧ (v.symrgtbl k).rgEnd = 0
    · rw [if_pos hzero] at hf
      cases hf
      refine ⟨v, ?_, h⟩
      exact if_pos hzero
    · rw [if_neg hzero] at hf
      obtain ⟨r, hr, hf⟩ := ok_of_bind hf
      cases hf
      refine ⟨_, if_neg hzero, ?_⟩
      have hset := h.setSymrg k ⟨0, 0⟩
      unfold enlistVmFreergList at hr
      rw [MmStruct.setSymrg_mmap, h.area.single] at hr
      dsimp only at hr
      by_cases hempty : (v.symrgtbl k).rgEnd ≤ (v.symrgtbl k).rgStart
      · rw [if_pos hempty] at hr ⊢
        cases hr
        exact hset
      · rw [if_neg hempty] at hr ⊢
        cases hr
        exact hset.setRegions rfl rfl hset.symrgtbl

/-- The bounds check looks at the regions only. -/
theorem StandsFor.regionAddr_eq (h : StandsFor entry byte i c v) (rgid : CInt) (offset : Addr) :
    regionAddr c 0 rgid offset = v.regionAddr rgid offset := by
  unfold regionAddr VirtualMem.regionAddr
  rw [h.area.getVmaByNum_eq, if_neg (by decide), h.symrgtbl]
  cases getSymrgByid rgid <;> rfl

/-- The system call of a growth. -/
theorem StandsFor.inc (h : StandsFor entry byte i c v) {vmaid : CInt} {size : Addr}
    (hs : ∀ g, growthOf c.mm vmaid size = some g → loopCount g.pages ≤ c.mram.freeFpList.length ∧
      ∀ f ∈ c.mram.freeFpList.take (loopCount g.pages), f.toNat < 2 ^ 13) :
    ∃ v', (if (0 : CInt).slt vmaid then (-1, v) else
        match v.grow size with
        | none => (-1, v)
        | some grown => (0, grown)) = ((incVmaLimit c vmaid size).1, v') ∧
      StandsFor entry byte i (incVmaLimit c vmaid size).2 v' := by
  rw [incVmaLimit_eq]
  cases hg : growthOf c.mm vmaid size with
  | some g =>
    obtain ⟨grown, hgrow, hstands⟩ := h.grow hg (hs g hg)
    rw [h.area.growthOf_eq] at hg
    obtain ⟨hn, -⟩ := Option.ite_none_left_eq_some.mp hg
    rw [not_or] at hn
    rw [if_neg hn.1, hgrow]
    exact ⟨grown, rfl, hstands⟩
  | none =>
    refine ⟨v, ?_, h⟩
    rw [h.area.growthOf_eq] at hg
    by_cases hid : (0 : CInt).slt vmaid = true
    · exact if_pos hid
    · have hbreak : v.sbrk + paging64PageAlignsz size = 0 := by
        by_contra hne
        rw [if_neg fun hor => hor.elim hid hne] at hg
        cases hg
      rw [if_neg hid]
      unfold VirtualMem.grow
      rw [if_pos hbreak]

/-- The instruction is no operation of the system call on RAM or on the page table. -/
def Private (ins : Inst) : Prop :=
  ins.opcode = .syscall → toCInt ins.arg0 = 17 → toCInt ins.arg1 ≠ sysmemMapOp ∧
    toCInt ins.arg1 ≠ sysmemIoRead ∧ toCInt ins.arg1 ≠ sysmemIoWrite

/-- RAM has a frame for every page that the instruction needs, and the frame fits the
frame field. -/
def Served (c : ProcMem) (ins : Inst) : Prop :=
  (∀ g, instGrowth c ins = some g → loopCount g.pages ≤ c.mram.freeFpList.length ∧
    ∀ f ∈ c.mram.freeFpList.take (loopCount g.pages), f.toNat < 2 ^ 13) ∧
  ∀ a, instTouch c ins = some a → ¬Present (c.mm.entry (pageIndex a)) →
    ∃ f ∈ c.mram.freeFpList.head?, f.toNat < 2 ^ 13

variable (uninit) in
/-- The system call on the shared memory is the one on the abstract memory. -/
theorem StandsFor.syscall (h : StandsFor entry byte i c v) (hl : c.listed = true) {ins : Inst}
    (hop : ins.opcode = .syscall) (hp : Private ins) (hs : Served c ins) :
    ∃ v', v.syscall ins =
        ((libsyscall uninit c (toCInt ins.arg0) ins.arg1 ins.arg2 ins.arg3).1, v') ∧
      StandsFor entry byte i
        (libsyscall uninit c (toCInt ins.arg0) ins.arg1 ins.arg2 ins.arg3).2 v' := by
  unfold VirtualMem.syscall
  dsimp only [libsyscall, MemoryPaging.syscall]
  by_cases hnr : toCInt ins.arg0 = 17
  · obtain ⟨hmap, hread, hwrite⟩ := hp hop hnr
    rw [if_neg (not_not.mpr hnr), if_pos hnr]
    dsimp only [sysMemmap]
    have hlisted : ¬c.listed = false := by
      rw [hl]
      exact Bool.noConfusion
    rw [if_neg hlisted, if_neg hmap]
    by_cases hinc : toCInt ins.arg1 = sysmemIncOp
    · rw [if_pos hinc, if_pos hinc]
      refine h.inc fun g hg => hs.1 g ?_
      unfold instGrowth
      rw [hop]
      exact (if_pos ⟨hl, hnr, hinc⟩).trans hg
    · rw [if_neg hinc, if_neg hinc]
      by_cases hswp : toCInt ins.arg1 = sysmemSwpOp
      · rw [if_pos hswp, if_pos hswp]
        exact ⟨v, rfl, h.setSwap _⟩
      · rw [if_neg hswp, if_neg hswp, if_neg hread, if_neg hwrite]
        exact ⟨v, rfl, h⟩
  · rw [if_pos hnr, if_neg hnr]
    exact ⟨v, rfl, h⟩

/-- An instruction on the shared memory is the same instruction on the abstract memory of
its process. -/
theorem StandsFor.exec (h : StandsFor entry byte i c v) (hl : c.listed = true) {ins : Inst}
    (hp : Private ins) (hs : Served c ins) {n : Int} {d : Option UInt} {c' : ProcMem}
    (he : execInst uninit c ins = .ok (n, d, c')) :
    ∃ v', VirtualStep v ⟨ins, n, d⟩ v' ∧ StandsFor entry byte i c' v' := by
  unfold VirtualStep VirtualMem.exec
  dsimp only
  cases execInst_call he with
  | «calc» hop =>
    rw [hop]
    exact ⟨v, rfl, h⟩
  | alloc hop ha =>
    obtain ⟨v', hv, hstands⟩ := h.alloc hl ha fun g hf hg => hs.1 g (by
      unfold instGrowth
      rw [hop]
      exact (if_pos ⟨hl, hf⟩).trans hg)
    rw [hop]
    dsimp only
    rw [hv]
    exact ⟨v', rfl, hstands⟩
  | free hop hf =>
    obtain ⟨v', hv, hstands⟩ := h.free hf
    rw [hop]
    dsimp only
    rw [hv]
    exact ⟨v', rfl, hstands⟩
  | readRefused hop ha =>
    rw [h.regionAddr_eq] at ha
    rw [hop]
    dsimp only
    rw [ha]
    exact ⟨v, rfl, h⟩
  | read hop ha =>
    have htouch := instTouch_read hop ha
    obtain ⟨hbyte, hstands⟩ := h.read uninit hl (hs.2 _ htouch) (uninit ins.arg1)
    rw [h.regionAddr_eq] at ha
    rw [hop]
    dsimp only
    rw [ha, hbyte]
    exact ⟨v, rfl, hstands⟩
  | writeRefused hop ha =>
    rw [h.regionAddr_eq] at ha
    rw [hop]
    dsimp only
    rw [ha]
    exact ⟨v, rfl, h⟩
  | write hop ha =>
    have htouch := instTouch_write hop ha
    have hstands := h.write uninit hl (hs.2 _ htouch) (ins.arg0.setWidth 8)
    rw [h.regionAddr_eq] at ha
    rw [hop]
    dsimp only
    rw [ha]
    exact ⟨_, rfl, hstands⟩
  | syscall hop =>
    obtain ⟨v', hv, hstands⟩ := h.syscall uninit hl hop hp hs
    rw [hop]
    dsimp only
    rw [hv]
    exact ⟨v', rfl, hstands⟩

end StandsFor

/-! ## All processes -/

/-- The shared memory stands for one abstract memory of every process. -/
structure Represents (s : SharedMem ι) (v : ι → VirtualMem) : Prop where
  /-- The areas are the heaps. -/
  area : ∀ i, HeapArea (s.mm i) (v i).area
  /-- The regions are those of the symbols. -/
  symrgtbl : ∀ i, (s.mm i).symrgtbl = (v i).symrgtbl
  /-- Frames are owned exclusively. -/
  frames : s.Inv
  /-- The bytes lie in the frames. -/
  backed : Backed (fun i => (s.mm i).entry) s.mram.freeFpList s.mram.storage fun i => (v i).byte
  /-- RAM is a random-access device. -/
  rdmflg : s.mram.rdmflg = true

/-- An instruction of one process, with what it delivers. -/
def SharedExec (uninit : Addr → Byte) (s : SharedMem ι) (a : ι × Event) (s' : SharedMem ι) :
    Prop :=
  ∃ c', execInst uninit (s.view a.1 true) a.2.ins = .ok (a.2.status, a.2.word, c') ∧
    s' = s.store a.1 c'

/-- The instruction stays in the memory of its process, and RAM serves it. -/
def memSafe (s : SharedMem ι) (a : ι × Event) : Prop :=
  Private a.2.ins ∧ Served (s.view a.1 true) a.2.ins

omit [DecidableEq ι] in
/-- Fresh processes have empty memories. -/
theorem represents_boot {s : SharedMem ι} (h : SharedBoot s) (hr : s.mram.rdmflg = true) :
    Represents s fun _ => VirtualMem.init := by
  refine ⟨fun i => ?_, fun i => ?_, inv_of_sharedBoot h, ⟨fun i x low b hp => ?_, fun _ _ _ _ => rfl,
    fun f _ b _ => ?_⟩, hr⟩
  · rw [h.1 i]
    exact heapArea_initMm
  · rw [h.1 i]
    rfl
  · rw [h.1 i] at hp
    exact absurd hp not_present_zero
  · obtain ⟨size, flag, hm⟩ := h.2.1
    rw [hm, initMemphy_storage]

/-- What one process sees of the shared memory. -/
theorem Represents.view {s : SharedMem ι} {v : ι → VirtualMem} (h : Represents s v) (i : ι)
    (listed : Bool) : StandsFor (fun j => (s.mm j).entry) (fun j => (v j).byte) i
      (s.view i listed) (v i) := by
  refine ⟨h.area i, h.symrgtbl i, ?_, ?_, h.rdmflg⟩
  · rw [SharedMem.view, Function.update_eq_self]
    exact h.frames
  · rw [SharedMem.view, Function.update_eq_self, Function.update_eq_self]
    exact h.backed

/-- What one process leaves stands for its new memory; those of the others stay. -/
theorem Represents.store {s : SharedMem ι} {v : ι → VirtualMem} (h : Represents s v) {i : ι}
    {c' : ProcMem} {v' : VirtualMem}
    (hc : StandsFor (fun j => (s.mm j).entry) (fun j => (v j).byte) i c' v') :
    Represents (s.store i c') (Function.update v i v') := by
  have hself : (s.store i c').mm i = c'.mm := Function.update_self ..
  have hother : ∀ j, j ≠ i → (s.store i c').mm j = s.mm j := fun j hj =>
    Function.update_of_ne hj ..
  have hentry : (fun j => ((s.store i c').mm j).entry) =
      Function.update (fun j => (s.mm j).entry) i c'.mm.entry := by
    funext j
    by_cases hj : j = i
    · rw [hj, hself, Function.update_self]
    · rw [hother j hj, Function.update_of_ne hj]
  have hbyte : (fun j => (Function.update v i v' j).byte) =
      Function.update (fun j => (v j).byte) i v'.byte := by
    funext j
    by_cases hj : j = i
    · rw [hj, Function.update_self, Function.update_self]
    · rw [Function.update_of_ne hj, Function.update_of_ne hj]
  refine ⟨fun j => ?_, fun j => ?_, ?_, ?_, hc.rdmflg⟩
  · by_cases hj : j = i
    · rw [hj, hself, Function.update_self]
      exact hc.area
    · rw [hother j hj, Function.update_of_ne hj]
      exact h.area j
  · by_cases hj : j = i
    · rw [hj, hself, Function.update_self]
      exact hc.symrgtbl
    · rw [hother j hj, Function.update_of_ne hj]
      exact h.symrgtbl j
  · unfold SharedMem.Inv
    rw [hentry]
    exact hc.frames
  · rw [hentry, hbyte]
    exact hc.backed

/-- Shared memory simulates private memories, instruction by instruction. -/
theorem simulates_private : Simulates (Guarded memSafe (SharedExec uninit))
    (Interleaved VirtualStep) (fun a : ι × Event => [a]) Represents := by
  rintro s a s' v h ⟨⟨hp, hs⟩, c', he, rfl⟩
  obtain ⟨v', hstep, hc⟩ := (h.view a.1 true).exec rfl hp hs he
  exact ⟨_, .cons ⟨v', hstep, rfl⟩ (.nil _), h.store hc⟩

/-- In a whole run every process works on a memory of its own. -/
theorem run_private {s s' : SharedMem ι} {evs : List (ι × Event)} (hb : SharedBoot s)
    (hr : s.mram.rdmflg = true) (h : Run (Guarded memSafe (SharedExec uninit)) s evs s') :
    ∃ v, Represents s' v ∧ Run (Interleaved VirtualStep) (fun _ => VirtualMem.init) evs v := by
  obtain ⟨v, hrun, hv⟩ := simulates_private.run h (represents_boot hb hr)
  rw [List.flatMap_singleton'] at hrun
  exact ⟨v, hv, hrun⟩

/-- However the instructions of processes that share RAM interleave, each process runs as
it would on a memory of its own: every status and every word it gets is the one that
the abstract memory delivers, and what RAM holds in the end stands for these memories. -/
theorem shared_refines_private {s s' : SharedMem ι} {evs : List (ι × Event)} (hb : SharedBoot s)
    (hr : s.mram.rdmflg = true) (h : Run (Guarded memSafe (SharedExec uninit)) s evs s') :
    ∃ v : ι → VirtualMem, Represents s' v ∧
      ∀ i, Run VirtualStep VirtualMem.init (component i evs) (v i) := by
  obtain ⟨v, hv, hrun⟩ := run_private hb hr h
  exact ⟨v, hv, fun i => run_component hrun i⟩

omit [DecidableEq ι] in
/-- A present page holds the bytes of the abstract memory. -/
theorem Represents.storage_eq {s : SharedMem ι} {v : ι → VirtualMem} (h : Represents s v) {i : ι}
    {addr : Addr} (hp : Present ((s.mm i).entry (pageIndex addr))) :
    s.mram.storage (frameAddr ((s.mm i).entry (pageIndex addr)) addr) = (v i).byte (cell addr) := by
  have hbyte := h.backed.present i (pageIndex addr) (cell addr).2 _ hp (frameAddr_toNat _ _)
  have hcell : (pageIndex addr, (cell addr).2) = cell addr :=
    Prod.ext (Fin.ext (pageIndex_val addr)) rfl
  rwa [hcell] at hbyte

/-- As long as no instruction works on RAM or on the page table directly and RAM serves every
page that is needed, the statuses, the words, the regions and the bytes that a process gets
depend on its own instructions alone: not on the other processes and their number, on the
order in which instructions interleave, on the frames its pages have got, on the size of RAM
or on what uninitialised variables hold. -/
theorem results_independent {κ : Type*} [DecidableEq κ] {uninit₁ uninit₂ : Addr → Byte}
    {s s' : SharedMem ι} {t t' : SharedMem κ} {evs : List (ι × Event)} {fvs : List (κ × Event)}
    (hs : SharedBoot s) (ht : SharedBoot t) (hrs : s.mram.rdmflg = true)
    (hrt : t.mram.rdmflg = true)
    (h₁ : Run (Guarded memSafe (SharedExec uninit₁)) s evs s')
    (h₂ : Run (Guarded memSafe (SharedExec uninit₂)) t fvs t') {i : ι} {j : κ}
    (hins : (component i evs).map Event.ins = (component j fvs).map Event.ins) :
    component i evs = component j fvs ∧ (s'.mm i).symrgtbl = (t'.mm j).symrgtbl ∧
      (s'.mm i).mmap = (t'.mm j).mmap ∧
      ∀ addr, Present ((s'.mm i).entry (pageIndex addr)) →
        Present ((t'.mm j).entry (pageIndex addr)) →
          s'.mram.storage (frameAddr ((s'.mm i).entry (pageIndex addr)) addr) =
            t'.mram.storage (frameAddr ((t'.mm j).entry (pageIndex addr)) addr) := by
  obtain ⟨v, hv, hrun⟩ := run_private hs hrs h₁
  obtain ⟨w, hw, hrun'⟩ := run_private ht hrt h₂
  obtain ⟨hevs, hmem⟩ := determined_virtualStep.run_eq (run_component hrun i)
    (run_component hrun' j) hins
  refine ⟨hevs, ?_, ?_, fun addr hp hq => ?_⟩
  · rw [hv.symrgtbl, hw.symrgtbl, hmem]
  · rw [(hv.area i).single, (hw.area j).single, hmem]
  · rw [hv.storage_eq hp, hw.storage_eq hq, hmem]

/-! ## Two interleavings of two processes -/

instance (ins : Inst) : Decidable (Private ins) :=
  inferInstanceAs (Decidable (_ → _ → _))

instance (c : ProcMem) (ins : Inst) : Decidable (Served c ins) :=
  haveI (l : List Addr) : Decidable (∀ f ∈ l, f.toNat < 2 ^ 13) := List.decidableBAll _ l
  haveI (o : Option Addr) : Decidable (∃ f ∈ o, f.toNat < 2 ^ 13) :=
    match o with
    | none => isFalse fun ⟨_, hf, _⟩ => nomatch hf
    | some f => decidable_of_iff (f.toNat < 2 ^ 13)
        ⟨fun h => ⟨f, rfl, h⟩, fun ⟨_, hg, h⟩ => Option.some.inj hg ▸ h⟩
  haveI : Decidable (∀ g, instGrowth c ins = some g →
      loopCount g.pages ≤ c.mram.freeFpList.length ∧
        ∀ f ∈ c.mram.freeFpList.take (loopCount g.pages), f.toNat < 2 ^ 13) :=
    decidableForallSome _ _
  haveI : Decidable (∀ a, instTouch c ins = some a → ¬Present (c.mm.entry (pageIndex a)) →
      ∃ f ∈ c.mram.freeFpList.head?, f.toNat < 2 ^ 13) := decidableForallSome _ _
  inferInstanceAs (Decidable (_ ∧ _))

instance (s : SharedMem ι) (a : ι × Event) : Decidable (memSafe s a) :=
  inferInstanceAs (Decidable (_ ∧ _))

/-- The shared memory after an instruction, if it delivers what is expected. -/
def sharedExecNext (uninit : Addr → Byte) (s : SharedMem ι) (a : ι × Event) :
    Option (SharedMem ι) :=
  match execInst uninit (s.view a.1 true) a.2.ins with
  | .error _ => none
  | .ok r => if r.1 = a.2.status ∧ r.2.1 = a.2.word then some (s.store a.1 r.2.2) else none

theorem sharedExec_of_sharedExecNext (uninit : Addr → Byte) (s : SharedMem ι) (a : ι × Event)
    (s' : SharedMem ι) (h : sharedExecNext uninit s a = some s') : SharedExec uninit s a s' := by
  unfold sharedExecNext at h
  split at h
  · cases h
  · next r hr =>
    obtain ⟨n, d, c'⟩ := r
    obtain ⟨⟨hn, hd⟩, ⟨⟩⟩ := Option.ite_none_right_eq_some.mp h
    dsimp only at hn hd
    rw [hn, hd] at hr
    exact ⟨c', hr, rfl⟩

/-- Two processes that allocate, write and read in turns. -/
def inTurns : List (Fin 2 × Event) :=
  [(⟨0, Nat.two_pos⟩, ⟨⟨.alloc, 300, 0, 0, 0⟩, 0, none⟩),
    (⟨1, Nat.one_lt_two⟩, ⟨⟨.alloc, 5000, 0, 0, 0⟩, 0, none⟩),
    (⟨0, Nat.two_pos⟩, ⟨⟨.write, 7, 0, 20, 0⟩, 0, none⟩),
    (⟨1, Nat.one_lt_two⟩, ⟨⟨.write, 9, 0, 4116, 0⟩, 0, none⟩),
    (⟨0, Nat.two_pos⟩, ⟨⟨.read, 0, 20, 0, 0⟩, 0, some 7⟩),
    (⟨1, Nat.one_lt_two⟩, ⟨⟨.read, 0, 20, 0, 0⟩, 0, some 0⟩)]

/-- The instructions of process 0 behind those of process 1. -/
def oneByOne : List (Fin 2 × Event) :=
  [(⟨1, Nat.one_lt_two⟩, ⟨⟨.alloc, 9000, 0, 0, 0⟩, 0, none⟩),
    (⟨1, Nat.one_lt_two⟩, ⟨⟨.write, 5, 0, 20, 0⟩, 0, none⟩),
    (⟨0, Nat.two_pos⟩, ⟨⟨.alloc, 300, 0, 0, 0⟩, 0, none⟩),
    (⟨0, Nat.two_pos⟩, ⟨⟨.write, 7, 0, 20, 0⟩, 0, none⟩),
    (⟨0, Nat.two_pos⟩, ⟨⟨.read, 0, 20, 0, 0⟩, 0, some 7⟩)]

/-- Two processes can take turns in a RAM of four frames. -/
theorem run_inTurns : ∃ s', Run (Guarded memSafe (SharedExec fun _ => 0)) (sharedStart 16384 0)
    inTurns s' := by
  obtain ⟨s', hrun, _⟩ := exists_run_of_map memSafe (sharedExec_of_sharedExecNext fun _ => 0)
    (sharedStart 16384 0) inTurns (fun _ => ()) () rfl
  exact ⟨s', hrun⟩

/-- Two processes can run one behind the other in a RAM of eight frames. -/
theorem run_oneByOne : ∃ s', Run (Guarded memSafe (SharedExec fun _ => 1)) (sharedStart 32768 0)
    oneByOne s' := by
  obtain ⟨s', hrun, _⟩ := exists_run_of_map memSafe (sharedExec_of_sharedExecNext fun _ => 1)
    (sharedStart 32768 0) oneByOne (fun _ => ()) () rfl
  exact ⟨s', hrun⟩

/-- Each of the two runs on a memory of its own. -/
theorem shared_refines_private_inTurns : ∃ (s' : SharedMem (Fin 2)) (v : Fin 2 → VirtualMem),
    Represents s' v ∧ ∀ i, Run VirtualStep VirtualMem.init (component i inTurns) (v i) := by
  obtain ⟨s', hrun⟩ := run_inTurns
  exact ⟨s', shared_refines_private (sharedBoot_sharedStart _ _) rfl hrun⟩

/-- Process 0 gets the same when it takes turns with the other one and when it runs before
it. -/
theorem results_independent_inTurns : ∃ s' t' : SharedMem (Fin 2),
    component 0 inTurns = component 0 oneByOne ∧
      (s'.mm 0).symrgtbl = (t'.mm 0).symrgtbl ∧ (s'.mm 0).mmap = (t'.mm 0).mmap := by
  obtain ⟨s', hrun⟩ := run_inTurns
  obtain ⟨t', hrun'⟩ := run_oneByOne
  obtain ⟨hevs, htbl, hmmap, _⟩ := results_independent (i := 0) (j := 0)
    (sharedBoot_sharedStart _ _) (sharedBoot_sharedStart _ _) rfl rfl hrun hrun' rfl
  exact ⟨s', t', hevs, htbl, hmmap⟩

end OsSim.VirtualMemory
