import OsSim.LinkedHeap
import OsSim.MemoryMapping

/-!
# The constructors of the free lists

`MEMPHY_format` and `init_mm` build their lists by hand, in nodes that `malloc` leaves as
they were. Here the lists are pointers into a heap with arbitrary contents. The head of
the frame list is chained outside of the loop, and its link is only written when a second
frame follows; the head pointer of the region list is read before it is ever written.
-/

namespace OsSim.MemoryConstructors

open MemoryWords MemoryPageTable LinkedHeap

/-! ## The frame list of a device -/

/-- `struct memphy_struct` with `free_fp_list` as the pointer it is. -/
structure MemphyCell where
  /-- The byte array. -/
  storage : Addr → Byte
  /-- Device size in bytes. -/
  maxsz : Addr
  /-- Random access when true. -/
  rdmflg : Bool
  /-- Position of a sequential device. -/
  cursor : CInt
  /-- The first node of the free frames. -/
  freeFpList : Option ℕ

/-- One turn of the loop of `MEMPHY_format`: the new last node and the heap. -/
def formatStep (iter fst : ℕ) (h : Heap Addr) : ℕ × Heap Addr :=
  let newfst := h.malloc.1
  let h := h.malloc.2.setValue newfst (toAddr (BitVec.ofNat 32 iter))
  let h := h.setNext newfst none
  (newfst, h.setNext fst (some newfst))

/-- The loop of `MEMPHY_format`, with so many turns left. -/
def formatLoop : ℕ → ℕ → ℕ → Heap Addr → Heap Addr
  | 0, _, _, h => h
  | n + 1, iter, fst, h => formatLoop n (iter + 1) (formatStep iter fst h).1
      (formatStep iter fst h).2

/-- `MEMPHY_format`. Of the first node only the frame number is written here. -/
def memphyFormat (mp : MemphyCell) (pagesz : CInt) (h : Heap Addr) : MemphyCell × Heap Addr :=
  let numfp := MemoryDevice.formatNumfp mp.maxsz pagesz
  if numfp.sle 0 then (mp, h)
  else
    let fst := h.malloc.1
    let h := h.malloc.2.setValue fst (toAddr 0)
    ({mp with freeFpList := some fst}, formatLoop (loopCount numfp - 1) 1 fst h)

/-- `init_memphy`, for the bytes that `malloc` returns; the device was any memory too. -/
def initMemphy (mp : MemphyCell) (bytes : Addr → Byte) (maxSize : Addr) (randomflg : Bool)
    (h : Heap Addr) : MemphyCell × Heap Addr :=
  let mp := {mp with storage := bytes, maxsz := maxSize, freeFpList := none}
  let mp := {mp with storage := fun a => if a < maxSize then 0 else bytes a}
  let r := memphyFormat mp (BitVec.ofNat 32 paging64Pagesz) h
  let mp := {r.1 with rdmflg := randomflg}
  (if mp.rdmflg = false then {mp with cursor := 0} else mp, r.2)

/-- `MEMPHY_get_freefp`: the frame, or -1, with the device and the heap. -/
def memphyGetFreefp (left : ℕ → Node Addr) (mp : MemphyCell) (h : Heap Addr) :
    Option Addr × MemphyCell × Heap Addr :=
  match mp.freeFpList with
  | none => (none, mp, h)
  | some fp =>
    (some (h.cell fp).value, {mp with freeFpList := (h.cell fp).next}, h.free left fp)

/-- The answers of so many calls of `MEMPHY_get_freefp` in a row. -/
def getFreefps (left : ℕ → Node Addr) : ℕ → MemphyCell → Heap Addr → List (Option Addr)
  | 0, _, _ => []
  | n + 1, mp, h =>
    let r := memphyGetFreefp left mp h
    r.1 :: getFreefps left n r.2.1 r.2.2

/-! ## The region list of an area -/

/-- `struct vm_area_struct` with `vm_freerg_list` as the pointer it is. -/
structure VmAreaCell where
  /-- Identifier. -/
  vmId : Addr
  /-- First address of the area. -/
  vmStart : Addr
  /-- First address past the area. -/
  vmEnd : Addr
  /-- Break of the area. -/
  sbrk : Addr
  /-- The first node of the free regions. -/
  vmFreergList : Option ℕ

/-- `init_vm_rg`. -/
def initVmRg (rgStart rgEnd : Addr) (h : Heap VmRg) : ℕ × Heap VmRg :=
  let rgnode := h.malloc.1
  (rgnode, (h.malloc.2.setValue rgnode ⟨rgStart, rgEnd⟩).setNext rgnode none)

/-- `enlist_vm_rg_node`: the new head pointer and the heap. -/
def enlistVmRgNode (rglist : Option ℕ) (rgnode : ℕ) (h : Heap VmRg) :
    Option ℕ × Heap VmRg :=
  (some rgnode, h.setNext rgnode rglist)

/-- What `init_mm` does with the fresh area `vma0` and its region list. -/
def initMm (vma0 : VmAreaCell) (h : Heap VmRg) : VmAreaCell × Heap VmRg :=
  let vma0 := {vma0 with vmId := 0, vmStart := 0}
  let vma0 := {vma0 with vmEnd := vma0.vmStart, sbrk := vma0.vmStart}
  let firstRg := initVmRg vma0.vmStart vma0.vmEnd h
  let r := enlistVmRgNode vma0.vmFreergList firstRg.1 firstRg.2
  ({vma0 with vmFreergList := r.1}, r.2)

/-! ## The loop -/

/-- The next turn starts from the new node. -/
theorem formatLoop_succ (n iter fst : ℕ) (h : Heap Addr) : formatLoop (n + 1) iter fst h =
    formatLoop n (iter + 1) h.top (formatStep iter fst h).2 := rfl

@[simp] theorem formatStep_top (iter fst : ℕ) (h : Heap Addr) :
    (formatStep iter fst h).2.top = h.top + 1 := rfl

/-- The new node is filled in and ends the list. -/
theorem formatStep_new (iter : ℕ) {fst : ℕ} {h : Heap Addr} (hf : fst < h.top) :
    (formatStep iter fst h).2.cell h.top = ⟨toAddr (BitVec.ofNat 32 iter), none⟩ := by
  have hne : h.top ≠ fst := Nat.ne_of_gt hf
  unfold formatStep Heap.malloc
  dsimp only
  rw [setNext_of_ne _ hne, setNext_self, setValue_self]

/-- The last node so far is linked to the new one. -/
theorem formatStep_old (iter : ℕ) {fst : ℕ} {h : Heap Addr} (hf : fst < h.top) :
    (formatStep iter fst h).2.cell fst = ⟨(h.cell fst).value, some h.top⟩ := by
  have hne : fst ≠ h.top := Nat.ne_of_lt hf
  unfold formatStep Heap.malloc
  rw [setNext_self]
  dsimp only
  rw [setNext_of_ne _ hne, setValue_of_ne _ hne]

/-- A turn of the loop of `MEMPHY_format` writes to no node but the last one and the new
one. -/
theorem formatStep_of_ne (iter : ℕ) {fst a : ℕ} {h : Heap Addr} (ha : a < h.top)
    (hne : a ≠ fst) : (formatStep iter fst h).2.cell a = h.cell a := by
  have hn : a ≠ h.top := Nat.ne_of_lt ha
  unfold formatStep Heap.malloc
  dsimp only
  rw [setNext_of_ne _ hne, setNext_of_ne _ hn, setValue_of_ne _ hn]

/-- The loop allocates one node in each turn. -/
theorem formatLoop_top (n iter fst : ℕ) (h : Heap Addr) :
    (formatLoop n iter fst h).top = h.top + n := by
  induction n generalizing iter fst h with
  | zero => rfl
  | succ n ih =>
    rw [formatLoop_succ, ih, formatStep_top]
    omega

/-- The loop writes to no node before the one it starts from. -/
theorem formatLoop_of_ne (n iter : ℕ) {fst a : ℕ} {h : Heap Addr} (ha : a < h.top)
    (hne : a ≠ fst) : (formatLoop n iter fst h).cell a = h.cell a := by
  induction n generalizing iter fst h with
  | zero => rfl
  | succ n ih =>
    have hlt : a < (formatStep iter fst h).2.top := Nat.lt_succ_of_lt ha
    rw [formatLoop_succ, ih (iter + 1) hlt (Nat.ne_of_lt ha), formatStep_of_ne iter ha hne]

/-- The loop keeps the frame number of the node it starts from, and the link of it if it
makes no turn. -/
theorem formatLoop_old (n iter : ℕ) {fst : ℕ} {h : Heap Addr} (hf : fst < h.top) :
    (formatLoop n iter fst h).cell fst =
      ⟨(h.cell fst).value, if n = 0 then (h.cell fst).next else some h.top⟩ := by
  cases n with
  | zero => rfl
  | succ n =>
    have hlt : fst < (formatStep iter fst h).2.top := Nat.lt_succ_of_lt hf
    rw [formatLoop_succ, formatLoop_of_ne n (iter + 1) hlt (Nat.ne_of_lt hf),
      formatStep_old iter hf, if_neg (Nat.succ_ne_zero n)]

/-- The loop chains its nodes in the order of their addresses, behind the one it starts
from. -/
theorem formatLoop_path (n iter : ℕ) {fst : ℕ} {h : Heap Addr} (hf : fst < h.top) :
    Path (formatLoop n iter fst h).cell (some fst) (fst :: List.range' h.top n)
      (if n = 0 then (h.cell fst).next else none) := by
  induction n generalizing iter fst h with
  | zero => exact ⟨rfl, rfl⟩
  | succ n ih =>
    have hnew : h.top < (formatStep iter fst h).2.top := Nat.lt_succ_self _
    have hrest := ih (iter + 1) hnew
    rw [formatStep_new iter hf, ite_self] at hrest
    refine ⟨rfl, ?_⟩
    rw [formatLoop_old (n + 1) iter hf, if_neg (Nat.succ_ne_zero n),
      if_neg (Nat.succ_ne_zero n)]
    exact hrest

/-- The nodes of the loop hold the numbers that the loop counts. -/
theorem formatLoop_values (n iter : ℕ) {fst : ℕ} {h : Heap Addr} (hf : fst < h.top) :
    (List.range' h.top n).map (fun a => ((formatLoop n iter fst h).cell a).value) =
      (List.range' iter n).map (fun i => toAddr (BitVec.ofNat 32 i)) := by
  induction n generalizing iter fst h with
  | zero => rfl
  | succ n ih =>
    have hnew : h.top < (formatStep iter fst h).2.top := Nat.lt_succ_self _
    have hrest := ih (iter + 1) hnew
    rw [List.range'_succ, List.range'_succ, List.map_cons, List.map_cons, formatLoop_succ,
      formatLoop_old n (iter + 1) hnew, formatStep_new iter hf]
    exact congrArg _ hrest

/-! ## The frame list -/

/-- The numbers that the format loop writes. -/
def frameNumbers (n : ℕ) : List Addr := (List.range n).map (BitVec.ofNat 64)

/-- A count below the sign bit is written as it is. -/
theorem toAddr_ofNat {i : ℕ} (hi : i < 2 ^ 31) :
    toAddr (BitVec.ofNat 32 i) = BitVec.ofNat 64 i := by
  apply BitVec.eq_of_toNat_eq
  have hn : (BitVec.ofNat 32 i).toNat = i := by
    rw [BitVec.toNat_ofNat]
    omega
  unfold toAddr
  rw [BitVec.signExtend_eq_setWidth_of_msb_false (BitVec.msb_eq_false_iff_two_mul_lt.mpr
    (by omega)), BitVec.toNat_setWidth, hn, BitVec.toNat_ofNat]

/-- The frame numbers of fewer than `2 ^ 31` frames count up. -/
theorem frameNumbers_toNat {n : ℕ} (hn : n < 2 ^ 31) :
    (frameNumbers n).map BitVec.toNat = List.range n := by
  unfold frameNumbers
  rw [List.map_map]
  conv_rhs => rw [← List.map_id (List.range n)]
  refine List.map_congr_left fun i hi => ?_
  have hi' := List.mem_range.mp hi
  simp only [Function.comp_apply, BitVec.toNat_ofNat, id_eq]
  omega

/-- The turns of the loop, for a frame count that an `int` holds. -/
theorem loopCount_formatNumfp {maxsz : Addr} (hn : maxsz.toNat / paging64Pagesz < 2 ^ 31) :
    loopCount (MemoryDevice.formatNumfp maxsz (BitVec.ofNat 32 paging64Pagesz)) =
      maxsz.toNat / paging64Pagesz := by
  have hp : toAddr (BitVec.ofNat 32 paging64Pagesz) = 4096#64 := by decide
  unfold loopCount MemoryDevice.formatNumfp toCInt
  have hv : (BitVec.setWidth 32 (maxsz / 4096#64)).toNat = maxsz.toNat / paging64Pagesz := by
    rw [BitVec.toNat_setWidth, BitVec.toNat_udiv]
    exact Nat.mod_eq_of_lt (hn.trans (by decide))
  rw [hp, BitVec.toInt_eq_toNat_cond, hv, if_pos (by omega), Int.toNat_natCast]

/-- A count that is not positive makes no turn. -/
theorem loopCount_of_sle {n : CInt} (hn : n.sle 0) : loopCount n = 0 := by
  have hzero : (0 : CInt).toInt = 0 := by decide
  rw [BitVec.sle_iff_toInt_le, hzero] at hn
  unfold loopCount
  omega

/-- A positive count makes at least one. -/
theorem loopCount_pos {n : CInt} (hn : ¬n.sle 0) : 0 < loopCount n := by
  have hzero : (0 : CInt).toInt = 0 := by decide
  rw [BitVec.sle_iff_toInt_le, hzero] at hn
  unfold loopCount
  omega

/-- A format allocates a node for every frame of its count. -/
theorem memphyFormat_top (mp : MemphyCell) (pagesz : CInt) (h : Heap Addr) :
    (memphyFormat mp pagesz h).2.top =
      h.top + loopCount (MemoryDevice.formatNumfp mp.maxsz pagesz) := by
  dsimp only [memphyFormat]
  split
  · next hle => rw [loopCount_of_sle hle, Nat.add_zero]
  · next hle =>
    have hpos := loopCount_pos hle
    rw [formatLoop_top, setValue_top]
    dsimp only [Heap.malloc]
    omega

/-- The list of a format of at least one frame is null terminated, unless it is a single
node: that one ends as its memory did. -/
theorem memphyFormat_path (mp : MemphyCell) (pagesz : CInt) (h : Heap Addr)
    (hpos : ¬(MemoryDevice.formatNumfp mp.maxsz pagesz).sle 0) :
    let n := loopCount (MemoryDevice.formatNumfp mp.maxsz pagesz)
    let r := memphyFormat mp pagesz h
    Path r.2.cell r.1.freeFpList (List.range' h.top n)
        (if n = 1 then (h.cell h.top).next else none) ∧
      (List.range' h.top n).map (fun a => (r.2.cell a).value) = frameNumbers n := by
  obtain ⟨n, hn⟩ := Nat.exists_eq_succ_of_ne_zero (Nat.ne_of_gt (loopCount_pos hpos))
  have hlt := MemoryDevice.loopCount_lt (MemoryDevice.formatNumfp mp.maxsz pagesz)
  rw [hn] at hlt
  dsimp only [memphyFormat]
  rw [if_neg hpos, hn]
  dsimp only [Heap.malloc, Nat.succ_eq_add_one]
  rw [Nat.add_sub_cancel]
  set h' : Heap Addr := Heap.setValue {h with top := h.top + 1} h.top (toAddr 0) with hh
  have hf : h.top < h'.top := Nat.lt_succ_self _
  have hcell : h'.cell h.top = ⟨toAddr 0, (h.cell h.top).next⟩ := by
    rw [hh, setValue_self]
  have hpath := formatLoop_path n 1 hf
  have hvals := formatLoop_values n 1 hf
  rw [hcell] at hpath
  constructor
  · rw [List.range'_succ]
    simp only [Nat.add_eq_right]
    exact hpath
  · rw [List.range'_succ, List.map_cons, formatLoop_old n 1 hf, hcell]
    unfold frameNumbers
    rw [List.range_eq_range', List.range'_succ, List.map_cons]
    refine congrArg₂ List.cons rfl (hvals.trans ?_)
    refine List.map_congr_left fun i hi => toAddr_ofNat ?_
    rw [List.mem_range'_1] at hi
    omega

/-- With its last link null, the list of a format is the list of its frame numbers. -/
theorem memphyFormat_lists (mp : MemphyCell) (pagesz : CInt) (h : Heap Addr)
    (hmp : mp.freeFpList = none)
    (hlast : loopCount (MemoryDevice.formatNumfp mp.maxsz pagesz) = 1 →
      (h.cell h.top).next = none) :
    Lists (memphyFormat mp pagesz h).2.cell h.top (memphyFormat mp pagesz h).2.top
      (memphyFormat mp pagesz h).1.freeFpList
      (frameNumbers (loopCount (MemoryDevice.formatNumfp mp.maxsz pagesz))) := by
  by_cases hle : (MemoryDevice.formatNumfp mp.maxsz pagesz).sle 0
  · dsimp only [memphyFormat]
    rw [if_pos hle, loopCount_of_sle hle]
    exact lists_nil.mpr hmp
  · have hpath := memphyFormat_path mp pagesz h hle
    dsimp only at hpath
    rw [ite_eq_right_iff.mpr hlast] at hpath
    refine ⟨_, hpath.1, hpath.2, fun a ha => ?_⟩
    rw [memphyFormat_top]
    exact List.mem_range'_1.mp ha

/-- A single frame is listed only if its node came with a null link, for it ends as its
memory did. -/
theorem next_of_memphyFormat_lists (mp : MemphyCell) (pagesz : CInt) (h : Heap Addr)
    (hone : loopCount (MemoryDevice.formatNumfp mp.maxsz pagesz) = 1) {f : Addr}
    (hl : Lists (memphyFormat mp pagesz h).2.cell h.top (memphyFormat mp pagesz h).2.top
      (memphyFormat mp pagesz h).1.freeFpList [f]) : (h.cell h.top).next = none := by
  have hpos : ¬(MemoryDevice.formatNumfp mp.maxsz pagesz).sle 0 := fun hle =>
    Nat.zero_ne_one ((loopCount_of_sle hle).symm.trans hone)
  have hpath := (memphyFormat_path mp pagesz h hpos).1
  rw [memphyFormat_top, hone] at hl
  rw [hone, if_pos rfl] at hpath
  have hhead : (memphyFormat mp pagesz h).1.freeFpList = some h.top := hpath.1
  have hnext : ((memphyFormat mp pagesz h).2.cell h.top).next = (h.cell h.top).next := hpath.2
  rw [hhead, lists_singleton (le_refl _) (Nat.lt_succ_self _)] at hl
  rw [← hnext, hl]

/-- A format writes to no other field of the device than its list. -/
theorem memphyFormat_frame (mp : MemphyCell) (pagesz : CInt) (h : Heap Addr) :
    (memphyFormat mp pagesz h).1.storage = mp.storage ∧
      (memphyFormat mp pagesz h).1.maxsz = mp.maxsz := by
  dsimp only [memphyFormat]
  split <;> exact ⟨rfl, rfl⟩

/-- The fields of a fresh device besides its list. -/
theorem initMemphy_frame (mp : MemphyCell) (bytes : Addr → Byte) (maxSize : Addr)
    (randomflg : Bool) (h : Heap Addr) :
    (∀ a < maxSize, (initMemphy mp bytes maxSize randomflg h).1.storage a = 0) ∧
      (initMemphy mp bytes maxSize randomflg h).1.maxsz = maxSize ∧
      (initMemphy mp bytes maxSize randomflg h).1.rdmflg = randomflg := by
  dsimp only [initMemphy]
  split
  all_goals
    dsimp only
    rw [(memphyFormat_frame _ _ _).1, (memphyFormat_frame _ _ _).2]
    exact ⟨fun a ha => if_pos ha, rfl, rfl⟩

/-- `init_memphy` leaves the list of its format. -/
theorem initMemphy_eq (mp : MemphyCell) (bytes : Addr → Byte) (maxSize : Addr)
    (randomflg : Bool) (h : Heap Addr) :
    ∃ mp' : MemphyCell, mp'.maxsz = maxSize ∧ mp'.freeFpList = none ∧
      (initMemphy mp bytes maxSize randomflg h).2 =
        (memphyFormat mp' (BitVec.ofNat 32 paging64Pagesz) h).2 ∧
      (initMemphy mp bytes maxSize randomflg h).1.freeFpList =
        (memphyFormat mp' (BitVec.ofNat 32 paging64Pagesz) h).1.freeFpList := by
  refine ⟨{mp with
    storage := fun a => if a < maxSize then 0 else bytes a
    maxsz := maxSize
    freeFpList := none}, rfl, rfl, rfl, ?_⟩
  dsimp only [initMemphy]
  split <;> rfl

/-- A list gives out its values in order, and then none. -/
theorem getFreefps_of_lists (left : ℕ → Node Addr) (n : ℕ) {mp : MemphyCell} {h : Heap Addr}
    {lo hi : ℕ} {frames : List Addr} (hl : Lists h.cell lo hi mp.freeFpList frames) :
    getFreefps left n mp h = (frames.map some ++ List.replicate n none).take n := by
  induction n generalizing mp h frames with
  | zero => rw [List.take_zero, getFreefps]
  | succ n ih =>
    cases frames with
    | nil =>
      have hnull := lists_nil.mp hl
      have hget : memphyGetFreefp left mp h = (none, mp, h) := by
        unfold memphyGetFreefp
        rw [hnull]
      rw [getFreefps, hget]
      dsimp only
      rw [ih hl]
      simp [List.replicate_succ]
    | cons f frames =>
      obtain ⟨a, hhead, hvalue, hrest⟩ := lists_cons hl
      have hget : memphyGetFreefp left mp h =
          (some f, {mp with freeFpList := (h.cell a).next}, h.free left a) := by
        unfold memphyGetFreefp
        rw [hhead, ← hvalue]
      rw [getFreefps, hget]
      dsimp only
      rw [ih (hrest _ fun b hb => Function.update_of_ne hb _ _), List.map_cons,
        List.cons_append, List.take_succ_cons, List.replicate_succ', ← List.append_assoc]
      -- the last of the failing calls is not needed behind a frame
      have hlen : n ≤ (frames.map some ++ List.replicate n none).length := by
        rw [List.length_append, List.length_replicate]
        exact Nat.le_add_left _ _
      rw [List.take_append_of_le_length hlen]

/-! ## Lists instead of pointers -/

/-- A device of pointers that holds the frames of a device of lists. -/
structure Represents (lo : ℕ) (mp : MemphyCell) (h : Heap Addr)
    (mp' : MemoryDevice.MemphyStruct) : Prop where
  /-- The storage is the same where it can be accessed. -/
  storage : ∀ a < mp'.maxsz, mp.storage a = mp'.storage a
  /-- The sizes agree. -/
  maxsz : mp.maxsz = mp'.maxsz
  /-- The access modes agree. -/
  rdmflg : mp.rdmflg = mp'.rdmflg
  /-- The pointer leads through the frames of the list. -/
  freeFpList : Lists h.cell lo h.top mp.freeFpList mp'.freeFpList

/-- The frames of a fresh device of lists. -/
theorem initMemphy_frameNumbers (maxSize : Addr) (randomflg : Bool) :
    (MemoryDevice.initMemphy maxSize randomflg).freeFpList = frameNumbers (loopCount
      (MemoryDevice.formatNumfp maxSize (BitVec.ofNat 32 paging64Pagesz))) := by
  dsimp only [MemoryDevice.initMemphy, MemoryDevice.memphyFormat]
  split
  · next hle =>
    rw [loopCount_of_sle hle]
    rfl
  · rfl

/-- Where the memory of a single node reads as zero, `init_memphy` is the constructor of
the device of lists. -/
theorem represents_initMemphy (mp : MemphyCell) (bytes : Addr → Byte) (maxSize : Addr)
    (randomflg : Bool) (h : Heap Addr) (hlast : (h.cell h.top).next = none) :
    Represents h.top (initMemphy mp bytes maxSize randomflg h).1
      (initMemphy mp bytes maxSize randomflg h).2
      (MemoryDevice.initMemphy maxSize randomflg) := by
  obtain ⟨mp', hsize, hnull, hheap, hhead⟩ := initMemphy_eq mp bytes maxSize randomflg h
  have hl := memphyFormat_lists mp' (BitVec.ofNat 32 paging64Pagesz) h hnull fun _ => hlast
  rw [← hheap, ← hhead, hsize, ← initMemphy_frameNumbers maxSize randomflg] at hl
  obtain ⟨hbytes, hmax, hflag⟩ := initMemphy_frame mp bytes maxSize randomflg h
  refine ⟨fun a ha => ?_, ?_, ?_, hl⟩
  · rw [MemoryDevice.initMemphy_maxsz] at ha
    rw [hbytes a ha, MemoryDevice.initMemphy_storage]
  · rw [hmax, MemoryDevice.initMemphy_maxsz]
  · rw [hflag, MemoryDevice.initMemphy_rdmflg]

/-- `MEMPHY_get_freefp` takes the same frame from both devices, or none. -/
theorem represents_getFreefp {lo : ℕ} {mp : MemphyCell} {h : Heap Addr}
    {mp' : MemoryDevice.MemphyStruct} (hr : Represents lo mp h mp')
    (left : ℕ → Node Addr) :
    (memphyGetFreefp left mp h).1 = (MemoryDevice.memphyGetFreefp mp').map Prod.fst ∧
      Represents lo (memphyGetFreefp left mp h).2.1 (memphyGetFreefp left mp h).2.2
        ((MemoryDevice.memphyGetFreefp mp').elim mp' Prod.snd) := by
  have hl := hr.freeFpList
  cases hfree : mp'.freeFpList with
  | nil =>
    rw [hfree] at hl
    have hget := MemoryDevice.memphyGetFreefp_none.mpr hfree
    unfold memphyGetFreefp
    rw [lists_nil.mp hl, hget]
    exact ⟨rfl, hr⟩
  | cons f frames =>
    rw [hfree] at hl
    obtain ⟨a, hhead, hvalue, hrest⟩ := lists_cons hl
    unfold memphyGetFreefp
    rw [hhead, MemoryDevice.memphyGetFreefp_cons hfree]
    refine ⟨congrArg some hvalue, hr.storage, hr.maxsz, hr.rdmflg, ?_⟩
    exact hrest _ fun b hb => Function.update_of_ne hb _ _

/-- The node of a fresh area: the empty region, linked to what the head pointer was. -/
theorem initMm_cell (vma0 : VmAreaCell) (h : Heap VmRg) :
    (initMm vma0 h).2.cell h.top = ⟨⟨0, 0⟩, vma0.vmFreergList⟩ := by
  dsimp only [initMm, enlistVmRgNode, initVmRg, Heap.malloc]
  rw [setNext_self, setNext_self, setValue_self]

/-- Where the memory of the area reads as zero, it is the area of the list model. -/
theorem initMm_listed (vma0 : VmAreaCell) (h : Heap VmRg) (hnull : vma0.vmFreergList = none) :
    ∃ vma, MemoryMapping.initMm.mmap = [vma] ∧
      ((initMm vma0 h).1.vmId, (initMm vma0 h).1.vmStart, (initMm vma0 h).1.vmEnd,
        (initMm vma0 h).1.sbrk) = (vma.vmId, vma.vmStart, vma.vmEnd, vma.sbrk) ∧
      Lists (initMm vma0 h).2.cell h.top (initMm vma0 h).2.top
        (initMm vma0 h).1.vmFreergList vma.vmFreergList := by
  refine ⟨_, rfl, rfl, (lists_singleton (le_refl _) (Nat.lt_succ_self _)).mpr ?_⟩
  rw [initMm_cell, hnull]
  rfl

/-! ## What the constructors establish -/

/-- The list of frames that `init_memphy` promises: null terminated, in its own nodes,
with every frame of the storage once and in order, to be handed out one by one. -/
def FramesListed (mp : MemphyCell) (bytes : Addr → Byte) (maxSize : Addr) (randomflg : Bool)
    (h : Heap Addr) : Prop :=
  let r := initMemphy mp bytes maxSize randomflg h
  ∃ frames : List Addr, Lists r.2.cell h.top r.2.top r.1.freeFpList frames ∧
    frames.map BitVec.toNat = List.range (maxSize.toNat / paging64Pagesz) ∧
    (∀ f ∈ frames, (f.toNat + 1) * paging64Pagesz ≤ maxSize.toNat) ∧
    ∀ left n, getFreefps left n r.1 r.2 = (frames.map some ++ List.replicate n none).take n

/-- The list of regions that `init_mm` promises: null terminated, with one node. -/
def RegionListed (vma0 : VmAreaCell) (h : Heap VmRg) : Prop :=
  let r := initMm vma0 h
  ∃ rg, Lists r.2.cell h.top r.2.top r.1.vmFreergList [rg]

/-- The frames are listed when an `int` can count them and, for a single frame, the
memory of its node has a null link. -/
theorem framesListed_iff (mp : MemphyCell) (bytes : Addr → Byte) (maxSize : Addr)
    (randomflg : Bool) (h : Heap Addr) : FramesListed mp bytes maxSize randomflg h ↔
      maxSize.toNat / paging64Pagesz < 2 ^ 31 ∧
        (maxSize.toNat / paging64Pagesz = 1 → (h.cell h.top).next = none) := by
  obtain ⟨mp', hsize, hnull, hheap, hhead⟩ := initMemphy_eq mp bytes maxSize randomflg h
  dsimp only [FramesListed]
  rw [hheap, hhead]
  constructor
  · rintro ⟨frames, hl, hnums, -, -⟩
    have hlen : frames.length = maxSize.toNat / paging64Pagesz := by
      rw [← List.length_map BitVec.toNat, hnums, List.length_range]
    have hcount : maxSize.toNat / paging64Pagesz < 2 ^ 31 := by
      have hle := hl
      rw [memphyFormat_top] at hle
      have hmax := MemoryDevice.loopCount_lt
        (MemoryDevice.formatNumfp mp'.maxsz (BitVec.ofNat 32 paging64Pagesz))
      have hshort := hle.length_le
      omega
    refine ⟨hcount, fun hone => ?_⟩
    rw [hone, List.length_eq_one_iff] at hlen
    obtain ⟨f, rfl⟩ := hlen
    refine next_of_memphyFormat_lists mp' _ h ?_ hl
    rw [hsize, loopCount_formatNumfp hcount, hone]
  · rintro ⟨hcount, hlast⟩
    have hn := loopCount_formatNumfp hcount
    have hl := memphyFormat_lists mp' (BitVec.ofNat 32 paging64Pagesz) h hnull
      (by rw [hsize, hn]; exact hlast)
    rw [hsize, hn] at hl
    refine ⟨_, hl, frameNumbers_toNat hcount, fun f hf => ?_, fun left n => ?_⟩
    · have hmem := List.mem_map_of_mem (f := BitVec.toNat) hf
      rw [frameNumbers_toNat hcount, List.mem_range] at hmem
      exact (Nat.le_div_iff_mul_le (by decide)).mp hmem
    · rw [← hhead] at hl
      exact getFreefps_of_lists left n hl

/-- The region list ends where the memory of its head pointer did. -/
theorem regionListed_iff (vma0 : VmAreaCell) (h : Heap VmRg) :
    RegionListed vma0 h ↔ vma0.vmFreergList = none := by
  have htop : (initMm vma0 h).2.top = h.top + 1 := rfl
  have hhead : (initMm vma0 h).1.vmFreergList = some h.top := rfl
  dsimp only [RegionListed]
  rw [htop, hhead]
  simp only [lists_singleton (le_refl h.top) (Nat.lt_succ_self h.top), initMm_cell,
    Node.mk.injEq]
  exact ⟨fun ⟨_, _, hn⟩ => hn, fun hn => ⟨_, rfl, hn⟩⟩

/-- Both constructors keep their promise, for whatever `malloc` returned, exactly when an
`int` can count the frames, the node of a single frame came with a null link, and so did
the head pointer of the area. -/
theorem listsBuilt_iff (mp : MemphyCell) (bytes : Addr → Byte) (maxSize : Addr)
    (randomflg : Bool) (h : Heap Addr) (vma0 : VmAreaCell) (g : Heap VmRg) :
    FramesListed mp bytes maxSize randomflg h ∧ RegionListed vma0 g ↔
      maxSize.toNat / paging64Pagesz < 2 ^ 31 ∧
        (maxSize.toNat / paging64Pagesz = 1 → (h.cell h.top).next = none) ∧
        vma0.vmFreergList = none := by
  rw [framesListed_iff, regionListed_iff, and_assoc]

/-- Memory of one frame, when the first free memory of the heap holds an address where
the link of a frame node will be. -/
theorem not_framesListed_oneFrame :
    ¬FramesListed ⟨fun _ => 0, 0, false, 0, none⟩ (fun _ => 0) 4096#64 true
      ⟨fun _ => ⟨0, some 0⟩, 1⟩ := by
  rw [framesListed_iff]
  intro h
  exact Option.some_ne_none _ (h.2 rfl)

end OsSim.MemoryConstructors
