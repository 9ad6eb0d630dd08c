import OsSim.MemoryWords
import Mathlib.Logic.Function.Iterate
import Mathlib.Data.List.Nodup
import Mathlib.Data.List.Range

/-!
# Physical memory devices

The byte storage of a device together with its list of free frames. The free
list is taken as it is linked, head first: `memphyGetFreefp` pops the head and
`memphyPutFreefp` pushes in front. Memory that `malloc` returns is taken to read
as zero, so that a list built from fresh nodes ends in `NULL`.
-/

namespace OsSim.MemoryDevice

open MemoryWords

/-- `struct memphy_struct`, without `used_fp_list`, which no function reads. -/
structure MemphyStruct where
  /-- The byte array; only addresses below `maxsz` are ever accessed. -/
  storage : Addr → Byte
  /-- Device size in bytes. -/
  maxsz : Addr
  /-- Random access when true, sequential access when false. -/
  rdmflg : Bool
  /-- Position of a sequential device. -/
  cursor : CInt
  /-- Frame numbers of `free_fp_list`, head first. -/
  freeFpList : List Addr

/-- `MEMPHY_mv_csr`: one modular increment for every step of the loop. -/
def memphyMvCsr (mp : MemphyStruct) (offset : Addr) : MemphyStruct :=
  {mp with cursor :=
    (fun c : CInt => toCInt ((toAddr c + 1) % mp.maxsz))^[(min offset.toNat mp.maxsz.toNat)] 0}

/-- `MEMPHY_seq_read`; `none` is the return value -1 and leaves `*value` alone. -/
def memphySeqRead (mp : MemphyStruct) (addr : Addr) : Option (Byte × MemphyStruct) :=
  if mp.rdmflg = false then none
  else some (mp.storage addr, memphyMvCsr mp addr)

/-- `MEMPHY_read`; the cursor of the sequential path is not kept, because that
path refuses every access of a device that is not random access. -/
def memphyRead (mp : MemphyStruct) (addr : Addr) : Option Byte :=
  if mp.rdmflg then
    if mp.maxsz ≤ addr then none else some (mp.storage addr)
  else (memphySeqRead mp addr).map Prod.fst

/-- `MEMPHY_seq_write`; `none` is the return value -1. -/
def memphySeqWrite (mp : MemphyStruct) (addr : Addr) (value : Byte) : Option MemphyStruct :=
  if mp.rdmflg = false then none
  else
    let mp := memphyMvCsr mp addr
    some {mp with storage := Function.update mp.storage addr value}

/-- `MEMPHY_write`; `none` is the return value -1. -/
def memphyWrite (mp : MemphyStruct) (addr : Addr) (data : Byte) : Option MemphyStruct :=
  if mp.rdmflg then
    if mp.maxsz ≤ addr then none
    else some {mp with storage := Function.update mp.storage addr data}
  else memphySeqWrite mp addr data

/-- The `int numfp` of `MEMPHY_format`: the quotient is cut to 32 bits. -/
def formatNumfp (maxsz : Addr) (pagesz : CInt) : CInt := toCInt (maxsz / toAddr pagesz)

/-- `MEMPHY_format`: the frames `0 .. numfp-1`, appended one after another. A
device with no frame keeps the list it had. -/
def memphyFormat (mp : MemphyStruct) (pagesz : CInt) : MemphyStruct :=
  let numfp := formatNumfp mp.maxsz pagesz
  if numfp.sle 0 then mp
  else {mp with freeFpList := (List.range (loopCount numfp)).map (BitVec.ofNat 64)}

/-- `MEMPHY_get_freefp`; `none` is the return value -1. -/
def memphyGetFreefp (mp : MemphyStruct) : Option (Addr × MemphyStruct) :=
  match mp.freeFpList with
  | [] => none
  | fp :: next => some (fp, {mp with freeFpList := next})

/-- `MEMPHY_put_freefp`. -/
def memphyPutFreefp (mp : MemphyStruct) (fpn : Addr) : MemphyStruct :=
  {mp with freeFpList := fpn :: mp.freeFpList}

/-- `init_memphy`: zeroed storage, then a format by 4096-byte pages. -/
def initMemphy (maxSize : Addr) (randomflg : Bool) : MemphyStruct :=
  {memphyFormat ⟨fun _ => 0, maxSize, false, 0, []⟩ (BitVec.ofNat 32 paging64Pagesz) with
    rdmflg := randomflg}

/-- Number of whole 4096-byte frames of a device. -/
def frameCount (mp : MemphyStruct) : ℕ := mp.maxsz.toNat / paging64Pagesz

/-- A random-access device stores exactly below its size. -/
theorem memphyRead_eq_some {mp : MemphyStruct} (hr : mp.rdmflg = true) {addr : Addr}
    (ha : addr < mp.maxsz) : memphyRead mp addr = some (mp.storage addr) := by
  unfold memphyRead
  rw [if_pos hr, if_neg (BitVec.not_le.mpr ha)]

/-- A write below the size of a random-access device updates one byte. -/
theorem memphyWrite_eq_some {mp : MemphyStruct} (hr : mp.rdmflg = true) {addr : Addr}
    (ha : addr < mp.maxsz) (data : Byte) : memphyWrite mp addr data =
      some {mp with storage := Function.update mp.storage addr data} := by
  unfold memphyWrite
  rw [if_pos hr, if_neg (BitVec.not_le.mpr ha)]

/-- Every accepted write leaves the size, the mode and the free list alone. -/
theorem memphyWrite_frame {mp mp' : MemphyStruct} {addr : Addr} {data : Byte}
    (h : memphyWrite mp addr data = some mp') :
    mp'.maxsz = mp.maxsz ∧ mp'.rdmflg = mp.rdmflg ∧ mp'.freeFpList = mp.freeFpList ∧
      mp'.storage = Function.update mp.storage addr data := by
  unfold memphyWrite memphySeqWrite memphyMvCsr at h
  split_ifs at h <;> cases h <;> exact ⟨rfl, rfl, rfl, rfl⟩

/-- A device refuses a frame exactly when its list is empty. -/
theorem memphyGetFreefp_none {mp : MemphyStruct} :
    memphyGetFreefp mp = none ↔ mp.freeFpList = [] := by
  unfold memphyGetFreefp
  split
  · next heq => exact ⟨fun _ => heq, fun _ => rfl⟩
  · next heq => rw [heq]; exact ⟨(nomatch ·), (nomatch ·)⟩

/-- `MEMPHY_get_freefp` hands out the first frame of the list. -/
theorem memphyGetFreefp_cons {mp : MemphyStruct} {f : Addr} {rest : List Addr}
    (h : mp.freeFpList = f :: rest) :
    memphyGetFreefp mp = some (f, {mp with freeFpList := rest}) := by
  unfold memphyGetFreefp
  rw [h]

/-- An `int` counts to less than its sign bit. -/
theorem loopCount_lt (n : CInt) : loopCount n < 2 ^ 31 := by
  have hn := n.isLt
  unfold loopCount
  rw [BitVec.toInt_eq_toNat_cond]
  split <;> omega

/-- The 32-bit frame count never exceeds the number of whole frames. -/
theorem loopCount_formatNumfp_le (maxsz : Addr) :
    loopCount (formatNumfp maxsz (BitVec.ofNat 32 paging64Pagesz)) ≤
      maxsz.toNat / paging64Pagesz := by
  unfold loopCount formatNumfp toCInt
  have hp : toAddr (BitVec.ofNat 32 paging64Pagesz) = 4096#64 := by decide
  rw [hp]
  have hv : (BitVec.setWidth 32 (maxsz / 4096#64)).toNat ≤ maxsz.toNat / 4096 := by
    rw [BitVec.toNat_setWidth, BitVec.toNat_udiv]
    exact Nat.mod_le _ _
  refine le_trans ?_ hv
  rw [BitVec.toInt_eq_toNat_cond]
  split <;> omega

/-- The free list of a fresh device, in the order of the format loop. -/
theorem initMemphy_freeFpList (maxSize : Addr) (randomflg : Bool) :
    ∃ n ≤ maxSize.toNat / paging64Pagesz,
      (initMemphy maxSize randomflg).freeFpList = (List.range n).map (BitVec.ofNat 64) := by
  dsimp only [initMemphy, memphyFormat]
  split
  · exact ⟨0, Nat.zero_le _, rfl⟩
  · exact ⟨_, loopCount_formatNumfp_le maxSize, rfl⟩

/-- A fresh device lists fewer frames than an `int` can count. -/
theorem initMemphy_freeFpList_length (maxSize : Addr) (randomflg : Bool) :
    (initMemphy maxSize randomflg).freeFpList.length < 2 ^ 31 := by
  dsimp only [initMemphy, memphyFormat]
  split
  · exact Nat.two_pow_pos 31
  · dsimp only
    rw [List.length_map, List.length_range]
    exact loopCount_lt _

/-- No frame is listed twice in a fresh device. -/
theorem initMemphy_freeFpList_nodup (maxSize : Addr) (randomflg : Bool) :
    (initMemphy maxSize randomflg).freeFpList.Nodup := by
  obtain ⟨n, hn, hl⟩ := initMemphy_freeFpList maxSize randomflg
  have hsize : maxSize.toNat / paging64Pagesz < 2 ^ 64 :=
    (Nat.div_le_self _ _).trans_lt maxSize.isLt
  rw [hl]
  refine List.nodup_range.map_on fun i hi j hj h => ?_
  have hi' := List.mem_range.mp hi
  have hj' := List.mem_range.mp hj
  have hv := congrArg BitVec.toNat h
  rw [BitVec.toNat_ofNat, BitVec.toNat_ofNat, Nat.mod_eq_of_lt (by omega),
    Nat.mod_eq_of_lt (by omega)] at hv
  exact hv

@[simp] theorem initMemphy_maxsz (maxSize : Addr) (randomflg : Bool) :
    (initMemphy maxSize randomflg).maxsz = maxSize := by
  dsimp only [initMemphy, memphyFormat]
  split <;> rfl

@[simp] theorem initMemphy_storage (maxSize : Addr) (randomflg : Bool) :
    (initMemphy maxSize randomflg).storage = fun _ => 0 := by
  dsimp only [initMemphy, memphyFormat]
  split <;> rfl

@[simp] theorem initMemphy_rdmflg (maxSize : Addr) (randomflg : Bool) :
    (initMemphy maxSize randomflg).rdmflg = randomflg := rfl

end OsSim.MemoryDevice
