import OsSim.MemoryDevice

/-!
# Sequential and random-access devices

A device is used through `MEMPHY_read` and `MEMPHY_write` only, so a history of a
device is a list of such calls with the statuses and values they deliver. The two
access modes are compared call by call over one history.
-/

namespace OsSim.MemorySequential

open MemoryWords MemoryDevice

/-- A call on a device, with the address it is given. -/
inductive DeviceCall
  /-- `MEMPHY_read`. -/
  | read (addr : Addr)
  /-- `MEMPHY_write`. -/
  | write (addr : Addr) (data : Byte)

/-- The address of a call. -/
def DeviceCall.addr : DeviceCall → Addr
  | .read addr => addr
  | .write addr _ => addr

/-- `MEMPHY_read` together with the device it leaves. -/
def memphyReadDevice (mp : MemphyStruct) (addr : Addr) : Option (Byte × MemphyStruct) :=
  if mp.rdmflg then
    if mp.maxsz ≤ addr then none else some (mp.storage addr, mp)
  else memphySeqRead mp addr

/-- The value is the one of `MEMPHY_read`. -/
theorem memphyReadDevice_value (mp : MemphyStruct) (addr : Addr) :
    (memphyReadDevice mp addr).map Prod.fst = memphyRead mp addr := by
  unfold memphyReadDevice memphyRead
  split
  · split <;> rfl
  · rfl

/-- What a call delivers: 0 or -1, and the value of a read that succeeds. -/
structure Answer where
  /-- The return value. -/
  status : Int
  /-- The byte stored through `value`, if one is. -/
  value : Option Byte
  deriving DecidableEq

/-- One call, with its answer and the device it leaves. -/
def deviceCall (mp : MemphyStruct) : DeviceCall → Answer × MemphyStruct
  | .read addr =>
    match memphyReadDevice mp addr with
    | none => (⟨-1, none⟩, mp)
    | some (value, mp) => (⟨0, some value⟩, mp)
  | .write addr data =>
    match memphyWrite mp addr data with
    | none => (⟨-1, none⟩, mp)
    | some mp => (⟨0, none⟩, mp)

/-- A sequence of calls, with its answers in order and the device it leaves. -/
def runCalls (mp : MemphyStruct) : List DeviceCall → List Answer × MemphyStruct
  | [] => ([], mp)
  | call :: calls =>
    let r := deviceCall mp call
    let s := runCalls r.2 calls
    (r.1 :: s.1, s.2)

/-- The answer to a call that is refused. -/
def refusal : Answer := ⟨-1, none⟩

/-- A sequential device refuses every call and stays as it is. -/
theorem deviceCall_sequential {mp : MemphyStruct} (h : mp.rdmflg = false) (call : DeviceCall) :
    deviceCall mp call = (refusal, mp) := by
  cases call with
  | read addr =>
    simp only [deviceCall, memphyReadDevice, memphySeqRead, h, Bool.false_eq_true, if_false,
      if_true]
    rfl
  | write addr data =>
    simp only [deviceCall, memphyWrite, memphySeqWrite, h, Bool.false_eq_true, if_false, if_true]
    rfl

/-- A random-access device refuses every call from its size on. -/
theorem deviceCall_beyond {mp : MemphyStruct} {call : DeviceCall} (hr : mp.rdmflg = true)
    (h : mp.maxsz ≤ call.addr) : deviceCall mp call = (refusal, mp) := by
  cases call with
  | read addr =>
    have ha : mp.maxsz ≤ addr := h
    simp only [deviceCall, memphyReadDevice, hr, if_true, if_pos ha]
    rfl
  | write addr data =>
    have ha : mp.maxsz ≤ addr := h
    simp only [deviceCall, memphyWrite, hr, if_true, if_pos ha]
    rfl

/-- Below its size a random-access device accepts every call. -/
theorem deviceCall_within {mp : MemphyStruct} {call : DeviceCall} (hr : mp.rdmflg = true)
    (h : ¬mp.maxsz ≤ call.addr) : (deviceCall mp call).1.status = 0 := by
  cases call with
  | read addr =>
    have ha : ¬mp.maxsz ≤ addr := h
    simp only [deviceCall, memphyReadDevice, hr, if_true, if_neg ha]
  | write addr data =>
    have ha : ¬mp.maxsz ≤ addr := h
    simp only [deviceCall, memphyWrite, hr, if_true, if_neg ha]

/-- No call changes the mode or the size of a device. -/
theorem deviceCall_frame (mp : MemphyStruct) (call : DeviceCall) :
    (deviceCall mp call).2.rdmflg = mp.rdmflg ∧ (deviceCall mp call).2.maxsz = mp.maxsz := by
  cases call with
  | read addr =>
    simp only [deviceCall, memphyReadDevice, memphySeqRead, memphyMvCsr]
    split_ifs <;> exact ⟨rfl, rfl⟩
  | write addr data =>
    simp only [deviceCall]
    cases hw : memphyWrite mp addr data with
    | none => exact ⟨rfl, rfl⟩
    | some mp' =>
      obtain ⟨hm, hr, _⟩ := memphyWrite_frame hw
      exact ⟨hr, hm⟩

/-- A sequential device refuses a whole sequence. -/
theorem runCalls_sequential {mp : MemphyStruct} (h : mp.rdmflg = false) (calls : List DeviceCall) :
    runCalls mp calls = (calls.map fun _ => refusal, mp) := by
  induction calls with
  | nil => rfl
  | cons call calls ih =>
    simp only [runCalls, deviceCall_sequential h, ih, List.map_cons]

/-- A random-access device refuses, of a sequence, the calls from its size on. -/
theorem runCalls_random {mp : MemphyStruct} (hr : mp.rdmflg = true) (calls : List DeviceCall) :
    (runCalls mp calls).1.map Answer.status =
      calls.map fun call => if mp.maxsz ≤ call.addr then -1 else 0 := by
  induction calls generalizing mp with
  | nil => rfl
  | cons call calls ih =>
    have hf := deviceCall_frame mp call
    simp only [runCalls, List.map_cons]
    rw [ih (hf.1.trans hr), hf.2]
    congr 1
    by_cases h : mp.maxsz ≤ call.addr
    · rw [deviceCall_beyond hr h, if_pos h]
      rfl
    · rw [deviceCall_within hr h, if_neg h]

/-- A sequence beyond the size is refused as a whole and leaves the device. -/
theorem runCalls_beyond {mp : MemphyStruct} (hr : mp.rdmflg = true) {calls : List DeviceCall}
    (h : ∀ call ∈ calls, mp.maxsz ≤ call.addr) :
    runCalls mp calls = (calls.map fun _ => refusal, mp) := by
  induction calls with
  | nil => rfl
  | cons call calls ih =>
    rw [List.forall_mem_cons] at h
    simp only [runCalls, deviceCall_beyond hr h.1, ih h.2, List.map_cons]

/-- A device of `init_memphy` that holds the given bytes. -/
def deviceOf (maxSize : Addr) (randomflg : Bool) (storage : Addr → Byte) : MemphyStruct :=
  {initMemphy maxSize randomflg with storage := storage}

/-- The two modes cannot be told apart by a sequence of calls: equal answers, equal
storage afterwards, and each of them refuses exactly the addresses from the size on. -/
structure Interchangeable (maxSize : Addr) (storage : Addr → Byte) (calls : List DeviceCall) :
    Prop where
  /-- Statuses and values agree. -/
  answers : (runCalls (deviceOf maxSize false storage) calls).1 =
    (runCalls (deviceOf maxSize true storage) calls).1
  /-- The bytes afterwards agree. -/
  contents : (runCalls (deviceOf maxSize false storage) calls).2.storage =
    (runCalls (deviceOf maxSize true storage) calls).2.storage
  /-- Either device refuses an address exactly from its size on. -/
  refused : ∀ randomflg, (runCalls (deviceOf maxSize randomflg storage) calls).1.map
    Answer.status = calls.map fun call => if maxSize ≤ call.addr then -1 else 0

/-- The two modes agree on exactly the histories that never address the device. -/
theorem interchangeable_iff (maxSize : Addr) (storage : Addr → Byte) (calls : List DeviceCall) :
    Interchangeable maxSize storage calls ↔ ∀ call ∈ calls, maxSize ≤ call.addr := by
  have hseq := @runCalls_sequential (deviceOf maxSize false storage) rfl calls
  have hran := @runCalls_random (deviceOf maxSize true storage) rfl calls
  have hsize (randomflg : Bool) : (deviceOf maxSize randomflg storage).maxsz = maxSize :=
    initMemphy_maxsz maxSize randomflg
  rw [hsize] at hran
  constructor
  · intro h call hc
    have hst := h.refused false
    rw [hseq, List.map_map] at hst
    have hcall := List.map_inj_left.mp hst call hc
    by_contra hn
    rw [if_neg hn] at hcall
    cases hcall
  · intro h
    have hall : runCalls (deviceOf maxSize true storage) calls =
        (calls.map fun _ => refusal, deviceOf maxSize true storage) :=
      runCalls_beyond rfl (by rw [hsize]; exact h)
    refine ⟨by rw [hseq, hall], by rw [hseq, hall]; rfl, fun randomflg => ?_⟩
    cases randomflg with
    | false =>
      rw [hseq, List.map_map]
      refine List.map_congr_left fun call hc => ?_
      rw [if_pos (h call hc)]
      rfl
    | true => exact hran

/-- Reading the first byte of a zeroed device of 4096 bytes tells the modes apart. -/
theorem not_interchangeable_first_byte :
    ¬Interchangeable 4096 (fun _ => 0) [.read 0] := by
  intro h
  have hst := h.answers
  rw [runCalls_sequential rfl] at hst
  cases hst

end OsSim.MemorySequential
