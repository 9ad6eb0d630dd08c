import OsSim.MemoryPaging

/-!
# Memory library of a process

The region allocator and the four instructions that reach memory. An access to
`symrgtbl` outside its 30 entries, or through an area that does not exist, is
undefined in C and is a `Fault` here; a return value of -1 is not a fault.
-/

namespace OsSim.MemoryLibrary

open MemoryWords MemoryDevice MemoryPageTable MemoryMapping MemoryPaging

/-- Accesses that C leaves undefined. -/
inductive Fault
  /-- `symrgtbl[rgid]` outside the table. -/
  | symrgtbl (rgid : CInt)
  /-- A field of a `NULL` area. -/
  | nullArea
  /-- `regs[index]` outside the register file. -/
  | regs (index : Addr)
  /-- A node where `malloc` left this word, behind the last region of `vm_freerg_list`. -/
  | vmFreergList (word : Addr)
  deriving DecidableEq

/-- `symrgtbl[rgid]` as an access: a table index, or a fault. -/
def symrgSlot (rgid : CInt) : Except Fault (Fin 30) :=
  if h : rgid.toNat < 30 then .ok ⟨rgid.toNat, h⟩ else .error (.symrgtbl rgid)

/-- `get_symrg_byid`; `none` is `NULL`. The pointer is the index it was formed
with, and `PAGING_MAX_SYMTBL_SZ` itself passes the guard. -/
def getSymrgByid (rgid : CInt) : Option CInt :=
  if rgid.slt 0 || (BitVec.ofNat 32 pagingMaxSymtblSz).slt rgid then none else some rgid

/-- `enlist_vm_freerg_list`, on the first area; empty regions are refused. -/
def enlistVmFreergList (mm : MmStruct) (rgElmt : VmRg) : Except Fault (Int × MmStruct) :=
  match mm.mmap with
  | [] => .error .nullArea
  | vma0 :: next =>
    if rgElmt.rgEnd ≤ rgElmt.rgStart then .ok (-1, mm)
    else .ok (0, {mm with
      mmap := {vma0 with vmFreergList := rgElmt :: vma0.vmFreergList} :: next})

/-- The list walk of `get_free_vmrg_area`: `newrg` after it, and the list. A node
that fits exactly is overwritten by its successor, which is unlinked; without a
successor it stays as an empty node. -/
def freergWalk (size : CInt) : List VmRg → VmRg × List VmRg
  | [] => (⟨-1, -1⟩, [])
  | rgit :: next =>
    if rgit.rgStart + toAddr size ≤ rgit.rgEnd then
      let newrg : VmRg := ⟨rgit.rgStart, rgit.rgStart + toAddr size⟩
      if rgit.rgStart + toAddr size < rgit.rgEnd then
        (newrg, ⟨rgit.rgStart + toAddr size, rgit.rgEnd⟩ :: next)
      else
        match next with
        | nextrg :: rest => (newrg, nextrg :: rest)
        | [] => (newrg, [⟨rgit.rgEnd, rgit.rgEnd⟩])
    else
      let r := freergWalk size next
      (r.1, rgit :: r.2)

/-- `get_free_vmrg_area` on the free list of the area: the region found, or
`none` for -1, and the list afterwards. -/
def getFreeVmrgArea (freergs : List VmRg) (size : CInt) : Option VmRg × List VmRg :=
  match freergs with
  | [] => (none, [])
  | _ :: _ =>
    let r := freergWalk size freergs
    if r.1.rgStart = -1 then (none, r.2) else (some r.1, r.2)

variable (uninit : Addr → Byte)

/-- `__alloc`: the address through `*alloc_addr`, or `none` for -1. -/
def alloc (c : ProcMem) (vmaid rgid : CInt) (size : Addr) :
    Except Fault (Option Addr × ProcMem) :=
  match getVmaByNum c.mm vmaid with
  | none => .error .nullArea
  | some (i, curVma) =>
    let free := getFreeVmrgArea curVma.vmFreergList (toCInt size)
    let c := {c with mm := c.mm.setVma i {curVma with vmFreergList := free.2}}
    match free.1 with
    | some rgnode => do
      let k ← symrgSlot rgid
      .ok (some rgnode.rgStart, {c with mm := c.mm.setSymrg k rgnode})
    | none =>
      let oldSbrk : CInt := toCInt curVma.sbrk
      let r := syscall uninit c 17 ⟨toAddr sysmemIncOp, toAddr vmaid, size⟩
      if r.1 = -1 then .ok (none, r.2.2)
      else do
        let k ← symrgSlot rgid
        .ok (some (toAddr oldSbrk), {r.2.2 with
          mm := r.2.2.mm.setSymrg k ⟨toAddr oldSbrk, toAddr oldSbrk + size⟩})

/-- `__free`: 0 or -1. -/
def free (c : ProcMem) (rgid : CInt) : Except Fault (Int × ProcMem) :=
  if rgid.slt 0 || (BitVec.ofNat 32 pagingMaxSymtblSz).slt rgid then .ok (-1, c)
  else do
    let k ← symrgSlot rgid
    let rgnode := c.mm.symrgtbl k
    if rgnode.rgStart = 0 ∧ rgnode.rgEnd = 0 then .ok (-1, c)
    else do
      let r ← enlistVmFreergList (c.mm.setSymrg k ⟨0, 0⟩) rgnode
      .ok (0, {c with mm := r.2})

/-- The bounds check that `__read` and `__write` share: the address to access,
or `none` for -1. The sum wraps. -/
def regionAddr (c : ProcMem) (vmaid rgid : CInt) (offset : Addr) : Except Fault (Option Addr) :=
  match getSymrgByid rgid, getVmaByNum c.mm vmaid with
  | some p, some _ => do
    let k ← symrgSlot p
    let currg := c.mm.symrgtbl k
    if currg.rgEnd ≤ currg.rgStart + offset then .ok none
    else .ok (some (currg.rgStart + offset))
  | _, _ => .ok none

/-- `__read`: 0 or -1, and `*data` afterwards. The result of `pg_getval` is
dropped. -/
def read (c : ProcMem) (vmaid rgid : CInt) (offset : Addr) (data : Byte) :
    Except Fault (Int × Byte × ProcMem) := do
  match ← regionAddr c vmaid rgid offset with
  | none => .ok (-1, data, c)
  | some addr =>
    let r := pgGetval uninit c addr data
    .ok (0, r.2.1, r.2.2)

/-- `__write`: 0 or -1. The result of `pg_setval` is dropped. -/
def write (c : ProcMem) (vmaid rgid : CInt) (offset : Addr) (value : Byte) :
    Except Fault (Int × ProcMem) := do
  match ← regionAddr c vmaid rgid offset with
  | none => .ok (-1, c)
  | some addr => .ok (0, (pgSetval uninit c addr value).2)

/-- `liballoc`. -/
def liballoc (c : ProcMem) (size : Addr) (regIndex : UInt) : Except Fault (Int × ProcMem) := do
  let r ← alloc uninit c 0 regIndex size
  .ok (if r.1.isNone then -1 else 0, r.2)

/-- `libfree`. -/
def libfree (c : ProcMem) (regIndex : UInt) : Except Fault (Int × ProcMem) :=
  free c regIndex

/-- `libread`: the status and, unless it is -1, the word put into
`*destination`; the signed byte is sign extended. -/
def libread (c : ProcMem) (source : UInt) (offset : Addr) :
    Except Fault (Int × Option UInt × ProcMem) := do
  let r ← read uninit c 0 source offset (uninit offset)
  if r.1 = -1 then .ok (-1, none, r.2.2)
  else .ok (r.1, some (r.2.1.signExtend 32), r.2.2)

/-- `libwrite`. -/
def libwrite (c : ProcMem) (data : Byte) (destination : UInt) (offset : Addr) :
    Except Fault (Int × ProcMem) :=
  write uninit c 0 destination offset data

/-- `libsyscall`: the registers are a local of the call, so that only its status
comes back. -/
def libsyscall (c : ProcMem) (syscallIdx : UInt) (a1 a2 a3 : Addr) : Int × ProcMem :=
  let r := syscall uninit c syscallIdx ⟨a1, a2, a3⟩
  (r.1, r.2.2)

/-- `enum ins_opcode_t`. -/
inductive Opcode
  | calc
  | alloc
  | free
  | read
  | write
  | syscall
  deriving DecidableEq

/-- `struct inst_t`. -/
structure Inst where
  /-- Operation. -/
  opcode : Opcode
  /-- First operand. -/
  arg0 : Addr
  /-- Second operand. -/
  arg1 : Addr
  /-- Third operand. -/
  arg2 : Addr
  /-- Fourth operand. -/
  arg3 : Addr

/-- The opcode switch of `run`, as far as it reaches memory: the status, the
word a successful `READ` delivers, and the memory afterwards. -/
def execInst (c : ProcMem) (ins : Inst) : Except Fault (Int × Option UInt × ProcMem) :=
  match ins.opcode with
  | .calc => .ok (0, none, c)
  | .alloc => do
    let r ← liballoc uninit c ins.arg0 (toCInt ins.arg1)
    .ok (r.1, none, r.2)
  | .free => do
    let r ← libfree c (toCInt ins.arg0)
    .ok (r.1, none, r.2)
  | .read => do
    let r ← libread uninit c (toCInt ins.arg0) ins.arg1
    .ok (r.1, if r.1 = 0 then r.2.1 else none, r.2.2)
  | .write => do
    let r ← libwrite uninit c (ins.arg0.setWidth 8) (toCInt ins.arg1) ins.arg2
    .ok (r.1, none, r.2)
  | .syscall =>
    let r := libsyscall uninit c (toCInt ins.arg0) ins.arg1 ins.arg2 ins.arg3
    .ok (r.1, none, r.2)

end OsSim.MemoryLibrary
