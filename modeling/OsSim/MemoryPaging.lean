import OsSim.MemoryMapping

/-!
# Memory system call and demand paging

The `memmap` system call, the page fault with its victim selection, and the byte
accesses through the page table. A `BYTE` variable that no statement has set
reads as `uninit` of the address it was declared for, an arbitrary function.
-/

namespace OsSim.MemoryPaging

open MemoryWords MemoryDevice MemoryPageTable MemoryMapping

/-- The arguments of `struct sc_regs` that a system call reads or writes. -/
structure ScRegs where
  /-- First argument, the operation of `memmap`. -/
  a1 : Addr
  /-- Second argument. -/
  a2 : Addr
  /-- Third argument, also the result of a read. -/
  a3 : Addr

/-- `SYSMEM_MAP_OP`. -/
def sysmemMapOp : CInt := 1

/-- `SYSMEM_INC_OP`. -/
def sysmemIncOp : CInt := 2

/-- `SYSMEM_SWP_OP`. -/
def sysmemSwpOp : CInt := 3

/-- `SYSMEM_IO_READ`. -/
def sysmemIoRead : CInt := 4

/-- `SYSMEM_IO_WRITE`. -/
def sysmemIoWrite : CInt := 5

/-- `get_pgn_offset`, both results cut to `int`. -/
def getPgnOffset (addr : Addr) : CInt × CInt :=
  (toCInt (addr >>> paging64AddrPtShift), toCInt (addr &&& paging64AddrOffstMask))

/-- `get_phyaddr`. -/
def getPhyaddr (fpn off : CInt) : CInt := (fpn <<< paging64AddrPtShift) + off

variable (uninit : Addr → Byte)

/-- The first `n` iterations of the loop of `__swap_cp_page`. -/
def swapCpPageLoop (mpsrc : MemphyStruct) (srcfpn dstfpn : Addr) :
    ℕ → MemphyStruct → MemphyStruct
  | 0, mpdst => mpdst
  | n + 1, mpdst =>
    let mpdst := swapCpPageLoop mpsrc srcfpn dstfpn n mpdst
    let addrsrc := srcfpn * BitVec.ofNat 64 pagingPagesz + BitVec.ofNat 64 n
    let addrdst := dstfpn * BitVec.ofNat 64 pagingPagesz + BitVec.ofNat 64 n
    let data := (memphyRead mpsrc addrsrc).getD (uninit addrsrc)
    (memphyWrite mpdst addrdst data).getD mpdst

/-- `__swap_cp_page`, the destination device afterwards. Loop bound and strides
use the 256-byte page size. -/
def swapCpPage (mpsrc : MemphyStruct) (srcfpn : Addr) (mpdst : MemphyStruct) (dstfpn : Addr) :
    MemphyStruct :=
  swapCpPageLoop uninit mpsrc srcfpn dstfpn pagingPagesz mpdst

/-- `__mm_swap_page`: always from RAM to swap. -/
def mmSwapPage (c : ProcMem) (vicfpn swpfpn : Addr) : Int × ProcMem :=
  (0, {c with activeMswp := swapCpPage uninit c.mram vicfpn c.activeMswp swpfpn})

/-- `__sys_memmap`, for a `pid` whose lookup result is `c.listed`. -/
def sysMemmap (c : ProcMem) (regs : ScRegs) : Int × ScRegs × ProcMem :=
  let memop := toCInt regs.a1
  if c.listed = false then (-1, regs, c)
  else if memop = sysmemMapOp then
    let r := vmapPgdMemset c.mm regs.a2 (toCInt regs.a3)
    (r.1, regs, {c with mm := r.2})
  else if memop = sysmemIncOp then
    let r := incVmaLimit c (toCInt regs.a2) regs.a3
    (r.1, regs, r.2)
  else if memop = sysmemSwpOp then
    let r := mmSwapPage uninit c regs.a2 regs.a3
    (r.1, regs, r.2)
  else if memop = sysmemIoRead then
    match memphyRead c.mram regs.a2 with
    | none => (-1, regs, c)
    | some value => (0, {regs with a3 := (value.signExtend 32).setWidth 64}, c)
  else if memop = sysmemIoWrite then
    match memphyWrite c.mram regs.a2 (regs.a3.setWidth 8) with
    | none => (-1, regs, c)
    | some mram => (0, regs, {c with mram := mram})
  else (-1, regs, c)

/-- `syscall` with the two entries of the table; the listing call and the
default entry return 0. -/
def syscall (c : ProcMem) (nr : UInt) (regs : ScRegs) : Int × ScRegs × ProcMem :=
  if nr = 17 then sysMemmap uninit c regs else (0, regs, c)

/-- `find_victim_page`: the last node, with the list that remains. -/
def findVictimPage : List Addr → Option (Addr × List Addr)
  | [] => none
  | [pg] => some (pg, [])
  | pg :: next :: rest => (findVictimPage (next :: rest)).map fun r => (r.1, pg :: r.2)

/-- The block of `pg_getpage` that runs when the faulting entry is marked
swapped: a swap call with the swap frame first, then that frame is freed. -/
def swapInBlock (c : ProcMem) (pte : UInt) (tgtfpn : Addr) : ProcMem :=
  if pte != 0 && pagingPageSwapped pte then
    let oldSwpfpn : Addr := (pagingSwp pte).setWidth 64
    let c := (syscall uninit c 17 ⟨toAddr sysmemSwpOp, oldSwpfpn, tgtfpn⟩).2.2
    {c with activeMswp := memphyPutFreefp c.activeMswp oldSwpfpn}
  else c

/-- The end of both fault branches: restore a swapped page, then map and enlist
the page at its frame. -/
def mapFaulted (c : ProcMem) (pte : UInt) (pgn : CInt) (tgtfpn : Addr) : ProcMem :=
  let c := swapInBlock uninit c pte tgtfpn
  {c with mm := mapPage c.mm (toAddr pgn) tgtfpn}

/-- The frame a victim's entry names. -/
def victimFrame (mm : MmStruct) (vicpgn : Addr) : Addr :=
  (pagingFpn (pteGetEntry mm vicpgn)).setWidth 64

/-- The eviction of `pg_getpage`: copy the victim's frame to swap, then mark its
entry. -/
def evictVictim (c : ProcMem) (vicpgn swpfpn : Addr) : ProcMem :=
  let c := (syscall uninit c 17 ⟨toAddr sysmemSwpOp, victimFrame c.mm vicpgn, swpfpn⟩).2.2
  {c with mm := (pteSetSwap c.mm vicpgn 0 swpfpn).2}

/-- The fault handler of `pg_getpage` for an entry that is not present; `none`
for -1. -/
def faultPage (c : ProcMem) (pgn : CInt) : Option ProcMem × ProcMem :=
  let pte := pteGetEntry c.mm (toAddr pgn)
  match memphyGetFreefp c.mram with
  | some (tgtfpn, mram) => (some (mapFaulted uninit {c with mram := mram} pte pgn tgtfpn), c)
  | none =>
    match findVictimPage c.mm.fifoPgn with
    | none => (none, c)
    | some (vicpgn, fifo) =>
      let c := {c with mm := {c.mm with fifoPgn := fifo}}
      match memphyGetFreefp c.activeMswp with
      | none => (none, c)
      | some (swpfpn, mswp) =>
        let evicted := evictVictim uninit {c with activeMswp := mswp} vicpgn swpfpn
        (some (mapFaulted uninit evicted pte pgn (victimFrame c.mm vicpgn)), c)

/-- `pg_getpage`: the frame number through `*fpn`, or `none` for -1. -/
def pgGetpage (c : ProcMem) (pgn : CInt) : Option CInt × ProcMem :=
  if pagingPagePresent (pteGetEntry c.mm (toAddr pgn)) then
    (some (pagingFpn (pteGetEntry c.mm (toAddr pgn))), c)
  else
    match faultPage uninit c pgn with
    | (none, c) => (none, c)
    | (some c, _) => (some (pagingFpn (pteGetEntry c.mm (toAddr pgn))), c)

/-- `pg_getval`: the status, and `*data` afterwards. -/
def pgGetval (c : ProcMem) (addr : Addr) (data : Byte) : Int × Byte × ProcMem :=
  let pgn := (getPgnOffset addr).1
  let off := (getPgnOffset addr).2
  match pgGetpage uninit c pgn with
  | (none, c) => (-1, data, c)
  | (some fpn, c) =>
    let r := syscall uninit c 17 ⟨toAddr sysmemIoRead, toAddr (getPhyaddr fpn off), 0⟩
    if r.1 = 0 then (0, r.2.1.a3.setWidth 8, r.2.2) else (-1, data, r.2.2)

/-- `pg_setval`. -/
def pgSetval (c : ProcMem) (addr : Addr) (value : Byte) : Int × ProcMem :=
  let pgn := (getPgnOffset addr).1
  let off := (getPgnOffset addr).2
  match pgGetpage uninit c pgn with
  | (none, c) => (-1, c)
  | (some fpn, c) =>
    let r := syscall uninit c 17
      ⟨toAddr sysmemIoWrite, toAddr (getPhyaddr fpn off), (value.signExtend 32).setWidth 64⟩
    if r.1 = 0 then (0, r.2.2) else (-1, r.2.2)

end OsSim.MemoryPaging
