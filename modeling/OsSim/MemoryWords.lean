import Mathlib.Data.BitVec
import Mathlib.Tactic.Ring

/-!
# Machine words and bit masks of the paging code

Addresses and instruction operands are 64-bit words, page-table entries are
read as 32-bit words, and `int` values are 32-bit words with a signed reading.
The mask macros of the two page-size generations are kept as they are written,
so that which constant a mask really is gets computed and not assumed.
-/

namespace OsSim.MemoryWords

/-- `addr_t` and `arg_t` of the MM64 build. -/
abbrev Addr := BitVec 64

/-- `uint32_t`. -/
abbrev UInt := BitVec 32

/-- `int`; conversions sign extend and comparisons are signed. -/
abbrev CInt := BitVec 32

/-- `BYTE`, a plain `char`: it is signed whenever it is widened. -/
abbrev Byte := BitVec 8

/-- Conversion of an `int` to a 64-bit unsigned word. -/
def toAddr (n : CInt) : Addr := n.signExtend 64

/-- Conversion of a 64-bit unsigned word to `int`. -/
def toCInt (a : Addr) : CInt := a.setWidth 32

/-- Number of iterations of a loop `for (i = 0; i < n; i++)` over a signed `n`. -/
def loopCount (n : CInt) : ℕ := n.toInt.toNat

/-- `NBITS2`. -/
def nbits2 (n : ℕ) : ℕ := if n &&& 2 ≠ 0 then 1 else 0

/-- `NBITS4`. -/
def nbits4 (n : ℕ) : ℕ := if n &&& 0xC ≠ 0 then 2 + nbits2 (n >>> 2) else nbits2 n

/-- `NBITS8`. -/
def nbits8 (n : ℕ) : ℕ := if n &&& 0xF0 ≠ 0 then 4 + nbits4 (n >>> 4) else nbits4 n

/-- `NBITS16`. -/
def nbits16 (n : ℕ) : ℕ := if n &&& 0xFF00 ≠ 0 then 8 + nbits8 (n >>> 8) else nbits8 n

/-- `NBITS32`. -/
def nbits32 (n : ℕ) : ℕ := if n &&& 0xFFFF0000 ≠ 0 then 16 + nbits16 (n >>> 16) else nbits16 n

/-- `NBITS`. -/
def nbits (n : ℕ) : ℕ := if n = 0 then 0 else nbits32 n

/-- `BIT`. -/
def bit (nr : ℕ) : UInt := 1#32 <<< nr

/-- `GENMASK`, with `BITS_PER_LONG` 32 because `CONFIG64` is never defined. -/
def genmask (h l : ℕ) : UInt := ((~~~0#32) <<< l) &&& ((~~~0#32) >>> (32 - h - 1))

/-- `GENMASK64`. -/
def genmask64 (h l : ℕ) : Addr := ((~~~0#64) <<< l) &&& ((~~~0#64) >>> (64 - h - 1))

/-- `PAGING_PAGESZ`, the page size of the 32-bit generation. -/
def pagingPagesz : ℕ := 256

/-- `PAGING64_PAGESZ`, the page size of the MM64 generation. -/
def paging64Pagesz : ℕ := 4096

/-- `PAGING64_ADDR_PT_SHIFT`. -/
def paging64AddrPtShift : ℕ := 12

/-- `PAGING_ADDR_OFFST_HIBIT`, computed from the 256-byte page size. -/
def pagingAddrOffstHibit : ℕ := nbits pagingPagesz - 1

/-- `PAGING_ADDR_OFFST_LOBIT`. -/
def pagingAddrOffstLobit : ℕ := 0

/-- `PAGING64_ADDR_OFFST_MASK`. The macro is built from the bit bounds of the
32-bit generation, not from `PAGING64_ADDR_OFFST_HIBIT`. -/
def paging64AddrOffstMask : Addr := genmask64 pagingAddrOffstHibit pagingAddrOffstLobit

/-- `PAGING64_PAGE_ALIGNSZ`, in the wrapping arithmetic of `addr_t`. -/
def paging64PageAlignsz (sz : Addr) : Addr := ((sz + 4096#64 - 1#64) / 4096#64) * 4096#64

/-- `PAGING_PTE_PRESENT_MASK`. -/
def pagingPtePresentMask : UInt := bit 31

/-- `PAGING_PTE_SWAPPED_MASK`. -/
def pagingPteSwappedMask : UInt := bit 30

/-- `PAGING_PTE_RESERVE_MASK`. -/
def pagingPteReserveMask : UInt := bit 29

/-- `PAGING_PTE_DIRTY_MASK`. -/
def pagingPteDirtyMask : UInt := bit 28

/-- `PAGING_PTE_FPN_MASK`. -/
def pagingPteFpnMask : UInt := genmask 12 0

/-- `PAGING_PTE_SWPTYP_MASK`. -/
def pagingPteSwptypMask : UInt := genmask 4 0

/-- `PAGING_PTE_SWPOFF_MASK`. -/
def pagingPteSwpoffMask : UInt := genmask 25 5

/-- `SETBIT` on a 64-bit entry with a 32-bit mask. -/
def setbit (v : Addr) (mask : UInt) : Addr := v ||| mask.setWidth 64

/-- `CLRBIT` on a 64-bit entry: the 32-bit complement is zero extended, so the
high half of the entry is cleared as well. -/
def clrbit (v : Addr) (mask : UInt) : Addr := v &&& (~~~mask).setWidth 64

/-- `SETVAL` on a 64-bit entry with a 32-bit mask. -/
def setval (v value : Addr) (mask : UInt) (offst : ℕ) : Addr :=
  (v &&& (~~~mask).setWidth 64) ||| ((value <<< offst) &&& mask.setWidth 64)

/-- `GETVAL` on a 32-bit entry. -/
def getval (v mask : UInt) (offst : ℕ) : UInt := (v &&& mask) >>> offst

/-- `PAGING_PAGE_PRESENT`. -/
def pagingPagePresent (pte : UInt) : Bool := pte &&& pagingPtePresentMask != 0

/-- The test `pte & PAGING_PTE_SWAPPED_MASK`. -/
def pagingPageSwapped (pte : UInt) : Bool := pte &&& pagingPteSwappedMask != 0

/-- `PAGING_FPN`. -/
def pagingFpn (pte : UInt) : UInt := getval pte pagingPteFpnMask 0

/-- `PAGING_SWP`. -/
def pagingSwp (pte : UInt) : UInt := (pte &&& pagingPteSwpoffMask) >>> 5

/-- The in-page offset mask keeps eight bits of a twelve-bit offset. -/
theorem paging64AddrOffstMask_eq : paging64AddrOffstMask = 0xFF#64 := by decide

end OsSim.MemoryWords
