import Mathlib.Logic.Function.Basic
import Mathlib.Data.Nat.Bits
import BHOS.Lib.Words

/-! # Page bitmaps (`bitmap.c`)

A `bitmap` describes a region of 4 KiB pages: one bit per page, kept in `length` bytes of
storage at `vaddr_header`; bit `7 - j` of byte `i` stands for page `8 * i + j` of the region
that starts at `target_addr_header`, and a set bit is a free page.

The storage is byte-addressed memory in which an unmapped byte has no value, and reading or
writing such a byte is undefined (`none`).  Addresses are `UInt32`, so all address arithmetic
wraps as the source's `uint32_t` does. -/

namespace BHOS

/-- Byte-addressed memory; `none` is an unmapped byte. -/
abbrev ByteMem := UInt32 → Option UInt8

/-- Read one byte. -/
def load (m : ByteMem) (a : UInt32) : Option UInt8 := m a

/-- Write one byte. -/
def store (m : ByteMem) (a : UInt32) (v : UInt8) : Option ByteMem :=
  (m a).map fun _ => Function.update m a (some v)

/-- `memset(dest, val, len)` of `string.c`: one byte a round until `len` is zero. -/
def memset (val : UInt8) : ℕ → UInt32 → ByteMem → Option ByteMem
  | 0, _, m => some m
  | len + 1, dest, m => (store m dest val).bind (memset val len (dest + 1))

/-- `PAGE_SIZE`. -/
def pageSize : UInt32 := 4096

/-- `BITMAP_RETURN_ERRO`. -/
def bitmapReturnErro : UInt32 := 0xffffffff

/-- `struct bitmap`. -/
structure Bitmap where
  vaddrHeader : UInt32
  length : UInt32
  targetAddrHeader : UInt32
deriving DecidableEq, Repr

namespace Bitmap

variable (bm : Bitmap)

/-- `bitmap_init_mem`: every page free. -/
def initMem (m : ByteMem) : Option ByteMem := memset 255 bm.length.toNat bm.vaddrHeader m

/-- The local `max_addr`; the `-1` comes before the addition so that a region ending at 4 GiB
does not wrap to zero. -/
def maxAddr : UInt32 := bm.targetAddrHeader - 1 + bm.length * 8 * pageSize

/-- The local `page_num` of a page address. -/
def pageNum (target : UInt32) : UInt32 := (target - bm.targetAddrHeader) / pageSize

/-- The local `byte_mask`: `1 << (7 - j)`. -/
def byteMask (j : UInt32) : UInt8 := 1 <<< (7 - j).toUInt8

/-- `bitmap_alloc_one_page`. -/
def allocOnePage (target : UInt32) (m : ByteMem) : Option (UInt32 × ByteMem) :=
  let target := target &&& 0xFFFFF000
  if bm.targetAddrHeader ≤ target ∧ target < bm.maxAddr then do
    let i := bm.pageNum target / 8
    let j := bm.pageNum target % 8
    let targetByte ← load m (bm.vaddrHeader + i)
    if targetByte = targetByte ||| byteMask j then
      let m ← store m (bm.vaddrHeader + i) (targetByte - byteMask j)
      some (target, m)
    else some (bitmapReturnErro, m)
  else some (bitmapReturnErro, m)

/-- `bitmap_release_one_page`. -/
def releaseOnePage (target : UInt32) (m : ByteMem) : Option ByteMem :=
  let target := target &&& 0xFFFFF000
  if bm.targetAddrHeader ≤ target ∧ target < bm.maxAddr then do
    let i := bm.pageNum target / 8
    let j := bm.pageNum target % 8
    let targetByte ← load m (bm.vaddrHeader + i)
    store m (bm.vaddrHeader + i) (targetByte ||| byteMask j)
  else some m

/-- The inner loop of `bitmap_alloc`: shift the byte left until its top bit is set.  It returns
the local `pos`, which stays uninitialised (`none`) when no bit is found. -/
def topBit : ℕ → UInt32 → UInt8 → Option UInt32
  | 0, _, _ => none
  | n + 1, j, byteNow =>
      if byteNow ≠ byteNow &&& 0x7F then some j else topBit n (j + 1) (byteNow <<< 1)

/-- The outer loop of `bitmap_alloc`, with `n` bytes left from index `i` on. -/
def allocLoop : ℕ → UInt32 → ByteMem → Option (UInt32 × ByteMem)
  | 0, _, m => some (bitmapReturnErro, m)
  | n + 1, i, m => do
      let byteNow ← load m (bm.vaddrHeader + i)
      if byteNow ≠ 0 then
        let pos ← topBit 8 0 byteNow
        let m ← store m (bm.vaddrHeader + i) (byteNow - byteMask pos)
        let pageNo := i * 8 + pos
        some (pageNo * pageSize + bm.targetAddrHeader, m)
      else allocLoop n (i + 1) m

/-- `bitmap_alloc`. -/
def alloc (m : ByteMem) : Option (UInt32 × ByteMem) := bm.allocLoop bm.length.toNat 0 m

end Bitmap

end BHOS
