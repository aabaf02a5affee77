import OsKernel.Adt.Range
import OsKernel.Adt.MutableBuffer
import OsKernel.Base.MemoryBits

/-!
# Bitmaps (`lib/adt/bitmap.c`, `lib/memory.c`, `lib/string.c`, `kernel/stdlib.c`)

A bitmap is a buffer, bit `i` in bit `i % 8` of byte `i / 8`. Ranges of bits are written
and tested in three parts: what is left of the first byte, whole bytes, and the bits that
are left over in the last byte. The whole bytes are written by `memset_all_ones` and
`bzero` with words of falling size, and tested by four passes over words of falling size.

Pointers are addresses. A store of the `rep stosb` instruction is `n` stores of the same
byte.
-/

namespace OsKernel.Adt

/-- `struct bitmap`: where the buffer of the bits begins and ends. -/
structure Bitmap where
  begin : Nat
  end_ : Nat

/-- `mask_for_n_bits`. A shift by 64 or more has no meaning. -/
def maskForNBits (n : Nat) : Result Nat :=
  if n = 64 then .ok (U64 - 1)
  else
    let shift := (64 + U64 - n) % U64
    if shift < 64 then .ok ((U64 - 1) >>> shift) else .error .outOfBounds

/-- `set_bits_for_mask` on a byte. -/
def setBitsForMask (byte : UInt8) (mask : Nat) (value : Bool) : UInt8 :=
  if value then byte ||| UInt8.ofNat mask else byte &&& ~~~UInt8.ofNat mask

/-! ## Filling bytes -/

/-- `REP_MIN`. -/
def REP_MIN : Nat := 16

/-- `while (n >= sizeof(word))`: store the word, go on behind it. -/
def fillWords (size word : Nat) (m : Memory) (dst n : Nat) : Memory × Nat × Nat :=
  if _ : 0 < size ∧ size ≤ n then
    fillWords size word (m.store dst size word) (dst + size) (n - size)
  else (m, dst, n)
termination_by n

/-- The body that `memset_all_ones` and `bzero` share: `word size` is the word of `size` bytes. -/
def fillDescending (byte : UInt8) (word : Nat → Nat) (m : Memory) (dst n : Nat) : Memory :=
  if REP_MIN ≤ n then m.fill dst n byte
  else
    let (m, dst, n) := fillWords 8 (word 8) m dst n
    let (m, dst, n) := fillWords 4 (word 4) m dst n
    let (m, dst, n) := fillWords 2 (word 2) m dst n
    (fillWords 1 (word 1) m dst n).1

/-- `memset_all_ones`, which stores `UINT64_MAX`, `UINT32_MAX` and so on. -/
def memsetAllOnes (m : Memory) (dst n : Nat) : Memory :=
  fillDescending 255 (fun size => 2 ^ (8 * size) - 1) m dst n

/-- `bzero`. -/
def bzero (m : Memory) (dst n : Nat) : Memory := fillDescending 0 (fun _ => 0) m dst n

/-! ## Testing words -/

/-- `membuf_8_is_all` to `membuf_64_is_all`: every word of `size` bytes is `c`. -/
def membufIsAll (m : Memory) (size c : Nat) (buf : Nat) : Nat → Bool
  | 0 => true
  | count + 1 => if m.load buf size ≠ c then false else membufIsAll m size c (buf + size) count

/-- `index_range_in_bounds`, with `ordinal_in_bounds`. -/
def indexRangeInBounds (range : Range) (bounds : Nat) : Bool :=
  match range.getEnd with
  | none => false
  | some end_ => end_ ≠ 0 && end_ ≤ bounds

namespace Bitmap

/-- `bitmap_capacity`. Both the capacity of the buffer and the product have 32 bits. -/
def bitmapCapacity (bitmap : Bitmap) : Nat :=
  distance bitmap.begin bitmap.end_ % 2 ^ 32 * 8 % 2 ^ 32

/-- `bitmap_at`. -/
def bitmapAt (bitmap : Bitmap) (m : Memory) (index : Nat) : Bool :=
  (m (bitmap.begin + index / 8)).toNat &&& (1 <<< (index % 8)) != 0

/-! ## `bitmap_set_range` -/

/-- The bits in the first byte, if the range begins inside it. -/
def setFirstByte (m : Memory) (ptr firstByteBitIndex bitsLeft : Nat) (value : Bool) :
    Result (Memory × Nat × Nat) :=
  if firstByteBitIndex ≠ 0 then do
    let firstByteBitCount := min bitsLeft (8 - firstByteBitIndex)
    let mask ← maskForNBits firstByteBitCount
    let firstByteMask := mask <<< firstByteBitIndex % 2 ^ 8
    pure (m.setByte ptr (setBitsForMask (m ptr) firstByteMask value), ptr + 1,
      bitsLeft - firstByteBitCount)
  else .ok (m, ptr, bitsLeft)

/-- The whole bytes. -/
def setWholeBytes (m : Memory) (ptr bitsLeft : Nat) (value : Bool) : Memory × Nat × Nat :=
  let memsetByteCount := bitsLeft / 8
  if memsetByteCount ≠ 0 then
    (if value then memsetAllOnes m ptr memsetByteCount else bzero m ptr memsetByteCount,
      ptr + memsetByteCount, bitsLeft - memsetByteCount * 8)
  else (m, ptr, bitsLeft)

/-- The bits in the last byte. -/
def setLastByte (m : Memory) (ptr bitsLeft : Nat) (value : Bool) : Result Memory :=
  if bitsLeft ≠ 0 then do
    let mask ← maskForNBits bitsLeft
    pure (m.setByte ptr (setBitsForMask (m ptr) mask value))
  else .ok m

/-- `bitmap_set_range`. -/
def bitmapSetRange (bitmap : Bitmap) (m : Memory) (range : Range) (value : Bool) :
    Result Memory := do
  let (m, ptr, bitsLeft) ←
    setFirstByte m (bitmap.begin + range.front / 8) (range.front % 8) range.size value
  let (m, ptr, bitsLeft) := setWholeBytes m ptr bitsLeft value
  setLastByte m ptr bitsLeft value

/-! ## `bitmap_has` -/

/-- How a part of `bitmap_has` ends: it returns, or goes on at a byte with so many bits to test. -/
inductive Stage where
  | done (result : Bool)
  | left (ptr count : Nat)

/-- The bits in the first byte, if the range begins inside it. -/
def hasFirstByte (m : Memory) (ptr firstByteBitIndex count : Nat) (value : Bool) : Result Stage :=
  if firstByteBitIndex ≠ 0 then do
    let firstByteShifted := (m ptr).toNat >>> firstByteBitIndex
    let firstByteBitsCount := min count (8 - firstByteBitIndex)
    let mask ← maskForNBits firstByteBitsCount
    if (firstByteShifted &&& mask) % 2 ^ 8 ≠ ((Memory.byteOf value).toNat &&& mask) % 2 ^ 8 then
      pure (.done false)
    else if count - firstByteBitsCount = 0 then pure (.done true)
    else pure (.left (ptr + 1) (count - firstByteBitsCount))
  else .ok (.left ptr count)

/--
`CHECK_MEMBUF_ALL_BITS_OF_VALUE` for words of `size` bytes. The number of words is kept in eight
bits, and `ptr` is not moved past the words that were tested.
-/
def checkMembuf (m : Memory) (value : Bool) (size : Nat) : Stage → Stage
  | .done result => .done result
  | .left ptr count =>
    let wordCount := count / 8 / size % 2 ^ 8
    if wordCount ≠ 0 then
      if !membufIsAll m size (Memory.wordOf value size) ptr wordCount then .done false
      else if count - size * wordCount * 8 = 0 then .done true
      else .left ptr (count - size * wordCount * 8)
    else .left ptr count

/-- The bits in the last byte. -/
def hasLastByte (m : Memory) (value : Bool) : Stage → Result Bool
  | .done result => .ok result
  | .left ptr count => do
    let mask ← maskForNBits count
    pure (((m ptr).toNat &&& mask) % 2 ^ 8 == ((Memory.byteOf value).toNat &&& mask) % 2 ^ 8)

/-- `bitmap_has`. -/
def bitmapHas (bitmap : Bitmap) (m : Memory) (range : Range) (value : Bool) : Result Bool :=
  if range.size = 0 then .error .panic
  else if !indexRangeInBounds range bitmap.bitmapCapacity then .error .panic
  else do
    let stage ←
      hasFirstByte m (bitmap.begin + range.front / 8) (range.front % 8) range.size value
    let stage := checkMembuf m value 8 stage
    let stage := checkMembuf m value 4 stage
    let stage := checkMembuf m value 2 stage
    let stage := checkMembuf m value 1 stage
    hasLastByte m value stage

end Bitmap

end OsKernel.Adt
