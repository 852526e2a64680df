import Mathlib

/-!
# Fixed-size byte arrays with little-endian fields

A disk block, a memory page and every record laid over one of them are byte
arrays of a known size. Storage is a function on the positions of the array, so
two arrays are equal exactly when all their bytes are. Reads outside the array
give zero and writes outside it are dropped; the field laws ask for the field to
fit, so that no default can stand in for a stored byte.

Fields are read and written through byte ranges. Each law says either what a
field holds after it was written or that a disjoint write leaves it alone.
-/

/-- An array of exactly `size` bytes. -/
def Bytes (size : Nat) : Type := Fin size → UInt8

namespace Bytes

variable {size : Nat}

/-- The array whose byte at each position is given by a function. -/
def ofFn (value : Nat → UInt8) : Bytes size := fun position => value position

/-- The byte at a position, zero past the end. -/
def byte (array : Bytes size) (position : Nat) : UInt8 :=
  if inside : position < size then array ⟨position, inside⟩ else 0

/-- The array of zero bytes, as `memset` leaves it. -/
def zero : Bytes size := ofFn fun _ => 0

instance : Inhabited (Bytes size) := ⟨zero⟩

theorem byte_ofFn (value : Nat → UInt8) (position : Nat) (inside : position < size) :
    (ofFn value : Bytes size).byte position = value position := by
  simp [byte, ofFn, inside]

@[simp] theorem byte_zero (position : Nat) : (zero : Bytes size).byte position = 0 := by
  simp [byte, zero, ofFn]

/-- Arrays that agree at every position are equal. -/
theorem ext_byte {left right : Bytes size}
    (agree : ∀ position, position < size → left.byte position = right.byte position) :
    left = right := by
  funext position
  simpa [byte, position.isLt] using agree position position.isLt

/-- Copy `count` bytes of a source over the positions from `offset` on, the
`memmove` into a part of the array. -/
def blit (array : Bytes size) (offset count : Nat) (source : Nat → UInt8) : Bytes size :=
  ofFn fun position =>
    if offset ≤ position ∧ position < offset + count then source (position - offset)
    else array.byte position

/-- A copied range holds the source; every other byte is unchanged. -/
theorem byte_blit (array : Bytes size) (offset count : Nat) (source : Nat → UInt8)
    (position : Nat) (inside : position < size) :
    (array.blit offset count source).byte position =
      if offset ≤ position ∧ position < offset + count then source (position - offset)
      else array.byte position := by
  simp [blit, byte_ofFn, inside]

/-- Bytes outside the copied range are unchanged, past the end included. -/
theorem byte_blit_outside (array : Bytes size) (offset count : Nat) (source : Nat → UInt8)
    (position : Nat) (outside : position < offset ∨ offset + count ≤ position) :
    (array.blit offset count source).byte position = array.byte position := by
  by_cases inside : position < size
  · rw [byte_blit _ _ _ _ _ inside, if_neg (by omega)]
  · simp [byte, inside]

/-- The little-endian 16-bit field at a byte position. -/
def u16 (array : Bytes size) (position : Nat) : Nat :=
  (array.byte position).toNat + 256 * (array.byte (position + 1)).toNat

/-- The little-endian 32-bit field at a byte position. -/
def u32 (array : Bytes size) (position : Nat) : Nat :=
  (array.byte position).toNat + 256 * (array.byte (position + 1)).toNat +
    65536 * (array.byte (position + 2)).toNat + 16777216 * (array.byte (position + 3)).toNat

/-- The little-endian bytes of a number, lowest first. -/
def encode (value position : Nat) : UInt8 := UInt8.ofNat (value / 256 ^ position)

/-- Store a 32-bit field. -/
def putU32 (array : Bytes size) (position value : Nat) : Bytes size :=
  array.blit position 4 (encode value)

@[simp] theorem u32_zero (position : Nat) : (zero : Bytes size).u32 position = 0 := by
  simp [u32]

theorem u32_lt (array : Bytes size) (position : Nat) : array.u32 position < 2 ^ 32 := by
  have first := (array.byte position).toNat_lt
  have second := (array.byte (position + 1)).toNat_lt
  have third := (array.byte (position + 2)).toNat_lt
  have fourth := (array.byte (position + 3)).toNat_lt
  simp only [u32]
  omega

theorem encode_toNat (value position : Nat) :
    (encode value position).toNat = value / 256 ^ position % 256 := by
  simp [encode]

/-- A stored 32-bit field reads back, reduced to its width. -/
theorem u32_putU32 (array : Bytes size) (position value : Nat) (fits : position + 4 ≤ size) :
    (array.putU32 position value).u32 position = value % 2 ^ 32 := by
  simp only [u32, putU32]
  rw [byte_blit _ _ _ _ _ (by omega), byte_blit _ _ _ _ _ (by omega),
    byte_blit _ _ _ _ _ (by omega), byte_blit _ _ _ _ _ (by omega),
    if_pos (by omega), if_pos (by omega), if_pos (by omega), if_pos (by omega),
    encode_toNat, encode_toNat, encode_toNat, encode_toNat]
  simp only [Nat.sub_self, Nat.add_sub_cancel_left, Nat.reducePow]
  omega

/-- A copy that misses a 32-bit field leaves it alone. -/
theorem u32_blit_outside (array : Bytes size) (offset count : Nat) (source : Nat → UInt8)
    (position : Nat) (outside : position + 4 ≤ offset ∨ offset + count ≤ position) :
    (array.blit offset count source).u32 position = array.u32 position := by
  simp only [u32]
  rw [byte_blit_outside _ _ _ _ _ (by omega), byte_blit_outside _ _ _ _ _ (by omega),
    byte_blit_outside _ _ _ _ _ (by omega), byte_blit_outside _ _ _ _ _ (by omega)]

/-- Storing a 32-bit field leaves a disjoint one alone. -/
theorem u32_putU32_ne (array : Bytes size) (position other value : Nat)
    (apart : other + 4 ≤ position ∨ position + 4 ≤ other) :
    (array.putU32 position value).u32 other = array.u32 other :=
  u32_blit_outside array position 4 (encode value) other apart

end Bytes
