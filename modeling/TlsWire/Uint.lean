import TlsWire.Cursor

/-!
# Fixed-width unsigned integers

A width of `w` bytes, at most eight, holds the numbers below `byteRange w`. Encoding a larger
number is an `Overflow`; everything else is laid out big-endian.
-/

namespace TlsWire

/-- A number does not fit the encoding chosen for it. -/
structure Overflow where
  value : Nat
  max : Nat
deriving DecidableEq, Repr

/-- The wording of an overflow. -/
def Overflow.message (o : Overflow) : String :=
  s!"value {o.value} exceeds encodable maximum {o.max}"

namespace Uint

/-- The largest number that `width` bytes hold; numbers never exceed eight bytes. -/
def max (width : Nat) : Nat := byteRange (min width 8) - 1

/-- The `width`-byte form of `n`. -/
def encode (width n : Nat) : Except Overflow Bytes :=
  if n ≤ max width then .ok (bigEndian width n) else .error ⟨n, max width⟩

/-- Reads a number of exactly `width` bytes. -/
def decode (width : Nat) (c : Cursor) : Except Truncated (Nat × Cursor) := do
  let (bytes, c) ← c.take width
  return (ofBigEndian bytes, c)

theorem max_lt (width : Nat) : max width < byteRange width := by
  have hpos := byteRange_pos (min width 8)
  have hle := byteRange_le (Nat.min_le_left width 8)
  unfold max
  omega

theorem encode_eq_ok {width n : Nat} {bytes : Bytes} :
    encode width n = .ok bytes ↔ n ≤ max width ∧ bytes = bigEndian width n := by
  unfold encode
  split
  case isTrue h => simp [h, eq_comm]
  case isFalse h => simp [h]

theorem encode_eq_error {width n : Nat} {o : Overflow} :
    encode width n = .error o ↔ max width < n ∧ o = ⟨n, max width⟩ := by
  unfold encode
  split
  case isTrue h => simp [Nat.not_lt.mpr h]
  case isFalse h => simp [Nat.lt_of_not_le h, eq_comm]

/-- A number that a width has room for is one that can be written in it. -/
theorem encode_of_lt {width n : Nat} (hwidth : width ≤ 8) (h : n < byteRange width) :
    encode width n = .ok (bigEndian width n) := by
  refine encode_eq_ok.mpr ⟨?_, rfl⟩
  rw [max, Nat.min_eq_left hwidth]
  omega

end Uint

end TlsWire
