/-!
# Bytes and big-endian numbers

Wire data is a list of bytes. Encoders collect their output in a `Buffer`, an array that only
ever grows at its end.

A number is laid out most significant byte first. `bigEndian w n` is the `w`-byte form of `n`
and `ofBigEndian` reads such a form back. Both are plain arithmetic on `Nat`:

* `length_bigEndian` — a form of width `w` has `w` bytes;
* `ofBigEndian_bigEndian` — reading a form gives the number modulo `byteRange w`;
* `bigEndian_ofBigEndian` — every byte list is the form of the number it reads as.
-/

namespace TlsWire

/-- A finite sequence of bytes, as found on the wire. -/
abbrev Bytes := List UInt8

/-- The output of an encoder. -/
abbrev Buffer := Array UInt8

/-- How many numbers have a form of `width` bytes. -/
def byteRange : (width : Nat) → Nat
  | 0 => 1
  | width + 1 => byteRange width * 256

/-- The low `width` bytes of `n`, most significant first. -/
def bigEndian : (width n : Nat) → Bytes
  | 0, _ => []
  | width + 1, n => UInt8.ofNat (n / byteRange width) :: bigEndian width n

/-- The number whose big-endian form is `bytes`. -/
def ofBigEndian (bytes : Bytes) : Nat :=
  bytes.foldl (fun n b => n * 256 + b.toNat) 0

theorem byteRange_pos (width : Nat) : 0 < byteRange width := by
  induction width with
  | zero => decide
  | succ width ih => exact Nat.mul_pos ih (by decide)

theorem byteRange_add (v w : Nat) : byteRange (v + w) = byteRange v * byteRange w := by
  induction w with
  | zero => simp [byteRange]
  | succ w ih => rw [← Nat.add_assoc, byteRange, byteRange, ih, Nat.mul_assoc]

theorem byteRange_le {v w : Nat} (h : v ≤ w) : byteRange v ≤ byteRange w := by
  obtain ⟨k, rfl⟩ := Nat.exists_eq_add_of_le h
  rw [byteRange_add]
  exact Nat.le_mul_of_pos_right _ (byteRange_pos k)

@[simp] theorem length_bigEndian (width n : Nat) : (bigEndian width n).length = width := by
  induction width with
  | zero => rfl
  | succ width ih => simp [bigEndian, ih]

/-- The lower bytes of a form are a form of their own. -/
theorem drop_bigEndian (k width n : Nat) :
    (bigEndian (k + width) n).drop k = bigEndian width n := by
  induction k with
  | zero => rw [Nat.zero_add, List.drop_zero]
  | succ k ih =>
    rw [Nat.add_right_comm, bigEndian, List.drop_succ_cons]
    exact ih

@[simp] theorem ofBigEndian_nil : ofBigEndian [] = 0 := rfl

/-- Digits read so far are shifted up by every byte that follows. -/
theorem foldl_bigEndian (bytes : Bytes) (n : Nat) :
    bytes.foldl (fun n b => n * 256 + b.toNat) n =
      n * byteRange bytes.length + ofBigEndian bytes := by
  induction bytes generalizing n with
  | nil => simp [byteRange]
  | cons b bytes ih =>
    rw [ofBigEndian, List.foldl_cons, List.foldl_cons, ih, ih (0 * 256 + b.toNat),
      List.length_cons, byteRange, Nat.mul_comm (byteRange _) 256, Nat.add_mul, Nat.mul_assoc,
      Nat.zero_mul, Nat.zero_add, Nat.add_assoc]

theorem ofBigEndian_cons (b : UInt8) (bytes : Bytes) :
    ofBigEndian (b :: bytes) = b.toNat * byteRange bytes.length + ofBigEndian bytes := by
  rw [ofBigEndian, List.foldl_cons, foldl_bigEndian, Nat.zero_mul, Nat.zero_add]

theorem ofBigEndian_lt (bytes : Bytes) : ofBigEndian bytes < byteRange bytes.length := by
  induction bytes with
  | nil => simp [byteRange]
  | cons b bytes ih =>
    have hb : b.toNat + 1 ≤ 256 := b.toNat_lt
    rw [ofBigEndian_cons, List.length_cons, byteRange, Nat.mul_comm (byteRange _) 256]
    calc b.toNat * byteRange bytes.length + ofBigEndian bytes
        < b.toNat * byteRange bytes.length + byteRange bytes.length := by omega
      _ = (b.toNat + 1) * byteRange bytes.length := by rw [Nat.add_mul, Nat.one_mul]
      _ ≤ 256 * byteRange bytes.length := Nat.mul_le_mul_right _ hb

theorem ofBigEndian_bigEndian (width n : Nat) :
    ofBigEndian (bigEndian width n) = n % byteRange width := by
  induction width with
  | zero => simp [bigEndian, byteRange, Nat.mod_one]
  | succ width ih =>
    rw [bigEndian, ofBigEndian_cons, length_bigEndian, ih, byteRange, Nat.mod_mul,
      UInt8.toNat_ofNat', Nat.mul_comm, Nat.add_comm]

/-- Only the value below `byteRange width` is laid out. -/
theorem bigEndian_mod (width n : Nat) :
    bigEndian width (n % byteRange width) = bigEndian width n := by
  suffices h : ∀ k, k ≤ width → bigEndian k (n % byteRange width) = bigEndian k n from
    h width (Nat.le_refl width)
  intro k hk
  induction k with
  | zero => rfl
  | succ k ih =>
    obtain ⟨j, rfl⟩ := Nat.exists_eq_add_of_le hk
    rw [bigEndian, bigEndian, ih (by omega)]
    congr 1
    apply UInt8.toNat_inj.mp
    rw [UInt8.toNat_ofNat', UInt8.toNat_ofNat', byteRange_add, byteRange, Nat.mul_assoc,
      Nat.mod_mul_right_div_self, Nat.mod_mod_of_dvd]
    exact Nat.dvd_mul_right _ _

theorem bigEndian_ofBigEndian (bytes : Bytes) :
    bigEndian bytes.length (ofBigEndian bytes) = bytes := by
  induction bytes with
  | nil => rfl
  | cons b bytes ih =>
    have hlt := ofBigEndian_lt bytes
    have hdiv : (b.toNat * byteRange bytes.length + ofBigEndian bytes) / byteRange bytes.length
        = b.toNat := by
      rw [Nat.mul_comm, Nat.mul_add_div (byteRange_pos _), Nat.div_eq_of_lt hlt, Nat.add_zero]
    have hmod : (b.toNat * byteRange bytes.length + ofBigEndian bytes) % byteRange bytes.length
        = ofBigEndian bytes := by
      rw [Nat.mul_comm, Nat.mul_add_mod, Nat.mod_eq_of_lt hlt]
    rw [List.length_cons, bigEndian, ofBigEndian_cons, hdiv, UInt8.ofNat_toNat,
      ← bigEndian_mod, hmod, ih]

end TlsWire
