import TlsWire.Uint

/-!
# Variable-length integers

A varint occupies 1, 2, 4 or 8 bytes. The top two bits of its first byte are the *class*, which
tells that length; the number has the other bits, so a class has `room` for a quarter of the
numbers that its bytes could hold. Encoding takes the least class that has room for the number;
decoding accepts any class.
-/

namespace TlsWire.Varint

/-- The number of bytes in a form of the given class. -/
def formLength : (cls : Nat) → Nat
  | 0 => 1
  | 1 => 2
  | 2 => 4
  | _ => 8

/-- How many numbers have a form of the given class. -/
def room (cls : Nat) : Nat := byteRange (formLength cls) / 4

/-- The largest number that a varint holds. -/
def max : Nat := room 3 - 1

/-- The least class that has room for `n`. -/
def class? (n : Nat) : Option Nat := [0, 1, 2, 3].find? fun cls => decide (n < room cls)

/-- The length of the shortest form of `n`, if it has one. -/
def length? (n : Nat) : Option Nat := (class? n).map formLength

/-- The shortest form of `n`: its class in the top two bits, then `n`. -/
def encode (n : Nat) : Except Overflow Bytes :=
  match class? n with
  | some cls => .ok (bigEndian (formLength cls) (cls * room cls + n))
  | none => .error ⟨n, max⟩

/-- Reads a number in a form of any class. -/
def decode (c : Cursor) : Except Truncated (Nat × Cursor) :=
  match c.rest with
  | [] => .error ⟨1, 0⟩
  | first :: _ => do
    -- The first byte is only looked at: it belongs to the form that is read next.
    let cls := first.toNat / 64
    let (raw, c) ← Uint.decode (formLength cls) c
    return (raw % room cls, c)

theorem class?_isSome (n : Nat) : (class? n).isSome = true ↔ n ≤ max := by
  simp only [class?, max, List.find?_isSome, List.mem_cons, decide_eq_true_eq]
  have hroom : room 0 = 0x40 ∧ room 1 = 0x4000 ∧ room 2 = 0x40000000 ∧
      room 3 = 0x4000000000000000 := by decide
  constructor
  · rintro ⟨cls, rfl | rfl | rfl | rfl | h, hn⟩
    · omega
    · omega
    · omega
    · omega
    · cases h
  · intro h
    exact ⟨3, by simp, by omega⟩

theorem encode_eq_error {n : Nat} {o : Overflow} :
    encode n = .error o ↔ max < n ∧ o = ⟨n, max⟩ := by
  have h := class?_isSome n
  unfold encode
  cases hc : class? n with
  | none =>
    have hlt : max < n := by simpa [hc] using h
    simp [hlt, eq_comm]
  | some cls =>
    have hle : n ≤ max := by simpa [hc] using h
    simp [Nat.not_lt.mpr hle]

end TlsWire.Varint
