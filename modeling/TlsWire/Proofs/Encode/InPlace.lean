import TlsWire.Proofs.Run
import TlsWire.Proofs.Varint

/-!
# Varints written in place

`Encoder.varint` computes the form of a number before it appends it. A writer that works on the
buffer itself appends the number at its full width and then sets the class in the first byte of what
it has appended, which is where the buffer ended before (`Encoder.varintInPlace`). Both do the same
to every buffer (`Encoder.varintInPlace_eq`): the byte that is changed afterwards is never one that
was there already.
-/

namespace TlsWire

/-- The class that goes with a length, in the top two bits of a byte. -/
def Varint.classBits : (length : Nat) → UInt8
  | 1 => 0x00
  | 2 => 0x40
  | 4 => 0x80
  | _ => 0xC0

/-- Appends a number, then sets its class in the byte at which the buffer ended before. -/
def Encoder.varintInPlace (n : Nat) : Encoder Unit :=
  match Varint.length? n with
  | none => throw (.overflow ⟨n, Varint.max⟩)
  | some length => do
    let start := (← get).size
    uint length n
    modify fun dst => dst.modify start (· ||| Varint.classBits length)

namespace Varint

/-- Six bits below the class do not reach into it. -/
theorem ofNat_or_classBits {cls n : Nat} (hcls : cls < 4) (hn : n < 64) :
    UInt8.ofNat n ||| classBits (formLength cls) = UInt8.ofNat (cls * 64 + n) := by
  have hall : ∀ cls < 4, ∀ n < 64,
      UInt8.ofNat n ||| classBits (formLength cls) = UInt8.ofNat (cls * 64 + n) := by
    decide +kernel
  exact hall cls hcls n hn

/-- The form of a number in a class is the number at full width, but for the class in the first
byte. -/
theorem exists_classed {cls n : Nat} (hcls : cls < 4) (hroom : n < room cls) :
    ∃ first tail, bigEndian (formLength cls) n = first :: tail ∧
      bigEndian (formLength cls) (cls * room cls + n) =
        (first ||| classBits (formLength cls)) :: tail := by
  obtain ⟨k, hlength, hk⟩ := exists_room cls
  have hsize : room cls = 64 * byteRange k := hk hcls
  have hpos : 0 < byteRange k := byteRange_pos k
  -- Above the `k` bytes behind the first one, the class adds multiples of 64, and below them
  -- nothing.
  have hsplit : cls * room cls + n = byteRange k * (cls * 64) + n := by
    rw [hsize, ← Nat.mul_assoc, Nat.mul_comm]
  have hfirst : n / byteRange k < 64 := by
    refine Nat.div_lt_of_lt_mul ?_
    rwa [Nat.mul_comm, ← hsize]
  have hdiv : (cls * room cls + n) / byteRange k = cls * 64 + n / byteRange k := by
    rw [hsplit, Nat.mul_add_div hpos]
  have hmod : (cls * room cls + n) % byteRange k = n % byteRange k := by
    rw [hsplit, Nat.mul_add_mod]
  refine ⟨UInt8.ofNat (n / byteRange k), bigEndian k n, by rw [hlength, bigEndian], ?_⟩
  rw [ofNat_or_classBits hcls hfirst, hlength, bigEndian, hdiv]
  -- The bytes after the first one do not see the class.
  rw [← bigEndian_mod k (cls * room cls + n), hmod, bigEndian_mod]

/-- At full width there is room for every number of the class. -/
theorem encode_full {cls n : Nat} (hcls : cls < 4) (hroom : n < room cls) :
    Uint.encode (formLength cls) n = .ok (bigEndian (formLength cls) n) := by
  have hfour : 4 * room cls = byteRange (formLength cls) := room_mul_four hcls
  exact Uint.encode_of_lt (formLength_le_eight cls) (by omega)

end Varint

namespace Encoder

/-- Changing the byte at the old end of a buffer changes the first byte that was appended. -/
theorem modify_append_cons (dst : Buffer) (first : UInt8) (tail : Bytes) (f : UInt8 → UInt8) :
    (dst ++ (first :: tail).toArray).modify dst.size f = dst ++ (f first :: tail).toArray := by
  -- By induction on what is there already, which is skipped byte by byte.
  have hlist : ∀ before : Bytes,
      (before ++ first :: tail).modify before.length f = before ++ f first :: tail := by
    intro before
    induction before with
    | nil => rfl
    | cons b before ih =>
      show b :: (before ++ first :: tail).modify before.length f = _
      rw [ih, List.cons_append]
  apply Array.toList_inj.mp
  rw [Array.toList_modify, Array.toList_append, Array.toList_append]
  exact hlist dst.toList

/-- Setting the class afterwards comes to the same as writing the form of the number. -/
theorem varintInPlace_eq (n : Nat) (dst : Buffer) : varintInPlace n dst = varint n dst := by
  unfold varintInPlace varint Varint.encode Varint.length?
  cases hclass : Varint.class? n with
  | none => rfl
  | some cls =>
    obtain ⟨hcls, hroom⟩ := Varint.class?_eq_some hclass
    obtain ⟨first, tail, hplain, hclassed⟩ := Varint.exists_classed hcls hroom
    have hfull : uint (Varint.formLength cls) n = append (first :: tail) := by
      rw [uint, Varint.encode_full hcls hroom, hplain]
      rfl
    simp only [Option.map_some]
    rw [hfull, hclassed]
    show EStateM.Result.ok () ((dst ++ (first :: tail).toArray).modify dst.size _) = _
    rw [modify_append_cons]
    rfl

end Encoder

end TlsWire
