import TlsWire.Proofs.Encode.InPlace
import Mathlib.Algebra.Group.Nat.Defs

/-!
# The varint codec

A writer takes the least class that has room for a number and sets it in the first byte. A reader
knows nothing of that choice: it takes as many bytes as the two bits at the top of the first one
say, and masks these bits. Both have the same boundaries, `2 ^ 6`, `2 ^ 14`, `2 ^ 30` and `2 ^ 62`
(`Varint.length?_eq`, `Varint.masked_eq_mod`), so that what is written is read back, and what is
read is written in the same bytes unless there is a shorter form (`Varint.Form.eq_encode_iff`).
-/

namespace TlsWire

namespace Varint

variable {n : Nat} {b bytes : Bytes} {c c' : Cursor}

/-- The largest number takes all of the room in the largest class. -/
theorem max_eq : max = 2 ^ 62 - 1 := by decide

/-- The numbers that have a form are those below the boundary of the largest class. -/
theorem le_max_iff : n ≤ max ↔ n < 2 ^ 62 := by
  rw [max_eq]
  exact Nat.le_sub_one_iff_lt (by decide)

/-- The search for a class, written out. -/
theorem class?_eq (n : Nat) :
    class? n =
      if n < room 0 then some 0
      else if n < room 1 then some 1
      else if n < room 2 then some 2
      else if n < room 3 then some 3
      else none := by
  simp only [class?, List.find?_cons, List.find?_nil]
  repeat' split
  all_goals simp_all

/-- The length of the shortest form by the boundaries of the classes. -/
theorem length?_eq (n : Nat) :
    length? n =
      if n < 2 ^ 6 then some 1
      else if n < 2 ^ 14 then some 2
      else if n < 2 ^ 30 then some 4
      else if n < 2 ^ 62 then some 8
      else none := by
  have hroom : room 0 = 2 ^ 6 ∧ room 1 = 2 ^ 14 ∧ room 2 = 2 ^ 30 ∧ room 3 = 2 ^ 62 := by decide
  obtain ⟨h0, h1, h2, h3⟩ := hroom
  rw [length?, class?_eq, h0, h1, h2, h3]
  simp only [apply_ite (Option.map formLength), Option.map_some, Option.map_none, formLength]

/-- What is written is as long as its class says. -/
theorem length?_of_encode (h : encode n = .ok b) : length? n = some b.length := by
  obtain ⟨cls, hclass, rfl⟩ := encode_ok.mp h
  rw [length?, hclass, Option.map_some, length_bigEndian]

/-- Lengths tell the classes apart. -/
theorem class_of_formLength {cls cls' : Nat} (hcls : cls < 4) (hcls' : cls' < 4)
    (h : formLength cls = formLength cls') : cls = cls' := by
  have hall : ∀ cls < 4, ∀ cls' < 4, formLength cls = formLength cls' → cls = cls' := by decide
  exact hall cls hcls cls' hcls' h

/-- A number is what is left of any of its forms when the class is masked out. -/
theorem Form.eq_masked (h : Form n b) : n = ofBigEndian b &&& (Uint.max b.length >>> 2) := by
  obtain ⟨cls, hcls, hroom⟩ := h
  have hraw : cls * room cls + n < byteRange (formLength cls) := class_mul_room_add_lt hcls hroom
  rw [length_bigEndian, masked_eq_mod hcls, ofBigEndian_bigEndian, Nat.mod_eq_of_lt hraw,
    Nat.mul_comm, Nat.mul_add_mod, Nat.mod_eq_of_lt hroom]

/-- The first byte of a form tells its length by the two bits at its top. -/
theorem Form.length_eq_shift (h : Form n b) :
    ∃ first, b.head? = some first ∧ b.length = 1 <<< (first.toNat >>> 6) := by
  obtain ⟨cls, hcls, hroom⟩ := h
  obtain ⟨first, tail, hform, hclass⟩ := head_form hcls hroom
  -- To shift six bits out is to divide by 64, which is how the class is read off a form.
  have hshift : first.toNat >>> 6 = cls := (Nat.shiftRight_eq_div_pow _ 6).trans hclass
  refine ⟨first, by rw [hform, List.head?_cons], ?_⟩
  rw [length_bigEndian, hshift, formLength_eq_shift hcls]

/-- There are four lengths, one for each class. -/
theorem Form.length_mem (h : Form n b) : b.length ∈ [1, 2, 4, 8] := by
  obtain ⟨cls, hcls, _⟩ := h
  have hall : ∀ cls < 4, formLength cls ∈ [1, 2, 4, 8] := by decide
  rw [length_bigEndian]
  exact hall cls hcls

/-- Of all forms of a number the one that is written is told by its length. -/
theorem Form.eq_encode_iff (hform : Form n bytes) (h : encode n = .ok b) :
    b = bytes ↔ length? n = some bytes.length := by
  constructor
  · rintro rfl
    exact length?_of_encode h
  · intro hlength
    -- A number has one form in each class, so forms of the same length are the same.
    obtain ⟨cls, hclass, rfl⟩ := encode_ok.mp h
    obtain ⟨cls', hcls', _⟩ := hform
    rw [length?, hclass, Option.map_some, length_bigEndian] at hlength
    rw [class_of_formLength (class?_eq_some hclass).1 hcls' (Option.some.inj hlength)]

/-- A scope that is shorter than the shortest form of a number does not show it. -/
theorem decode_ne_ok_of_short (h : encode n = .ok b) (hshort : c.remaining < b.length) :
    decode c ≠ .ok (n, c') := by
  intro hdecode
  obtain ⟨bytes, hform, hadv⟩ := decode_ok.mp hdecode
  -- A read would take a form from the scope, which is no shorter than the shortest one.
  have hle : b.length ≤ bytes.length := length_le_of_encode h hform
  have hheld : bytes.length ≤ c.remaining := by
    rw [hadv.remaining]
    exact Nat.le_add_right _ _
  omega

end Varint

namespace Encoder

variable {n : Nat} {b : Bytes}

/-- The form is appended behind what is there. -/
theorem varint_of_encode (h : Varint.encode n = .ok b) (dst : Buffer) :
    varint n dst = .ok () (dst ++ b.toArray) := by
  rw [varint, h]
  rfl

/-- A number without a form is reported together with the largest one that has a form. -/
theorem varint_of_le (h : 2 ^ 62 ≤ n) (dst : Buffer) :
    varint n dst = .error (.overflow ⟨n, 2 ^ 62 - 1⟩) dst := by
  have hlt : Varint.max < n := by
    rw [Varint.max_eq]
    omega
  rw [varint, Varint.encode_eq_error.mpr ⟨hlt, rfl⟩, Varint.max_eq]
  rfl

end Encoder

/-- **The varint codec.** A number has a form exactly if it is below `2 ^ 62`: then as many bytes
are appended as `length?` says, also if the class is set in place; otherwise the overflow is
reported, and the buffer is left as it was.

The form is read back whatever follows, without anything behind it, and no shorter scope shows the
number. Conversely a read moves over 1, 2, 4 or 8 bytes, as told by the two bits at the top of the
first one, and gives what they hold below these bits. Its number is written in no more bytes than
that, and in the same ones exactly if their number is the one that `length?` says. -/
theorem Varint.codec_exact :
    (∀ n dst,
      (n < 2 ^ 62 → ∃ b, encode n = .ok b ∧ length? n = some b.length ∧
        Encoder.varint n dst = .ok () (dst ++ b.toArray) ∧
        Encoder.varintInPlace n dst = .ok () (dst ++ b.toArray)) ∧
      (2 ^ 62 ≤ n →
        Encoder.varint n dst = .error (.overflow ⟨n, 2 ^ 62 - 1⟩) dst ∧
        Encoder.varintInPlace n dst = .error (.overflow ⟨n, 2 ^ 62 - 1⟩) dst)) ∧
    (∀ n b, encode n = .ok b →
      (∀ c : Cursor, ∀ t, c.rest = b ++ t →
        ∃ c', decode c = .ok (n, c') ∧ c.Advances b c' ∧ c'.rest = t) ∧
      ∀ c c' : Cursor, c.remaining < b.length → decode c ≠ .ok (n, c')) ∧
    (∀ (c c' : Cursor) n, decode c = .ok (n, c') →
      ∃ bytes first, c.Advances bytes c' ∧ bytes.head? = some first ∧
        bytes.length = 1 <<< (first.toNat >>> 6) ∧ bytes.length ∈ [1, 2, 4, 8] ∧
        n = ofBigEndian bytes &&& (Uint.max bytes.length >>> 2) ∧ n < 2 ^ 62 ∧
        ∃ b, encode n = .ok b ∧ b.length ≤ bytes.length ∧
          (b = bytes ↔ length? n = some bytes.length)) := by
  refine ⟨fun n dst => ⟨fun hn => ?_, fun hn => ?_⟩, fun n b h => ⟨fun c t hrest => ?_, ?_⟩, ?_⟩
  · obtain ⟨b, hb⟩ := exists_encode (le_max_iff.mpr hn)
    rw [Encoder.varintInPlace_eq]
    exact ⟨b, hb, length?_of_encode hb, Encoder.varint_of_encode hb dst,
      Encoder.varint_of_encode hb dst⟩
  · rw [Encoder.varintInPlace_eq]
    exact ⟨Encoder.varint_of_le hn dst, Encoder.varint_of_le hn dst⟩
  · obtain ⟨c', hadv, hc'⟩ := Cursor.exists_advances hrest
    exact ⟨c', decode_ok.mpr ⟨b, form_of_encode h, hadv⟩, hadv, hc'⟩
  · exact fun c c' => decode_ne_ok_of_short h
  · intro c c' n hdecode
    obtain ⟨bytes, hform, hadv⟩ := decode_ok.mp hdecode
    obtain ⟨first, hfirst, hlength⟩ := hform.length_eq_shift
    obtain ⟨b, hb⟩ := hform.exists_encode
    exact ⟨bytes, first, hadv, hfirst, hlength, hform.length_mem, hform.eq_masked,
      le_max_iff.mp hform.le_max, b, hb, length_le_of_encode hb hform, hform.eq_encode_iff hb⟩

/-- Five is read from two bytes, but not written in these; the least number that needs two bytes is
shown by no scope of one; and the least number of all that have no form leaves every buffer as it
is. -/
theorem Varint.codec_exact_long_form :
    (∃ c', decode (.ofBytes [0x40, 5, 9]) = .ok (5, c') ∧ c'.rest = [9]) ∧
    (∃ b, encode 5 = .ok b ∧ b.length ≤ 2 ∧ b ≠ [0x40, 5]) ∧
    (∀ c c' : Cursor, c.remaining < 2 → decode c ≠ .ok (64, c')) ∧
    (∀ dst, Encoder.varintInPlace (2 ^ 62) dst =
      .error (.overflow ⟨2 ^ 62, 2 ^ 62 - 1⟩) dst) := by
  obtain ⟨hwrite, hread, hback⟩ := codec_exact
  have hdecode : decode (.ofBytes [0x40, 5, 9]) = .ok (5, ⟨[9], 0, 2, 1, rfl⟩) := rfl
  refine ⟨⟨_, hdecode, rfl⟩, ?_, (hread 64 [0x40, 0x40] rfl).2,
    fun dst => ((hwrite (2 ^ 62) dst).2 (Nat.le_refl _)).2⟩
  obtain ⟨bytes, _, hadv, _, _, _, _, _, b, hb, hle, hsame⟩ := hback _ _ _ hdecode
  have hrest : [0x40, 5] ++ [9] = bytes ++ [9] := hadv.rest
  obtain rfl : [0x40, 5] = bytes := List.append_cancel_right hrest
  have hlong : length? 5 ≠ some 2 := by decide
  exact ⟨b, hb, hle, fun h => hlong (hsame.mp h)⟩

end TlsWire
