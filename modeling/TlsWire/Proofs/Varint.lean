import TlsWire.Proofs.Cursor.Advance
import TlsWire.Varint

/-!
# Forms of a varint

`Varint.Form n b` says that `b` is a form of `n` in some class. A number has a form in every class
that has room for it.

* `decode_ok` — reading accepts exactly the forms, minimal or not;
* `encode_ok` — writing takes the form of the least class, which is the shortest one
  (`length_le_of_encode`).
-/

namespace TlsWire

namespace Varint

/-- A form of any class that has room for the number. -/
inductive Form (n : Nat) : Bytes → Prop where
  | ofClass (cls : Nat) (hcls : cls < 4) (hroom : n < room cls) :
      Form n (bigEndian (formLength cls) (cls * room cls + n))

/-- No form is empty. -/
theorem formLength_pos (cls : Nat) : 0 < formLength cls := by
  unfold formLength
  split <;> decide

/-- The class takes a quarter of what the bytes of a form hold. -/
theorem room_mul_four {cls : Nat} (h : cls < 4) : 4 * room cls = byteRange (formLength cls) := by
  have hall : ∀ cls < 4, 4 * room cls = byteRange (formLength cls) := by decide
  exact hall cls h

/-- Every class has room for zero. -/
theorem room_pos {cls : Nat} (h : cls < 4) : 0 < room cls := by
  have := room_mul_four h
  have := byteRange_pos (formLength cls)
  omega

/-- A class and a number that it has room for fit into the bytes of a form together. -/
theorem class_mul_room_add_lt {cls n : Nat} (hcls : cls < 4) (hn : n < room cls) :
    cls * room cls + n < byteRange (formLength cls) := by
  rw [← room_mul_four hcls]
  have hle : (cls + 1) * room cls ≤ 4 * room cls := Nat.mul_le_mul_right _ hcls
  rw [Nat.add_mul, Nat.one_mul] at hle
  omega

/-- The length of a form as the two bits of its class give it. -/
theorem formLength_eq_shift {cls : Nat} (h : cls < 4) : formLength cls = 1 <<< cls := by
  have hall : ∀ cls < 4, formLength cls = 1 <<< cls := by decide
  exact hall cls h

theorem formLength_le_eight (cls : Nat) : formLength cls ≤ 8 := by
  unfold formLength
  split <;> decide

/-- A class takes up the two bits above what its mask leaves. -/
theorem masked_eq_mod {cls : Nat} (h : cls < 4) (raw : Nat) :
    raw &&& (Uint.max (formLength cls) >>> 2) = raw % room cls := by
  -- The room of each class is a power of two, and the mask is all the bits below it.
  have hall : ∃ k, room cls = 2 ^ k ∧ Uint.max (formLength cls) >>> 2 = 2 ^ k - 1 := by
    rcases cls with _ | _ | _ | _ | cls
    · exact ⟨6, rfl, rfl⟩
    · exact ⟨14, rfl, rfl⟩
    · exact ⟨30, rfl, rfl⟩
    · exact ⟨62, rfl, rfl⟩
    · omega
  obtain ⟨k, hroom, hmask⟩ := hall
  rw [hmask, hroom, Nat.and_two_pow_sub_one_eq_mod]

theorem Form.length_pos {n : Nat} {b : Bytes} (h : Form n b) : 0 < b.length := by
  obtain ⟨cls, _, _⟩ := h
  rw [length_bigEndian]
  exact formLength_pos cls

/-- A class is one byte and the bytes after it, and has room for six bits of that byte. -/
theorem exists_room (cls : Nat) :
    ∃ k, formLength cls = k + 1 ∧ (cls < 4 → room cls = 64 * byteRange k) := by
  rcases cls with _ | _ | _ | _ | cls
  · exact ⟨0, rfl, fun _ => rfl⟩
  · exact ⟨1, rfl, fun _ => rfl⟩
  · exact ⟨3, rfl, fun _ => rfl⟩
  · exact ⟨7, rfl, fun _ => rfl⟩
  · exact ⟨7, rfl, fun h => by omega⟩

/-- The top two bits of the first byte are what stands above the room of the class. -/
theorem head_bigEndian {cls raw : Nat} (hcls : cls < 4) (hraw : raw < byteRange (formLength cls)) :
    ∃ first tail, bigEndian (formLength cls) raw = first :: tail ∧
      first.toNat / 64 = raw / room cls := by
  -- The first byte is what is left when the `k` bytes behind it are divided off, and its upper two
  -- bits are what is left of that when its lower six are.
  obtain ⟨k, hlen, hroom⟩ := exists_room cls
  refine ⟨_, _, by rw [hlen, bigEndian], ?_⟩
  have htop : raw / byteRange k < 256 :=
    Nat.div_lt_of_lt_mul (by rwa [hlen, byteRange] at hraw)
  rw [UInt8.toNat_ofNat', Nat.mod_eq_of_lt htop, hroom hcls, Nat.mul_comm, Nat.div_div_eq_div_mul]

/-- The top two bits of the first byte of a form are its class. -/
theorem head_form {cls n : Nat} (hcls : cls < 4) (hroom : n < room cls) :
    ∃ first tail, bigEndian (formLength cls) (cls * room cls + n) = first :: tail ∧
      first.toNat / 64 = cls := by
  obtain ⟨first, tail, hform, hfirst⟩ := head_bigEndian hcls (class_mul_room_add_lt hcls hroom)
  refine ⟨first, tail, hform, ?_⟩
  rw [hfirst, Nat.mul_comm, Nat.mul_add_div (room_pos hcls), Nat.div_eq_of_lt hroom, Nat.add_zero]

/-- Bytes with a class on top are a form of what stands below it. -/
theorem form_of_class {cls raw : Nat} (hcls : cls < 4) (hclass : raw / room cls = cls) :
    Form (raw % room cls) (bigEndian (formLength cls) raw) := by
  have hdecomp : cls * room cls + raw % room cls = raw := by
    calc cls * room cls + raw % room cls
        = raw / room cls * room cls + raw % room cls := by rw [hclass]
      _ = raw := Nat.div_add_mod' raw (room cls)
  have hform := Form.ofClass cls hcls (Nat.mod_lt raw (room_pos hcls))
  rwa [hdecomp] at hform

/-- A number is read as wide as its first byte tells, and cut off below the class. -/
theorem decode_cons {c : Cursor} {first : UInt8} {tail : Bytes} (h : c.rest = first :: tail) :
    decode c = (Uint.decode (formLength (first.toNat / 64)) c).map
      fun r => (r.1 % room (first.toNat / 64), r.2) := by
  unfold decode
  rw [h]
  cases hu : Uint.decode (formLength (first.toNat / 64)) c <;>
    simp [hu, bind, Except.bind, pure, Except.pure, Except.map]

/-- Without a first byte nothing is known about the length. -/
theorem decode_nil {c : Cursor} (h : c.rest = []) : decode c = .error ⟨1, 0⟩ := by
  unfold decode
  rw [h]

/-- A varint read succeeds on every form of a number, minimal or not. -/
theorem decode_ok {n : Nat} {c c' : Cursor} :
    decode c = .ok (n, c') ↔ ∃ b, Form n b ∧ c.Advances b c' := by
  constructor
  · intro h
    cases hrest : c.rest with
    | nil =>
      rw [decode_nil hrest] at h
      cases h
    | cons first tail =>
      rw [decode_cons hrest] at h
      have hcls : first.toNat / 64 < 4 := by
        have := first.toNat_lt
        omega
      obtain ⟨cls, hclass⟩ : ∃ cls, first.toNat / 64 = cls := ⟨_, rfl⟩
      rw [hclass] at h hcls
      cases hu : Uint.decode (formLength cls) c with
      | error t =>
        rw [hu] at h
        cases h
      | ok r =>
        obtain ⟨raw, after⟩ := r
        rw [hu] at h
        cases h
        obtain ⟨hraw, hadv⟩ := Uint.decode_ok.mp hu
        -- The class that the first byte tells is the one that stands above the number.
        obtain ⟨first', tail', hform, hfirst⟩ := head_bigEndian hcls hraw
        have hhead : first = first' := by
          have hcons := hadv.rest
          rw [hrest, hform] at hcons
          exact (List.cons.inj hcons).1
        exact ⟨_, form_of_class hcls (by rw [← hfirst, ← hhead, hclass]), hadv⟩
  · rintro ⟨b, ⟨cls, hcls, hroom⟩, hadv⟩
    -- The form tells its class, and what the class adds to the number is taken off again.
    obtain ⟨first, tail, hform, hclass⟩ := head_form hcls hroom
    have hrest : c.rest = first :: (tail ++ c'.rest) := by
      rw [hadv.rest, hform, List.cons_append]
    have hu : Uint.decode (formLength cls) c = .ok (cls * room cls + n, c') :=
      Uint.decode_ok.mpr ⟨class_mul_room_add_lt hcls hroom, hadv⟩
    rw [decode_cons hrest, hclass, hu]
    simp only [Except.map, Nat.mul_comm cls, Nat.mul_add_mod, Nat.mod_eq_of_lt hroom]

/-! ## The shortest form -/

/-- The class that is chosen has room for the number. -/
theorem class?_eq_some {n cls : Nat} (h : class? n = some cls) : cls < 4 ∧ n < room cls := by
  have hmem := List.mem_of_find?_eq_some h
  have hroom := List.find?_some h
  simp only [List.mem_cons, List.not_mem_nil, or_false] at hmem
  exact ⟨by omega, of_decide_eq_true hroom⟩

/-- No class before the one chosen has room for the number. -/
theorem class?_le {n cls cls' : Nat} (h : class? n = some cls) (hroom : n < room cls') :
    cls ≤ cls' := by
  -- Classes are tried in order, so those before the chosen one have been found to be too small.
  have hfind : (List.range 4).find? (fun cls => decide (n < room cls)) = some cls := h
  obtain ⟨_, i, hi, hget, hbefore⟩ := List.find?_eq_some_iff_getElem.mp hfind
  rw [List.getElem_range] at hget
  subst hget
  refine Nat.not_lt.mp fun hlt => ?_
  have hnone := hbefore cls' hlt
  simp [hroom] at hnone

/-- A number is written in the class that is chosen for it. -/
theorem encode_ok {n : Nat} {b : Bytes} :
    encode n = .ok b ↔
      ∃ cls, class? n = some cls ∧ b = bigEndian (formLength cls) (cls * room cls + n) := by
  unfold encode
  cases class? n with
  | none => simp
  | some cls => simp [eq_comm]

/-- What is written is a form. -/
theorem form_of_encode {n : Nat} {b : Bytes} (h : encode n = .ok b) : Form n b := by
  obtain ⟨cls, hclass, rfl⟩ := encode_ok.mp h
  obtain ⟨hcls, hroom⟩ := class?_eq_some hclass
  exact .ofClass cls hcls hroom

/-- Whatever its class is, a form holds no more than the largest class has room for. -/
theorem Form.le_max {n : Nat} {b : Bytes} (h : Form n b) : n ≤ max := by
  obtain ⟨cls, hcls, hroom⟩ := h
  have hall : ∀ cls < 4, room cls ≤ room 3 := by decide
  have hle := hall cls hcls
  have hpos : 0 < room 3 := by decide
  unfold max
  omega

/-- Up to the largest number, some class has room. -/
theorem exists_encode {n : Nat} (h : n ≤ max) : ∃ b, encode n = .ok b := by
  obtain ⟨cls, hcls⟩ := Option.isSome_iff_exists.mp ((class?_isSome n).mpr h)
  exact ⟨_, encode_ok.mpr ⟨cls, hcls, rfl⟩⟩

/-- A number that has a form at all has a shortest one. -/
theorem Form.exists_encode {n : Nat} {b : Bytes} (h : Form n b) : ∃ b', encode n = .ok b' :=
  Varint.exists_encode h.le_max

/-- The form that is written is no longer than any other. -/
theorem length_le_of_encode {n : Nat} {b b' : Bytes} (h : encode n = .ok b) (hform : Form n b') :
    b.length ≤ b'.length := by
  obtain ⟨cls, hclass, rfl⟩ := encode_ok.mp h
  obtain ⟨cls', hcls', hroom'⟩ := hform
  rw [length_bigEndian, length_bigEndian]
  -- A lower class has a shorter form.
  have hmono : ∀ cls' < 4, ∀ cls ≤ cls', formLength cls ≤ formLength cls' := by decide
  exact hmono cls' hcls' cls (class?_le hclass hroom')

end Varint

end TlsWire
