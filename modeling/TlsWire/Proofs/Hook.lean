import TlsWire.Hook.Raw
import TlsWire.Hook.Refusing
import TlsWire.Hook.ScrambledText
import TlsWire.Hook.Severity
import TlsWire.Proofs.Parts

/-!
# Hooks that read what they write

A hook is `Faithful` if it finds the end of what it has written, whatever follows. Severities do so
by their size, scrambled texts by their length byte, which is right for every text that the hook
accepts.

Two kinds of hooks do not: one that forgets what it was given (`Faithful.eq_of_encode`), and one
that leaves no byte behind (`not_faithful_of_takesAll`).
-/

namespace TlsWire.Hook

variable {α : Type} {hook : Hook α}

/-- A severity is one byte, and every byte that is written is read back. -/
theorem severity_faithful : severity.Faithful := by
  rintro s b - hencode t
  cases hencode
  simp only [severity, List.cons_append, List.nil_append, Severity.ofCode?_code,
    List.length_singleton]

/-- Scrambling changes bytes and keeps their number. -/
theorem length_scramble (length i : Nat) (bytes : Bytes) :
    (scramble length i bytes).length = bytes.length := by
  -- By induction on the bytes, at whatever place they start.
  induction bytes generalizing i with
  | nil => rfl
  | cons b bytes ih => rw [scramble, List.length_cons, List.length_cons, ih]

/-- The bytes of a text are read as this text again. -/
theorem ofUtf8?_utf8 (s : String) : ofUtf8? (utf8 s) = some s := by
  have hbytes : (⟨(utf8 s).toArray⟩ : ByteArray) = s.toByteArray := by
    rw [utf8, Array.toArray_toList]
  rw [ofUtf8?, hbytes, String.fromUTF8?, dif_pos s.isValidUTF8]
  rfl

/-- A text that is accepted has no more bytes than one byte can count. -/
theorem length_le_of_validate {s : String} (h : scrambledText.validate s = .ok ()) :
    (utf8 s).length ≤ 255 := by
  simp only [scrambledText] at h
  split at h
  case isTrue => cases h
  case isFalse hlen => exact Nat.not_lt.mp hlen

/-- A text that is accepted is short enough for its length to fit the first byte. -/
theorem scrambledText_faithful : scrambledText.Faithful := by
  intro s b hvalidate hencode t
  have hlen : (UInt8.ofNat (utf8 s).length).toNat = (utf8 s).length := by
    have hle := length_le_of_validate hvalidate
    rw [UInt8.toNat_ofNat', Nat.mod_eq_of_lt (by omega)]
  cases hencode
  -- There is as much behind the length byte as it says.
  have hshort : ¬ (scramble (utf8 s).length 0 (utf8 s) ++ t).length < (utf8 s).length := by
    rw [List.length_append, length_scramble]
    omega
  have htake : (scramble (utf8 s).length 0 (utf8 s) ++ t).take (utf8 s).length =
      scramble (utf8 s).length 0 (utf8 s) :=
    List.take_left' (length_scramble _ _ _)
  simp only [scrambledText, List.cons_append, hlen, if_neg hshort, htake, scramble_scramble,
    ofUtf8?_utf8, List.length_cons, length_scramble]

/-! ## Hooks that do not -/

/-- Whether the hook takes all bytes there are whenever it returns a value. -/
def TakesAll (hook : Hook α) : Prop :=
  ∀ bytes n x, hook.decode bytes = .ok (n, x) → n = bytes.length

/-- Whether the hook never takes a byte, be it that it returns a value without or that it fails. -/
def TakesNothing (hook : Hook α) : Prop :=
  ∀ bytes n x, hook.decode bytes = .ok (n, x) → n = 0

theorem rest_takesAll : rest.TakesAll := by
  intro bytes n x h
  cases h
  rfl

theorem peek_takesNothing : peek.TakesNothing := by
  intro bytes n x h
  cases h
  rfl

theorem broken_takesNothing : broken.TakesNothing := by
  intro bytes n x h
  cases h

/-- What is written differs where the values do, or they could not both be read back. -/
theorem Faithful.eq_of_encode (h : hook.Faithful) {x y : α} {b : Bytes}
    (hx : hook.validate x = .ok ()) (hy : hook.validate y = .ok ()) (hxb : hook.encode x = .ok b)
    (hyb : hook.encode y = .ok b) : x = y := by
  -- The same bytes are read to both of them.
  have hread := (h x b hx hxb []).symm.trans (h y b hy hyb [])
  exact (Prod.mk.inj (Except.ok.inj hread)).2

/-- A byte that follows the form is taken along. -/
theorem not_faithful_of_takesAll (hall : hook.TakesAll) {x : α} {b : Bytes}
    (hx : hook.validate x = .ok ()) (hb : hook.encode x = .ok b) : ¬ hook.Faithful := by
  intro h
  have hlength := hall _ _ _ (h x b hx hb [0])
  rw [List.length_append, List.length_singleton] at hlength
  omega

theorem rest_not_faithful : ¬ rest.Faithful :=
  not_faithful_of_takesAll rest_takesAll (x := []) rfl rfl

/-- Nothing is written of the byte. -/
theorem peek_not_faithful : ¬ peek.Faithful := by
  intro h
  have heq := h.eq_of_encode (x := 0) (y := 1) rfl rfl rfl rfl
  cases heq

/-- Nothing is written of the high four bits. -/
theorem tag_not_faithful : ¬ tag.Faithful := by
  intro h
  have heq := h.eq_of_encode (x := 0) (y := 0x10) rfl rfl rfl rfl
  cases heq

end TlsWire.Hook
