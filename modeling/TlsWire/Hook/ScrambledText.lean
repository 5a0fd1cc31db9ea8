import TlsWire.Hook

/-!
# Scrambled text

A text of at most 255 bytes in UTF-8, after its length. Byte `i` of the text is masked with
`length + i + 1`; the mask is its own inverse. Two texts are never sent: one that is too long, and
a forbidden word.
-/

namespace TlsWire.Hook

/-- The UTF-8 form of a text. -/
def utf8 (s : String) : Bytes := s.toByteArray.data.toList

/-- The text whose UTF-8 form the bytes are. -/
def ofUtf8? (bytes : Bytes) : Option String := String.fromUTF8? ⟨bytes.toArray⟩

theorem utf8_injective (a b : String) (h : utf8 a = utf8 b) : a = b :=
  String.toByteArray_inj.mp (ByteArray.ext (Array.toList_inj.mp h))

/-- Masks the bytes from offset `i` on, of a text of `length` bytes. -/
def scramble (length : Nat) : (i : Nat) → Bytes → Bytes
  | _, [] => []
  | i, b :: bytes => (b ^^^ UInt8.ofNat (length + i + 1)) :: scramble length (i + 1) bytes

theorem scramble_scramble (length i : Nat) (bytes : Bytes) :
    scramble length i (scramble length i bytes) = bytes := by
  induction bytes generalizing i with
  | nil => rfl
  | cons b bytes ih => rw [scramble, scramble, ih, UInt8.xor_assoc, UInt8.xor_self, UInt8.xor_zero]

/-- The order of texts: by the bytes of their UTF-8 form. -/
def textOrder : KeyOrder String := KeyOrder.byte.list.onKey utf8 utf8_injective

/-- A scrambled text after its length. -/
def scrambledText : Hook String where
  type := "CrypticString"
  default := ""
  order := textOrder
  validate s :=
    if 255 < (utf8 s).length then .error s!"CrypticString too long: {(utf8 s).length}"
    else if s = "fnord" then .error "forbidden value"
    else .ok ()
  encode s :=
    let text := utf8 s
    .ok (UInt8.ofNat text.length :: scramble text.length 0 text)
  decode
    | [] => .error "CrypticString needs a length byte"
    | first :: rest =>
      let length := first.toNat
      if rest.length < length then .error "input too short for CrypticString"
      else
        match ofUtf8? (scramble length 0 (rest.take length)) with
        | some s => .ok (length + 1, s)
        | none => .error "CrypticString is not UTF-8"

end TlsWire.Hook
