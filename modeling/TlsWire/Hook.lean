import TlsWire.Bytes
import TlsWire.KeyOrder

/-!
# Types with an encoding of their own

A hook describes a type whose wire form is not built from the general rules. Nothing frames that
form, so it has to carry whatever the decoder needs to find its end. Hooks may refuse: a reason is
a text of their own.
-/

namespace TlsWire

/-- The wire form of a type, as the type defines it. -/
structure Hook (α : Type) where
  /-- What messages call the type. -/
  type : String
  /-- The value of an omitted field. -/
  default : α
  order : KeyOrder α
  /-- Whether the value may be sent. -/
  validate : α → Except String Unit
  /-- The complete form of the value. -/
  encode : α → Except String Bytes
  /-- Reads a value from the front of everything left in the scope, and says how many bytes it
  took. -/
  decode : Bytes → Except String (Nat × α)

end TlsWire
