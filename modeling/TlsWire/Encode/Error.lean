import TlsWire.Shape
import TlsWire.Uint

/-!
# Encoding errors
-/

namespace TlsWire

/-- Why a value cannot be encoded. -/
inductive EncodeError where
  /-- The directives of the type are wrong. -/
  | invalidDirective (error : DirectiveError)
  /-- An option without a presence flag has no value. -/
  | requiredNone (type : String)
  /-- The type rejects the value. -/
  | rejected (type reason : String)
  /-- A number or a length does not fit its encoding. -/
  | overflow (o : Overflow)
  /-- Two keys of a map have the same form. -/
  | duplicateKey (type : String)
  /-- The hook of the type failed. -/
  | hookFailed (type reason : String)
  /-- The shape is of no kind that the type can follow. -/
  | shapeMismatch (type : String) (kind : Shape.Kind)
  /-- The shape has no field left for the type of a field. -/
  | missingField (type : String)
deriving DecidableEq, Repr

namespace EncodeError

/-- The wording of an encoding error. -/
def message : EncodeError → String
  | .invalidDirective error => s!"invalid directive: {error.message}"
  | .requiredNone type => s!"{type} without optional directive is None"
  | .rejected type reason => s!"{type} failed validation: {reason}"
  | .overflow o => o.message
  | .duplicateKey type => s!"two keys of {type} have the same encoding"
  | .hookFailed type reason => s!"custom encoding of {type} failed: {reason}"
  | .shapeMismatch type kind => s!"{type} cannot be encoded as {kind.text}"
  | .missingField type => s!"{type} cannot be encoded as missing field"

/-- The wordings of the errors inside this one, outermost first. -/
def causes : EncodeError → List String
  | .invalidDirective error => error.message :: error.causes
  | .overflow o => [o.message]
  | _ => []

end EncodeError

end TlsWire
