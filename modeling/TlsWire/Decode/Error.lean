import TlsWire.Cursor
import TlsWire.Shape

/-!
# Decoding errors

An error that comes from the input says where: a `Location` is the path of fields and elements that
led there, each with its offset in the whole input.
-/

namespace TlsWire

/-- One step of a path into a value: the name of a field, or brackets for an element, and the
offset at which it starts. -/
structure Step where
  name : String
  pos : Nat
deriving DecidableEq, Repr

/-- The path from the whole value to a part of it, innermost step first. -/
abbrev Location := List Step

/-- The text of a path, outermost step first. The whole value starts at offset 0. -/
def Location.text : Location → String
  | [] => "\x7b0\x7d"
  | step :: outer => s!"{Location.text outer}.{step.name}\x7b{step.pos}\x7d"

/-- The name under which elements appear in paths. -/
def Step.elementName : String := "[]"

/-- What can be wrong with the content of a vector or map. -/
inductive Malformation where
  /-- An element needs more bytes than the head has declared. -/
  | overrun
  /-- An element took no bytes at all, so there is no telling how many there are. -/
  | emptyElement
  /-- A key occurs twice. -/
  | duplicateKey
deriving DecidableEq, Repr

def Malformation.text : Malformation → String
  | .overrun => "element overruns declared length"
  | .emptyElement => "element consumed no input"
  | .duplicateKey => "duplicate map key"

/-- Why bytes cannot be decoded. -/
inductive DecodeError where
  /-- The directives of the type are wrong. -/
  | invalidDirective (error : DirectiveError)
  /-- The input ends too early. -/
  | truncated (loc : Location) (t : Truncated)
  /-- The content of a vector or map is malformed. -/
  | malformed (loc : Location) (why : Malformation)
  /-- A presence flag is neither 0 nor 1. -/
  | badFlag (loc : Location) (flag : UInt8)
  /-- A hook claims more bytes than it was given. -/
  | hookOverrun (loc : Location) (consumed available : Nat)
  /-- A varint holds a number too large for its type. -/
  | tooWide (loc : Location) (value bits : Nat)
  /-- The hook of a type failed. -/
  | hookFailed (loc : Location) (reason : String)
  /-- A vector or map holds more elements than allowed. -/
  | collectionTooLarge (loc : Location)
  /-- The shape is of no kind that the type can follow. -/
  | shapeMismatch (loc : Location) (type : String) (kind : Shape.Kind)
  /-- The shape has no field left for the type of a field. -/
  | missingField (loc : Location) (type : String)
  /-- Bytes are left after a value that was to take them all. -/
  | trailing (consumed length : Nat)
deriving DecidableEq, Repr

/-- A byte as two lower-case hexadecimal digits. -/
def hexByte (b : UInt8) : String :=
  String.ofList [Nat.digitChar (b.toNat / 16), Nat.digitChar (b.toNat % 16)]

namespace DecodeError

/-- The wording of a decoding error. -/
def message : DecodeError → String
  | .invalidDirective error => s!"invalid directive: {error.message}"
  | .truncated loc t => s!"{t.message} at {loc.text}"
  | .malformed loc why => s!"malformed vector at {loc.text}: {why.text}"
  | .badFlag loc flag => s!"invalid presence flag 0x{hexByte flag} at {loc.text}"
  | .hookOverrun loc consumed available =>
    s!"custom decoder consumed {consumed} of {available} bytes at {loc.text}"
  | .tooWide loc value bits => s!"value {value} does not fit in {bits} bits at {loc.text}"
  | .hookFailed loc reason => s!"{reason} at {loc.text}"
  | .collectionTooLarge loc => s!"collection size limit exceeded at {loc.text}"
  | .shapeMismatch loc type kind => s!"{type} cannot be decoded as {kind.text} at {loc.text}"
  | .missingField loc type => s!"{type} cannot be decoded as missing field at {loc.text}"
  | .trailing consumed length =>
    s!"{length - consumed} trailing bytes after value of {consumed} bytes"

/-- The wordings of the errors inside this one, outermost first. -/
def causes : DecodeError → List String
  | .invalidDirective error => error.message :: error.causes
  | .truncated _ t => [t.message]
  | _ => []

end DecodeError

end TlsWire
