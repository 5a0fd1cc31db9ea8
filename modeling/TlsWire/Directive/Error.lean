import TlsWire.Directive

/-!
# Directive errors

What can be wrong with the directives of a type. These are mistakes in a schema, found while its
shape is resolved and before any byte is touched.
-/

namespace TlsWire

inductive DirectiveError where
  /-- The text is not a directive. -/
  | unknown (text : String)
  /-- The text holds more than one directive. -/
  | conflicting (text : String)
  /-- The directive makes no sense for the type. -/
  | unsupported (directive : Directive) (type : String)
  /-- A vector or map has no head. -/
  | unframed (type : String)
  /-- Content without a length is followed by something else in its scope. -/
  | greedy (type : String)
  /-- The error concerns the named field of a record. -/
  | field (name : String) (error : DirectiveError)
deriving DecidableEq, Repr

namespace DirectiveError

/-- The wording of a directive error. -/
def message : DirectiveError → String
  | .unknown text => s!"unknown directive \"{text}\""
  | .conflicting text => s!"conflicting directives \"{text}\""
  | .unsupported directive type => s!"directive {directive.text} cannot be applied to {type}"
  | .unframed type => s!"{type} requires a head= directive"
  | .greedy type => s!"head=none content must end its scope in {type}"
  | .field name error => s!"{error.message} in field {name}"

/-- The wordings of the errors inside this one, outermost first. -/
def causes : DirectiveError → List String
  | .field _ error => error.message :: error.causes
  | _ => []

end DirectiveError

end TlsWire
