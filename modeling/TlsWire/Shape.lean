import TlsWire.Directive.Error

/-!
# Wire shapes

A shape is the wire structure of a type once every directive in it has been resolved. Encoders and
decoders walk a value along its shape.

Two static facts about a shape guide them. `minLen` is the fewest bytes a value can occupy, capped
at the largest 64-bit number. A shape `isGreedy` when decoding it takes everything that is left in
its scope; `ofFields` refuses a record in which something follows a greedy field.
-/

namespace TlsWire

mutual

/-- The resolved wire structure of a type. -/
inductive Shape where
  /-- An unsigned integer of this many bits at its fixed width. -/
  | integer (bits : Nat)
  /-- An unsigned integer of this many bits as a varint. -/
  | varint (bits : Nat)
  /-- Elements back to back, as many as both sides know. -/
  | array (elem : Shape) (length : Nat)
  /-- Any number of elements. -/
  | vector (elem : Shape) (head : Head)
  /-- Any number of entries, each a key and its value. -/
  | map (key value : Shape) (head : Head)
  /-- Another value, with nothing of its own on the wire. -/
  | pointer (target : Shape)
  /-- A presence flag, then the value if there is one. -/
  | optional (target : Shape)
  /-- Fields one after another. -/
  | record (fields : Shape.Fields)
  /-- A form that the type defines itself. -/
  | custom

/-- The fields of a record in order. A field that is absent never appears on the wire. -/
inductive Shape.Fields where
  | nil
  | present (name : String) (directive : Directive) (shape : Shape) (rest : Shape.Fields)
  | absent (name : String) (directive : Directive) (rest : Shape.Fields)

end

/-- The largest length that is told apart from longer ones. -/
def lengthCap : Nat := 0xFFFFFFFFFFFFFFFF

/-- The sum, or the cap if it is larger. -/
def cappedAdd (a b : Nat) : Nat := min (a + b) lengthCap

/-- The product, or the cap if it is larger. -/
def cappedMul (a b : Nat) : Nat := min (a * b) lengthCap

/-- The fewest bytes that a head occupies. -/
def Head.minLen : Head → Nat
  | .fixed width => width
  | .varint => 1
  | .unbounded => 0

namespace Shape

mutual

/-- The fewest bytes that a value of this shape occupies. -/
def minLen : Shape → Nat
  | .integer bits => bits / 8
  | .varint _ => 1
  | .array elem length => cappedMul elem.minLen length
  | .vector _ head => head.minLen
  | .map _ _ head => head.minLen
  | .pointer target => target.minLen
  | .optional _ => 1
  | .record fields => fields.minLen
  | .custom => 0

/-- The fewest bytes that the present fields occupy together. -/
def Fields.minLen : Fields → Nat
  | .nil => 0
  | .present _ _ shape rest => cappedAdd shape.minLen rest.minLen
  | .absent _ _ rest => rest.minLen

end

/-- Whether any field appears on the wire. -/
def Fields.anyPresent : Fields → Bool
  | .nil => false
  | .present .. => true
  | .absent _ _ rest => rest.anyPresent

mutual

/-- Whether decoding takes everything that is left in the scope. -/
def isGreedy : Shape → Bool
  | .vector _ .unbounded => true
  | .map _ _ .unbounded => true
  | .pointer target => target.isGreedy
  | .optional target => target.isGreedy
  | .record fields => fields.isGreedy
  | _ => false

/-- Whether the last present field is greedy. -/
def Fields.isGreedy : Fields → Bool
  | .nil => false
  | .present _ _ shape rest => if rest.anyPresent then rest.isGreedy else shape.isGreedy
  | .absent _ _ rest => rest.isGreedy

end

/-- What a shape is called in messages. -/
inductive Kind where
  | integer | varint | array | vector | map | pointer | optional | record | custom
deriving DecidableEq, Repr

def Kind.text : Kind → String
  | .integer => "integer"
  | .varint => "varint"
  | .array => "array"
  | .vector => "vector"
  | .map => "map"
  | .pointer => "pointer"
  | .optional => "optional"
  | .record => "struct"
  | .custom => "custom"

def kind : Shape → Kind
  | .integer _ => .integer
  | .varint _ => .varint
  | .array .. => .array
  | .vector .. => .vector
  | .map .. => .map
  | .pointer _ => .pointer
  | .optional _ => .optional
  | .record _ => .record
  | .custom => .custom

/-- Names the first present field that is greedy although another one follows. -/
def Fields.checkGreedy (type : String) : Fields → Except DirectiveError Unit
  | .nil => .ok ()
  | .present name _ shape rest =>
    if shape.isGreedy && rest.anyPresent then .error (.field name (.greedy type))
    else rest.checkGreedy type
  | .absent _ _ rest => rest.checkGreedy type

/-- The shape of a record of this type: only its last present field may be greedy. -/
def ofFields (type : String) (fields : Fields) : Except DirectiveError Shape := do
  fields.checkGreedy type
  return .record fields

theorem ofFields_eq_ok {type : String} {fields : Fields} {shape : Shape} :
    ofFields type fields = .ok shape ↔
      fields.checkGreedy type = .ok () ∧ shape = .record fields := by
  unfold ofFields
  cases fields.checkGreedy type with
  | error e => simp [bind, Except.bind]
  | ok u => simp [bind, Except.bind, pure, Except.pure, eq_comm]

end Shape

end TlsWire
