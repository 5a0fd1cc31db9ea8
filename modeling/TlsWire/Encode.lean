import TlsWire.Encode.MapEntries
import TlsWire.Schema.Resolve

/-!
# Encoding values

`Schema.encode` walks a value along a shape. Records and hooks first ask whether the value may be
sent, before anything of it is written. A shape that the schema did not resolve to is refused as
soon as its kind does not fit; widths and lengths inside it are the schema's own.

`marshalWith` resolves the shape under a directive and returns the bytes, or nothing but the error.
-/

namespace TlsWire

namespace Encoder

variable {α κ β : Type}

/-- A number, in the form that the shape asks for. -/
def ofUint (t : UintType) (shape : Shape) (n : Nat) : Encoder Unit :=
  match shape with
  | .integer _ => uint t.bytes n
  | .varint _ => varint n
  | _ => throw (.shapeMismatch t.text shape.kind)

/-- Elements back to back. -/
def ofArray (type : String) (elem : Shape → α → Encoder Unit) (shape : Shape)
    (items : List α) : Encoder Unit :=
  match shape with
  | .array elemShape _ => each (elem elemShape) items
  | _ => throw (.shapeMismatch type shape.kind)

/-- Elements back to back after their head. -/
def ofVector (type : String) (elem : Shape → α → Encoder Unit) (shape : Shape)
    (items : List α) : Encoder Unit :=
  match shape with
  | .vector elemShape head => framed head (each (elem elemShape) items)
  | _ => throw (.shapeMismatch type shape.kind)

/-- Entries in wire order after their head. -/
def ofMap (type : String) (key : Shape → κ → Encoder Unit) (value : Shape → β → Encoder Unit)
    (shape : Shape) (es : List (κ × β)) : Encoder Unit :=
  match shape with
  | .map keyShape valueShape head => entries type head (key keyShape) (value valueShape) es
  | _ => throw (.shapeMismatch type shape.kind)

/-- The content of an indirection. -/
def ofBox (type : String) (content : Shape → α → Encoder Unit) (shape : Shape) (x : α) :
    Encoder Unit :=
  match shape with
  | .pointer target => content target x
  | _ => throw (.shapeMismatch type shape.kind)

/-- A value that may be missing. Only a presence flag can say so. -/
def ofOption (type : String) (content : Shape → α → Encoder Unit) (shape : Shape)
    (x : Option α) : Encoder Unit :=
  match shape, x with
  | .optional _, none => append [0]
  | .optional target, some x => do
    append [1]
    content target x
  -- Without a flag there is no way to write that the value is missing.
  | .pointer target, some x => content target x
  | .pointer _, none => throw (.requiredNone type)
  | _, _ => throw (.shapeMismatch type shape.kind)

/-- The fields of a record whose type accepts it. -/
def ofRecord (type : String) (validate : α → Except String Unit)
    (fields : Shape.Fields → α → Encoder Unit) (shape : Shape) (x : α) : Encoder Unit :=
  match validate x with
  | .error reason => throw (.rejected type reason)
  | .ok _ =>
    match shape with
    | .record shapes => fields shapes x
    | _ => throw (.shapeMismatch type shape.kind)

/-- The form that a hook gives to a value it accepts. -/
def ofHook (hook : Hook α) (shape : Shape) (x : α) : Encoder Unit :=
  match hook.validate x with
  | .error reason => throw (.rejected hook.type reason)
  | .ok _ =>
    match shape with
    | .custom => emit ((hook.encode x).mapError (.hookFailed hook.type))
    | _ => throw (.shapeMismatch hook.type shape.kind)

end Encoder

namespace Schema

mutual

/-- Appends the form of a value along a shape. -/
def encode : {α : Type} → Schema α → Shape → α → Encoder Unit
  | _, .uint t, shape, n => .ofUint t shape n.toNat
  | _, .array type elem _, shape, items => .ofArray type elem.encode shape items.val
  | _, .vector type elem, shape, items => .ofVector type elem.encode shape items
  | _, .map type _ _ key value, shape, dict =>
    .ofMap type key.encode value.encode shape dict.entries
  | _, .box type content, shape, x => .ofBox type content.encode shape x
  | _, .option type content, shape, x => .ofOption type content.encode shape x
  | _, .record type fields validate _, shape, x => .ofRecord type validate fields.encode shape x
  | _, .custom hook, shape, x => .ofHook hook shape x

/-- Appends the present fields in order. Shapes of further fields are ignored. -/
def Fields.encode : {α : Type} → Fields α → Shape.Fields → α → Encoder Unit
  | _, .nil, _, _ => pure ()
  | _, .cons info schema rest, shapes, (x, xs) =>
    match shapes with
    | .present _ _ shape shapes => do
      schema.encode shape x
      rest.encode shapes xs
    | .absent _ _ shapes => rest.encode shapes xs
    | .nil => throw (.missingField info.type)

end

variable {α : Type}

/-- The form of a value under a directive. -/
def marshalWith (schema : Schema α) (directive : Directive) (x : α) :
    Except EncodeError Bytes :=
  match schema.resolve directive with
  | .error e => .error (.invalidDirective e)
  | .ok shape => (schema.encode shape x).standalone

/-- The form of a value under the default directive. -/
def marshal (schema : Schema α) (x : α) : Except EncodeError Bytes :=
  schema.marshalWith .default x

end Schema

end TlsWire
