import TlsWire.Decode.Sequence
import TlsWire.Dict.Gather
import TlsWire.Schema.Resolve

/-!
# Decoding values

`Schema.decode` reads a value along a shape. A shape that the schema did not resolve to is refused
as soon as its kind, or the length of an array, does not fit. Fields that are absent from the shape
take their default.

The entry points resolve the shape under a directive and start at the front of the data.
`unmarshalWith` ignores what follows the value and says how many bytes it took; `unmarshalExact`
insists that nothing follows; `unmarshalInto` replaces a value that is already there, if decoding
succeeds.
-/

namespace TlsWire

namespace Decoder

variable {α κ β : Type}

/-- A number, in the form that the shape says. Only a varint can be too large for its type. -/
def ofUint (t : UintType) (ctx : Context) (shape : Shape) : Decoder (BitVec t.bits) :=
  match shape with
  | .integer _ => narrow t ctx (Uint.decode t.bytes)
  | .varint _ => narrow t ctx Varint.decode
  | _ => throw (.shapeMismatch ctx.location t.text shape.kind)
where
  /-- Reads a number and checks that the type holds it. -/
  narrow (t : UintType) (ctx : Context)
      (reader : Cursor → Except Truncated (Nat × Cursor)) : Decoder (BitVec t.bits) := do
    let n ← read ctx reader
    if n < byteRange t.bytes then return BitVec.ofNat t.bits n
    else throw (.tooWide ctx.location n t.bits)

/-- A given number of elements back to back. -/
def items (elem : Context → Decoder α) (ctx : Context) : (length : Nat) → Decoder (Tuple α length)
  | 0 => pure ⟨[], rfl⟩
  | length + 1 => do
    let x ← elem (ctx.push Step.elementName (← pos))
    let xs ← items elem ctx length
    return ⟨x :: xs.val, by rw [List.length_cons, xs.property]⟩

/-- An array, if it has the length that the shape says. -/
def ofArray (type : String) (elem : Context → Shape → Decoder α) (length : Nat) (ctx : Context)
    (shape : Shape) : Decoder (Tuple α length) :=
  match shape with
  | .array elemShape shapeLength =>
    if shapeLength = length then items (fun ctx => elem ctx elemShape) ctx length
    else throw (.shapeMismatch ctx.location type shape.kind)
  | _ => throw (.shapeMismatch ctx.location type shape.kind)

/-- As many elements as the content holds. -/
def ofVector (type : String) (elem : Context → Shape → Decoder α) (ctx : Context)
    (shape : Shape) : Decoder (List α) :=
  match shape with
  | .vector elemShape head => do
    let seq ← Sequence.ofHead ctx head
    let latestFirst ← ofExcept
      (seq.fold ctx (fun ctx => elem ctx elemShape) (fun acc x => .ok (x :: acc)) [])
    return latestFirst.reverse
  | _ => throw (.shapeMismatch ctx.location type shape.kind)

/-- A key and its value. -/
def entry (key : Context → Decoder κ) (value : Context → Decoder β) (ctx : Context) :
    Decoder (κ × β) := do
  let k ← key ctx
  let v ← value ctx
  return (k, v)

/-- As many entries as the content holds, with distinct keys. -/
def ofMap {order : KeyOrder κ} (type : String) (gatherer : Gatherer order β)
    (key : Context → Shape → Decoder κ) (value : Context → Shape → Decoder β) (ctx : Context)
    (shape : Shape) : Decoder (Dict order β) :=
  match shape with
  | .map keyShape valueShape head => do
    let seq ← Sequence.ofHead ctx head
    let gathered ← ofExcept
      (seq.fold ctx (entry (fun ctx => key ctx keyShape) fun ctx => value ctx valueShape)
        (fun acc e =>
          match gatherer.add acc e.1 e.2 with
          | some acc => .ok acc
          | none => .error (.malformed ctx.location .duplicateKey))
        gatherer.start)
    return gatherer.finish gathered
  | _ => throw (.shapeMismatch ctx.location type shape.kind)

/-- The content of an indirection. -/
def ofBox (type : String) (content : Context → Shape → Decoder α) (ctx : Context)
    (shape : Shape) : Decoder α :=
  match shape with
  | .pointer target => content ctx target
  | _ => throw (.shapeMismatch ctx.location type shape.kind)

/-- A value that may be missing. Only a presence flag can say so. -/
def ofOption (type : String) (content : Context → Shape → Decoder α) (ctx : Context)
    (shape : Shape) : Decoder (Option α) :=
  match shape with
  | .pointer target => some <$> content ctx target
  | .optional target => do
    let flag ← read ctx Cursor.readByte
    if flag = 0 then return none
    else if flag = 1 then some <$> content ctx target
    else throw (.badFlag ctx.location flag)
  | _ => throw (.shapeMismatch ctx.location type shape.kind)

/-- The fields of a record. -/
def ofRecord (type : String) (fields : Context → Shape.Fields → Decoder α) (ctx : Context)
    (shape : Shape) : Decoder α :=
  match shape with
  | .record shapes => fields ctx shapes
  | _ => throw (.shapeMismatch ctx.location type shape.kind)

/-- A value that a hook reads from everything left in the scope. What the hook says it took is
checked before the cursor moves. -/
def ofHook (hook : Hook α) (ctx : Context) (shape : Shape) : Decoder α :=
  match shape with
  | .custom => do
    let c ← cursor
    match hook.decode c.rest with
    | .error reason => throw (.hookFailed ctx.location reason)
    | .ok (consumed, x) =>
      if c.remaining < consumed then throw (.hookOverrun ctx.location consumed c.remaining)
      else
        -- Within the scope, so this read succeeds.
        let _ ← read ctx (Cursor.take consumed)
        return x
  | _ => throw (.shapeMismatch ctx.location hook.type shape.kind)

end Decoder

/-- How the entries of a map of each kind are gathered. -/
def MapKind.gatherer {κ β : Type} {order : KeyOrder κ} : MapKind → Gatherer order β
  | .ordered => .ordered
  | .hashed => .hashed

namespace Schema

mutual

/-- Reads a value along a shape. -/
def decode : {α : Type} → Schema α → Context → Shape → Decoder α
  | _, .uint t, ctx, shape => .ofUint t ctx shape
  | _, .array type elem length, ctx, shape => .ofArray type elem.decode length ctx shape
  | _, .vector type elem, ctx, shape => .ofVector type elem.decode ctx shape
  | _, .map type kind _ key value, ctx, shape =>
    .ofMap type kind.gatherer key.decode value.decode ctx shape
  | _, .box type content, ctx, shape => .ofBox type content.decode ctx shape
  | _, .option type content, ctx, shape => .ofOption type content.decode ctx shape
  | _, .record type fields _ _, ctx, shape => .ofRecord type fields.decode ctx shape
  | _, .custom hook, ctx, shape => .ofHook hook ctx shape

/-- Reads the present fields in order. Shapes of further fields are ignored. -/
def Fields.decode : {α : Type} → Fields α → Context → Shape.Fields → Decoder α
  | _, .nil, _, _ => pure ()
  | _, .cons info schema rest, ctx, shapes =>
    match shapes with
    | .present name _ shape shapes => do
      let x ← schema.decode (ctx.push name (← Decoder.pos)) shape
      let xs ← rest.decode ctx shapes
      return (x, xs)
    | .absent _ _ shapes => do
      let xs ← rest.decode ctx shapes
      return (schema.default, xs)
    | .nil => throw (.missingField ctx.location info.type)

end

variable {α : Type}

/-- Reads a value from the front of the data, and says how many bytes it took. -/
def unmarshalWith (schema : Schema α) (directive : Directive) (config : Config) (data : Bytes) :
    Except DecodeError (Nat × α) :=
  match schema.resolve directive with
  | .error e => .error (.invalidDirective e)
  | .ok shape =>
    match schema.decode (.top config) shape (.ofBytes data) with
    | .ok x c => .ok (c.consumed, x)
    | .error e _ => .error e

/-- Reads a value under the default directive and limits. -/
def unmarshal (schema : Schema α) (data : Bytes) : Except DecodeError (Nat × α) :=
  schema.unmarshalWith .default {} data

/-- Reads a value that takes all of the data. -/
def unmarshalExact (schema : Schema α) (data : Bytes) : Except DecodeError α := do
  let (consumed, x) ← schema.unmarshal data
  if consumed = data.length then return x
  else throw (.trailing consumed data.length)

/-- Reads a value into the place of another one, which stays when decoding fails. -/
def unmarshalInto (schema : Schema α) (data : Bytes) (target : α) :
    Except DecodeError Nat × α :=
  match schema.unmarshal data with
  | .ok (consumed, x) => (.ok consumed, x)
  | .error e => (.error e, target)

end Schema

end TlsWire
