import TlsWire.Decode
import TlsWire.Proofs.Checked.Window
import TlsWire.Proofs.Dict

/-!
# Checked decoding

`Schema.decodeChecked` decodes along a shape as `Schema.decode` does, but at a window, with every
read, subtraction and loop checked. Space is reserved for the elements of arrays, vectors and hashed
maps before they are decoded; how much is computed from what is left, so that is checked too.
-/

namespace TlsWire

/-- Whether a length of this form can be read. -/
def Head.Readable : Head → Prop
  | .fixed width => 1 ≤ width ∧ width ≤ 8
  | _ => True

namespace Shape

mutual

/-- Whether the lengths of all vectors and maps can be read. -/
def Readable : Shape → Prop
  | .array elem _ => elem.Readable
  | .vector elem head => elem.Readable ∧ head.Readable
  | .map key value head => key.Readable ∧ value.Readable ∧ head.Readable
  | .pointer target => target.Readable
  | .optional target => target.Readable
  | .record fields => fields.Readable
  | _ => True

/-- Whether the lengths in all present fields can be read. -/
def Fields.Readable : Fields → Prop
  | .nil => True
  | .present _ _ shape rest => shape.Readable ∧ rest.Readable
  | .absent _ _ rest => rest.Readable

end

end Shape

namespace Checked

variable {α κ β σ : Type}

/-- The result of a loop. -/
def ofExcept (r : Except Fault (Except DecodeError α)) : Checked α := do
  match ← r with
  | .ok a => return a
  | .error e => throw e

/-- A number, in the form that the shape says. -/
def ofUint (t : UintType) (ctx : Context) (shape : Shape) : Checked (BitVec t.bits) :=
  match shape with
  | .integer _ => narrow t ctx (uint ctx t.bytes)
  | .varint _ => narrow t ctx (varint ctx)
  | _ => throw (.shapeMismatch ctx.location t.text shape.kind)
where
  /-- Reads a number and checks that the type holds it. -/
  narrow (t : UintType) (ctx : Context) (number : Checked Nat) : Checked (BitVec t.bits) := do
    let n ← number
    if n < byteRange t.bytes then return BitVec.ofNat t.bits n
    else throw (.tooWide ctx.location n t.bits)

/-- A given number of elements back to back. -/
def items (elem : Context → Checked α) (ctx : Context) : (length : Nat) → Checked (Tuple α length)
  | 0 => pure ⟨[], rfl⟩
  | length + 1 => do
    let w ← get
    let x ← elem (ctx.push Step.elementName w.pos)
    let xs ← items elem ctx length
    return ⟨x :: xs.val, by rw [List.length_cons, xs.property]⟩

/-- An array, if it has the length that the shape says. -/
def ofArray (type : String) (elem : Context → Shape → Checked α) (length : Nat) (ctx : Context)
    (shape : Shape) : Checked (Tuple α length) :=
  match shape with
  | .array elemShape shapeLength =>
    if shapeLength = length then do
      let w ← get
      -- How much space to reserve depends on what is left.
      let _ ← w.remaining
      items (fun ctx => elem ctx elemShape) ctx length
    else throw (.shapeMismatch ctx.location type shape.kind)
  | _ => throw (.shapeMismatch ctx.location type shape.kind)

/-- As many elements as the content holds. -/
def ofVector (type : String) (elem : Context → Shape → Checked α) (ctx : Context)
    (shape : Shape) : Checked (List α) :=
  match shape with
  | .vector elemShape head => do
    let seq ← Sequence.ofHead ctx head
    -- The capacity is computed for its faults only: space has no part in the value.
    let _ ← seq.capacity ctx elemShape.minLen
    let latestFirst ← ofExcept
      (seq.all ctx (fun ctx => elem ctx elemShape) (fun acc x => .ok (x :: acc)) [])
    return latestFirst.reverse
  | _ => throw (.shapeMismatch ctx.location type shape.kind)

/-- A key and its value. -/
def entry (key : Context → Checked κ) (value : Context → Checked β) (ctx : Context) :
    Checked (κ × β) := do
  let k ← key ctx
  let v ← value ctx
  return (k, v)

/-- Space for entries is reserved only where they are collected first. -/
def reserve (kind : MapKind) (seq : Sequence) (ctx : Context) (minLen : Nat) : Except Fault Nat :=
  match kind with
  | .ordered => .ok 0
  | .hashed => seq.capacity ctx minLen

/-- As many entries as the content holds, with distinct keys. -/
def ofMap {order : KeyOrder κ} (type : String) (kind : MapKind)
    (key : Context → Shape → Checked κ) (value : Context → Shape → Checked β) (ctx : Context)
    (shape : Shape) : Checked (Dict order β) :=
  match shape with
  | .map keyShape valueShape head => do
    let seq ← Sequence.ofHead ctx head
    let _ ← reserve kind seq ctx (cappedAdd keyShape.minLen valueShape.minLen)
    let gathered ← ofExcept
      (seq.all ctx (entry (fun ctx => key ctx keyShape) fun ctx => value ctx valueShape)
        (kind.gatherer.gather (.malformed ctx.location .duplicateKey)) kind.gatherer.start)
    return kind.gatherer.finish gathered
  | _ => throw (.shapeMismatch ctx.location type shape.kind)

/-- The content of an indirection. -/
def ofBox (type : String) (content : Context → Shape → Checked α) (ctx : Context)
    (shape : Shape) : Checked α :=
  match shape with
  | .pointer target => content ctx target
  | _ => throw (.shapeMismatch ctx.location type shape.kind)

/-- A value that may be missing. -/
def ofOption (type : String) (content : Context → Shape → Checked α) (ctx : Context)
    (shape : Shape) : Checked (Option α) :=
  match shape with
  | .pointer target => some <$> content ctx target
  | .optional target => do
    let flag ← readByte ctx
    if flag = 0 then return none
    else if flag = 1 then some <$> content ctx target
    else throw (.badFlag ctx.location flag)
  | _ => throw (.shapeMismatch ctx.location type shape.kind)

/-- The fields of a record. -/
def ofRecord (type : String) (fields : Context → Shape.Fields → Checked α) (ctx : Context)
    (shape : Shape) : Checked α :=
  match shape with
  | .record shapes => fields ctx shapes
  | _ => throw (.shapeMismatch ctx.location type shape.kind)

/-- A value that a hook reads from everything left in the buffer. -/
def ofHook (hook : Hook α) (ctx : Context) (shape : Shape) : Checked α :=
  match shape with
  | .custom => do
    let w ← get
    let available ← w.remaining
    let bytes ← w.rest
    match hook.decode bytes with
    | .error reason => throw (.hookFailed ctx.location reason)
    | .ok (consumed, x) =>
      -- A hook is not trusted about how much it has used.
      if available < consumed then throw (.hookOverrun ctx.location consumed available)
      else
        let _ ← take ctx consumed
        return x
  | _ => throw (.shapeMismatch ctx.location hook.type shape.kind)

end Checked

namespace Schema

mutual

/-- Reads a value along a shape, with checks. -/
def decodeChecked : {α : Type} → Schema α → Context → Shape → Checked α
  | _, .uint t, ctx, shape => .ofUint t ctx shape
  | _, .array type elem length, ctx, shape => .ofArray type elem.decodeChecked length ctx shape
  | _, .vector type elem, ctx, shape => .ofVector type elem.decodeChecked ctx shape
  | _, .map type kind _ key value, ctx, shape =>
    .ofMap type kind key.decodeChecked value.decodeChecked ctx shape
  | _, .box type content, ctx, shape => .ofBox type content.decodeChecked ctx shape
  | _, .option type content, ctx, shape => .ofOption type content.decodeChecked ctx shape
  | _, .record type fields _ _, ctx, shape => .ofRecord type fields.decodeChecked ctx shape
  | _, .custom hook, ctx, shape => .ofHook hook ctx shape

/-- Reads the present fields in order, with checks. -/
def Fields.decodeChecked : {α : Type} → Fields α → Context → Shape.Fields → Checked α
  | _, .nil, _, _ => pure ()
  | _, .cons info schema rest, ctx, shapes =>
    match shapes with
    | .present name _ shape shapes => do
      let w ← get
      let x ← schema.decodeChecked (ctx.push name w.pos) shape
      let xs ← rest.decodeChecked ctx shapes
      return (x, xs)
    | .absent _ _ shapes => do
      let xs ← rest.decodeChecked ctx shapes
      return (schema.default, xs)
    | .nil => throw (.missingField ctx.location info.type)

end

end Schema

end TlsWire
