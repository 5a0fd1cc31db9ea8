import TlsWire.Schema
import TlsWire.Shape

/-!
# Resolving schemas into shapes

`resolve` turns a schema and the directive it is used under into a shape, or says which directive
is at fault. A type first looks at its own directive, then resolves its parts: elements, keys and
values under the default directive, fields under their own. Elements, keys and values must not be
greedy, because another one may follow.
-/

namespace TlsWire.Schema

/-- Fails unless the directive is the default one. -/
def expectDefault (type : String) : Directive → Except DirectiveError Unit
  | .default => .ok ()
  | directive => .error (.unsupported directive type)

/-- The head that a vector or map is framed by. -/
def framing (type : String) (directive : Directive) : Except DirectiveError Head :=
  match directive.head? with
  | some head => .ok head
  | none =>
    if directive = .default then .error (.unframed type)
    else .error (.unsupported directive type)

/-- Fails if the shape is greedy. -/
def expectBounded (type : String) (shape : Shape) : Except DirectiveError Unit :=
  if shape.isGreedy then .error (.greedy type) else .ok ()

mutual

/-- The shape of a type under a directive. -/
def resolve : {α : Type} → Schema α → Directive → Except DirectiveError Shape
  | _, .uint t, directive =>
    match directive with
    | .default => .ok (.integer t.bits)
    | .varint => .ok (.varint t.bits)
    | _ => .error (.unsupported directive t.text)
  | _, .array type elem length, directive => do
    expectDefault type directive
    let shape ← elem.resolve .default
    expectBounded type shape
    return .array shape length
  | _, .vector type elem, directive => do
    let head ← framing type directive
    let shape ← elem.resolve .default
    expectBounded type shape
    return .vector shape head
  | _, .map type _ _ key value, directive => do
    let head ← framing type directive
    let keyShape ← key.resolve .default
    expectBounded type keyShape
    let valueShape ← value.resolve .default
    expectBounded type valueShape
    return .map keyShape valueShape head
  | _, .box type content, directive =>
    -- What is behind an indirection is always there, so no presence flag can go before it.
    if directive = .optional then .error (.unsupported directive type)
    else return .pointer (← content.resolve directive)
  | _, .option _ content, directive =>
    -- Only the flag makes the content optional. Any other directive is about the content itself.
    if directive = .optional then return .optional (← content.resolve .default)
    else return .pointer (← content.resolve directive)
  | _, .record type fields _ _, directive => do
    expectDefault type directive
    Shape.ofFields type (← fields.resolve)
  | _, .custom hook, directive => do
    expectDefault hook.type directive
    return .custom

/-- The shapes of the fields of a record. An omitted field is not resolved at all. -/
def Fields.resolve : {α : Type} → Fields α → Except DirectiveError Shape.Fields
  | _, .nil => .ok .nil
  | _, .cons info schema rest =>
    if info.directive = .omit then
      return .absent info.name info.directive (← rest.resolve)
    else do
      let shape ← (schema.resolve info.directive).mapError (.field info.name)
      return .present info.name info.directive shape (← rest.resolve)

end

end TlsWire.Schema
