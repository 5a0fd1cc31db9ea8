import TlsWire.Dict
import TlsWire.Directive
import TlsWire.Hook

/-!
# Schemas

A `Schema α` describes how values of type `α` go on the wire: unsigned integers, arrays, vectors,
maps, boxes, options, records and types with a hook. The fields of a record form a `Schema.Fields`
of their own, whose values are nested pairs. Composite types carry the name by which messages call
them.

Two things are read off a schema alone: the `order` in which values of the type are sorted as map
keys, and the `default` value that an omitted field takes. A record can bring a default of its own,
as a type does that stands in for one without a sensible default.
-/

namespace TlsWire

/-- The unsigned integer types. -/
inductive UintType where
  | u8 | u16 | u32 | u64
deriving DecidableEq, Repr

namespace UintType

def bytes : UintType → Nat
  | .u8 => 1
  | .u16 => 2
  | .u32 => 4
  | .u64 => 8

def bits (t : UintType) : Nat := 8 * t.bytes

def text : UintType → String
  | .u8 => "u8"
  | .u16 => "u16"
  | .u32 => "u32"
  | .u64 => "u64"

end UintType

/-- Lists of a fixed length. -/
abbrev Tuple (α : Type) (length : Nat) : Type := { items : List α // items.length = length }

/-- How a decoded map is gathered. -/
inductive MapKind where
  /-- Entries take their place as they arrive. -/
  | ordered
  /-- Entries are collected as they arrive and put in order at the end. -/
  | hashed
deriving DecidableEq, Repr

/-- What a record says about one of its fields. -/
structure FieldInfo where
  name : String
  directive : Directive
  /-- What messages call the type of the field when a shape has no such field. -/
  type : String

mutual

/-- How values of a type go on the wire. -/
inductive Schema : Type → Type 1 where
  | uint (t : UintType) : Schema (BitVec t.bits)
  | array {α : Type} (type : String) (elem : Schema α) (length : Nat) : Schema (Tuple α length)
  | vector {α : Type} (type : String) (elem : Schema α) : Schema (List α)
  | map {κ β : Type} (type : String) (kind : MapKind) (order : KeyOrder κ) (key : Schema κ)
      (value : Schema β) : Schema (Dict order β)
  /-- A value behind an indirection. -/
  | box {α : Type} (type : String) (content : Schema α) : Schema α
  | option {α : Type} (type : String) (content : Schema α) : Schema (Option α)
  /-- Without a `placeholder`, the default value of the type has every field at its default. -/
  | record {α : Type} (type : String) (fields : Schema.Fields α)
      (validate : α → Except String Unit) (placeholder : Option α := none) : Schema α
  | custom {α : Type} (hook : Hook α) : Schema α

/-- The fields of a record in declaration order. -/
inductive Schema.Fields : Type → Type 1 where
  | nil : Schema.Fields Unit
  | cons {α β : Type} (info : FieldInfo) (schema : Schema α) (rest : Schema.Fields β) :
      Schema.Fields (α × β)

end

namespace Schema

/-- What messages call the type. -/
def type : {α : Type} → Schema α → String
  | _, .uint t => t.text
  | _, .array type _ _ => type
  | _, .vector type _ => type
  | _, .map type _ _ _ _ => type
  | _, .box type _ => type
  | _, .option type _ => type
  | _, .record type _ _ _ => type
  | _, .custom hook => hook.type

mutual

/-- The order of values as map keys. -/
def order : {α : Type} → Schema α → KeyOrder α
  | _, .uint t => .bitVec t.bits
  | _, .array _ elem _ => elem.order.list.onKey Subtype.val fun _ _ => Subtype.ext
  | _, .vector _ elem => elem.order.list
  | _, .map _ _ _ key value => .dict key.order value.order
  | _, .box _ content => content.order
  | _, .option _ content => content.order.option
  | _, .record _ fields _ _ => fields.order
  | _, .custom hook => hook.order

/-- Records compare field by field. -/
def Fields.order : {α : Type} → Fields α → KeyOrder α
  | _, .nil => .unit
  | _, .cons _ schema rest => schema.order.pair rest.order

end

mutual

/-- The value of a field that is not on the wire. -/
def default : {α : Type} → Schema α → α
  | _, .uint t => 0#t.bits
  | _, .array _ elem length => ⟨List.replicate length elem.default, List.length_replicate⟩
  | _, .vector _ _ => []
  | _, .map _ _ _ _ _ => .empty
  | _, .box _ content => content.default
  | _, .option _ _ => none
  | _, .record _ fields _ placeholder => placeholder.getD fields.default
  | _, .custom hook => hook.default

/-- Every field at its default. -/
def Fields.default : {α : Type} → Fields α → α
  | _, .nil => ()
  | _, .cons _ schema rest => (schema.default, rest.default)

end

end Schema

end TlsWire
