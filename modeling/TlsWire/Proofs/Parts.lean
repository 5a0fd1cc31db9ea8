import TlsWire.Decode
import TlsWire.Encode

/-!
# Parts of types and of values

`EachHook p` says that `p` holds of every hook in a schema, `EachPart p` that it holds of a value
and of everything inside it that goes on the wire. What is in an omitted field does not.

* `HookFree` — only the general rules are used;
* `Hook.Faithful` — what the hook writes, it reads back;
* `SizeWithin`, `SolidItems` — the two things that a decoder asks of vectors and maps.

`clearOmitted` is the value that is left of another one once it has been on the wire.
-/

namespace TlsWire

/-- What the hook writes for a value it accepts, it reads back, whatever follows. -/
def Hook.Faithful {α : Type} (hook : Hook α) : Prop :=
  ∀ x b, hook.validate x = .ok () → hook.encode x = .ok b →
    ∀ t, hook.decode (b ++ t) = .ok (b.length, x)

namespace Schema

mutual

/-- Whether `p` holds of every hook in the schema. -/
def EachHook (p : {α : Type} → Hook α → Prop) : {α : Type} → Schema α → Prop
  | _, .uint _ => True
  | _, .array _ elem _ => elem.EachHook p
  | _, .vector _ elem => elem.EachHook p
  | _, .map _ _ _ key value => key.EachHook p ∧ value.EachHook p
  | _, .box _ content => content.EachHook p
  | _, .option _ content => content.EachHook p
  | _, .record _ fields _ _ => fields.EachHook p
  | _, .custom hook => p hook

/-- Whether `p` holds of every hook in the fields. -/
def Fields.EachHook (p : {α : Type} → Hook α → Prop) : {α : Type} → Fields α → Prop
  | _, .nil => True
  | _, .cons _ schema rest => schema.EachHook p ∧ rest.EachHook p

end

/-- Whether no type in the schema has a hook. -/
def HookFree {α : Type} (schema : Schema α) : Prop := schema.EachHook fun _ => False

def Fields.HookFree {α : Type} (fields : Fields α) : Prop := fields.EachHook fun _ => False

mutual

/-- Whether `p` holds of a value and of every part of it that is on the wire. -/
def EachPart (p : {α : Type} → Schema α → α → Prop) : {α : Type} → Schema α → α → Prop
  | _, .uint t, n => p (.uint t) n
  | _, .array type elem length, xs =>
    p (.array type elem length) xs ∧ ∀ x ∈ xs.val, elem.EachPart p x
  | _, .vector type elem, xs => p (.vector type elem) xs ∧ ∀ x ∈ xs, elem.EachPart p x
  | _, .map type kind order key value, dict =>
    p (.map type kind order key value) dict ∧
      ∀ e ∈ dict.entries, key.EachPart p e.1 ∧ value.EachPart p e.2
  | _, .box type content, x => p (.box type content) x ∧ content.EachPart p x
  | _, .option type content, x => p (.option type content) x ∧ ∀ y ∈ x, content.EachPart p y
  | _, .record type fields validate placeholder, x =>
    p (.record type fields validate placeholder) x ∧ fields.EachPart p x
  | _, .custom hook, x => p (.custom hook) x

/-- Whether `p` holds of every part of the fields that are not omitted. -/
def Fields.EachPart (p : {α : Type} → Schema α → α → Prop) : {α : Type} → Fields α → α → Prop
  | _, .nil, _ => True
  | _, .cons info schema rest, (x, xs) =>
    (info.directive ≠ .omit → schema.EachPart p x) ∧ rest.EachPart p xs

end

/-- Whether a vector or map has at most this many elements. -/
def SizeWithin (limit : Nat) : {α : Type} → Schema α → α → Prop
  | _, .vector _ _, xs => xs.length ≤ limit
  | _, .map _ _ _ _ _, dict => dict.size ≤ limit
  | _, _, _ => True

/-- Whether every element of a vector, and every entry of a map, takes at least one byte. -/
def SolidItems : {α : Type} → Schema α → α → Prop
  | _, .vector _ elem, xs => ∀ x ∈ xs, elem.marshal x ≠ .ok []
  | _, .map _ _ _ key value, dict =>
    ∀ e ∈ dict.entries, ¬ (key.marshal e.1 = .ok [] ∧ value.marshal e.2 = .ok [])
  | _, _, _ => True

mutual

/-- The value with every omitted field in it at its default. -/
def clearOmitted : {α : Type} → Schema α → α → α
  | _, .uint _, n => n
  | _, .array _ elem _, xs => ⟨xs.val.map elem.clearOmitted, by rw [List.length_map, xs.property]⟩
  | _, .vector _ elem, xs => xs.map elem.clearOmitted
  | _, .map _ _ _ key value, dict =>
    .ofEntries (dict.entries.map (Prod.map key.clearOmitted value.clearOmitted))
  | _, .box _ content, x => content.clearOmitted x
  | _, .option _ content, x => x.map content.clearOmitted
  | _, .record _ fields _ _, x => fields.clearOmitted x
  | _, .custom _, x => x

/-- The fields, those that are omitted at their defaults. -/
def Fields.clearOmitted : {α : Type} → Fields α → α → α
  | _, .nil, x => x
  | _, .cons info schema rest, (x, xs) =>
    (if info.directive = .omit then schema.default else schema.clearOmitted x,
      rest.clearOmitted xs)

end

end Schema

end TlsWire
