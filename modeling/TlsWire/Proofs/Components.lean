import TlsWire.Encode
import Mathlib.Algebra.GroupWithZero.Nat
import Mathlib.Logic.Relation

/-!
# What goes on the wire

A `Component` is a value together with the schema and the directive under which it is written. Its
`Part`s are the values that it is written from, and `OnWire root` are all components that are
reached from `root` in this way, `root` itself included. What is in an omitted field is not among
them.

What a component has to be like so that it can be written: its own type accepts it
(`Schema.validate`), and its form has room for it (`Schema.Writable`).
-/

namespace TlsWire

/-- A value and how it is written. -/
structure Component : Type 1 where
  {type : Type}
  schema : Schema type
  directive : Directive
  value : type

/-- The fields that are not omitted, each under its own directive. -/
def Schema.Fields.Part : {α : Type} → Schema.Fields α → α → Component → Prop
  | _, .nil, _, _ => False
  | _, .cons info schema rest, (x, xs), c =>
    info.directive ≠ .omit ∧ c = ⟨schema, info.directive, x⟩ ∨ rest.Part xs c

/-- What the value is written from. -/
def Schema.Part : {α : Type} → Schema α → Directive → α → Component → Prop
  | _, .uint _, _, _, _ => False
  | _, .array _ elem _, _, xs, c => ∃ x ∈ xs.val, c = ⟨elem, .default, x⟩
  | _, .vector _ elem, _, xs, c => ∃ x ∈ xs, c = ⟨elem, .default, x⟩
  | _, .map _ _ _ key value, _, dict, c =>
    ∃ e ∈ dict.entries, c = ⟨key, .default, e.1⟩ ∨ c = ⟨value, .default, e.2⟩
  | _, .box _ content, d, x, c => c = ⟨content, d, x⟩
  -- The flag belongs to the option. What is behind it is written under the default directive.
  | _, .option _ content, d, x, c =>
    ∃ y ∈ x, c = ⟨content, if d = .optional then .default else d, y⟩
  | _, .record _ fields _ _, _, x, c => fields.Part x c
  | _, .custom _, _, _, _ => False

namespace Component

/-- What the component is written from. -/
def Part (whole part : Component) : Prop := whole.schema.Part whole.directive whole.value part

/-- The component itself, its parts, their parts and so on. -/
def OnWire : Component → Component → Prop := Relation.ReflTransGen Part

/-- Whether `p` holds of everything on the wire. -/
def Throughout (p : Component → Prop) (root : Component) : Prop := ∀ c, OnWire root c → p c

/-- A condition holds of everything on the wire if it holds of the value itself and throughout its
parts. -/
theorem throughout_iff {p : Component → Prop} {root : Component} :
    root.Throughout p ↔ p root ∧ ∀ part, root.Part part → part.Throughout p := by
  constructor
  · intro h
    refine ⟨h root .refl, fun part hpart c hc => h c ?_⟩
    exact .head hpart hc
  · intro h c hc
    -- What is reached is the value itself, or it is reached through one of the parts.
    rcases Relation.ReflTransGen.cases_head_iff.mp hc with rfl | ⟨part, hpart, hc⟩
    · exact h.1
    · exact h.2 part hpart c hc

end Component

/-- Whether a head can state this length. -/
def Head.Admits : Head → Nat → Prop
  | .fixed width, length => length ≤ 2 ^ (8 * width) - 1
  | .varint, length => length ≤ 2 ^ 62 - 1
  | .unbounded, _ => True

namespace Schema

/-- What the type itself says about a value. Only records and hooks have a say. -/
def validate : {α : Type} → Schema α → α → Except String Unit
  | _, .record _ _ validate _, x => validate x
  | _, .custom hook, x => hook.validate x
  | _, _, _ => .ok ()

/-- How many bytes the form of a value has, if it has one. -/
def formLength {α : Type} (schema : Schema α) (x : α) : Nat :=
  match schema.marshal x with
  | .ok b => b.length
  | .error _ => 0

/-- Whether the form of a value has room for it, as far as its parts have forms. -/
def Writable : {α : Type} → Schema α → Directive → α → Prop
  | _, .uint _, d, n => d = .varint → n.toNat < 2 ^ 62
  | _, .vector _ elem, d, xs =>
    ∀ head, d.head? = some head → head.Admits (xs.map elem.formLength).sum
  | _, .map _ _ _ key value, d, dict =>
    -- Two keys that are written alike could not be told apart.
    (dict.entries.Pairwise fun a b =>
      ¬ ∃ form, key.marshal a.1 = .ok form ∧ key.marshal b.1 = .ok form) ∧
    ∀ head, d.head? = some head →
      head.Admits (dict.entries.map fun e => key.formLength e.1 + value.formLength e.2).sum
  | _, .option _ _, d, x => d ≠ .optional → x ≠ none
  | _, .custom hook, _, x => ∃ b, hook.encode x = .ok b
  | _, _, _, _ => True

end Schema

/-- Whether there is nothing about the component that keeps it from being written. -/
structure Component.Sendable (c : Component) : Prop where
  accepted : c.schema.validate c.value = .ok ()
  writable : c.schema.Writable c.directive c.value

/-! ## Kinds of components -/

namespace Component

variable {α β κ : Type} {type : String} {d : Directive}

/-- Where nothing but the form can say no, the parts say the rest. -/
theorem throughout_of_accepted {schema : Schema α} {x : α} (h : schema.validate x = .ok ()) :
    Throughout Sendable ⟨schema, d, x⟩ ↔
      schema.Writable d x ∧ ∀ part, schema.Part d x part → part.Throughout Sendable := by
  rw [throughout_iff]
  refine and_congr_left fun _ => ?_
  exact ⟨fun hsend => hsend.writable, fun hwritable => ⟨h, hwritable⟩⟩

/-- A number has no parts, and only a varint has numbers that it cannot hold. -/
theorem throughout_uint {t : UintType} {n : BitVec t.bits} :
    Throughout Sendable ⟨.uint t, d, n⟩ ↔ (d = .varint → n.toNat < 2 ^ 62) := by
  rw [throughout_of_accepted rfl]
  exact and_iff_left nofun

/-- An array asks nothing beyond its elements. -/
theorem throughout_array {elem : Schema α} {length : Nat} {xs : Tuple α length} :
    Throughout Sendable ⟨.array type elem length, d, xs⟩ ↔
      ∀ x ∈ xs.val, Throughout Sendable ⟨elem, .default, x⟩ := by
  rw [throughout_of_accepted rfl]
  constructor
  · intro h x hx
    exact h.2 _ ⟨x, hx, rfl⟩
  · intro h
    refine ⟨trivial, fun part hpart => ?_⟩
    obtain ⟨x, hx, rfl⟩ := hpart
    exact h x hx

/-- A vector asks of its elements, and that its head can state the length of their forms. -/
theorem throughout_vector {elem : Schema α} {xs : List α} :
    Throughout Sendable ⟨.vector type elem, d, xs⟩ ↔
      (∀ x ∈ xs, Throughout Sendable ⟨elem, .default, x⟩) ∧
        Schema.Writable (.vector type elem) d xs := by
  rw [throughout_of_accepted rfl, and_comm]
  refine and_congr_left fun _ => ?_
  constructor
  · intro h x hx
    exact h _ ⟨x, hx, rfl⟩
  · intro h part hpart
    obtain ⟨x, hx, rfl⟩ := hpart
    exact h x hx

/-- A map asks of its keys and values, and of itself that its keys can be told apart and its head
can state the length. -/
theorem throughout_map {kind : MapKind} {order : KeyOrder κ} {key : Schema κ} {value : Schema β}
    {dict : Dict order β} :
    Throughout Sendable ⟨.map type kind order key value, d, dict⟩ ↔
      (∀ e ∈ dict.entries, Throughout Sendable ⟨key, .default, e.1⟩ ∧
        Throughout Sendable ⟨value, .default, e.2⟩) ∧
      Schema.Writable (.map type kind order key value) d dict := by
  rw [throughout_of_accepted rfl, and_comm]
  refine and_congr_left fun _ => ?_
  constructor
  · intro h e he
    exact ⟨h _ ⟨e, he, .inl rfl⟩, h _ ⟨e, he, .inr rfl⟩⟩
  · intro h part hpart
    obtain ⟨e, he, rfl | rfl⟩ := hpart
    · exact (h e he).1
    · exact (h e he).2

/-- An indirection asks nothing of its own. -/
theorem throughout_box {content : Schema α} {x : α} :
    Throughout Sendable ⟨.box type content, d, x⟩ ↔ Throughout Sendable ⟨content, d, x⟩ := by
  rw [throughout_of_accepted rfl]
  constructor
  · intro h
    exact h.2 _ rfl
  · intro h
    refine ⟨trivial, fun part hpart => ?_⟩
    cases hpart
    exact h

/-- Only a flag can say that there is no value. -/
theorem throughout_none {content : Schema α} :
    Throughout Sendable ⟨.option type content, d, none⟩ ↔ d = .optional := by
  rw [throughout_of_accepted rfl]
  constructor
  · intro h
    exact Decidable.byContradiction fun hd => h.1 hd rfl
  · intro h
    exact ⟨fun hd => absurd h hd, nofun⟩

/-- What is there is written under the directive that the option leaves to its content. -/
theorem throughout_some {content : Schema α} {x : α} :
    Throughout Sendable ⟨.option type content, d, some x⟩ ↔
      Throughout Sendable ⟨content, if d = .optional then .default else d, x⟩ := by
  rw [throughout_of_accepted rfl]
  constructor
  · intro h
    exact h.2 _ ⟨x, rfl, rfl⟩
  · intro h
    refine ⟨fun _ => nofun, fun part hpart => ?_⟩
    obtain ⟨y, hy, rfl⟩ := hpart
    cases hy
    exact h

/-- A record asks that it accepts itself, and asks of its present fields. -/
theorem throughout_record {fields : Schema.Fields α} {validate : α → Except String Unit}
    {placeholder : Option α} {x : α} :
    Throughout Sendable ⟨.record type fields validate placeholder, d, x⟩ ↔
      validate x = .ok () ∧ ∀ c, fields.Part x c → c.Throughout Sendable := by
  -- The record may refuse the value, so the form is not the only one that can say no.
  rw [throughout_iff]
  refine and_congr_left fun _ => ?_
  exact ⟨fun h => h.accepted, fun h => ⟨h, trivial⟩⟩

/-- A hook asks that it accepts the value and has bytes for it. -/
theorem throughout_custom {hook : Hook α} {x : α} :
    Throughout Sendable ⟨.custom hook, d, x⟩ ↔
      hook.validate x = .ok () ∧ ∃ b, hook.encode x = .ok b := by
  rw [throughout_iff]
  constructor
  · intro h
    exact ⟨h.1.accepted, h.1.writable⟩
  · intro h
    exact ⟨⟨h.1, h.2⟩, nofun⟩

end Component

end TlsWire
