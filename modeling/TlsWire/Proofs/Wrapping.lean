import TlsWire.Proofs.Alike
import TlsWire.Proofs.Schema.Resolve

/-!
# Types behind indirections

A box, and an option without a presence flag, have nothing of their own on the wire. So a type may
be put behind one of them wherever it occurs in another type. `schema.Wraps d schema' wrap` says
that `schema'` is `schema` with some of its parts put behind boxes and options, and that `wrap`
takes values of one to values of the other. Nothing is put behind anything where the directive asks
for a flag, nor in an omitted field.

* `Schema.Wraps.order` — the orders that come with the types agree, so maps that are ordered by
  them correspond;
* `Schema.Wraps.resolve` — both resolve or none does, and what encloses them sees no difference
  between the shapes.
-/

namespace TlsWire

variable {α α' β β' κ κ' : Type}

/-- Applies a function to every item. -/
def Tuple.map {length : Nat} (f : α → β) (xs : Tuple α length) : Tuple β length :=
  ⟨xs.val.map f, by rw [List.length_map, xs.property]⟩

/-- Whether images compare as what they are images of. -/
def KeyOrder.Keeps (order : KeyOrder α) (order' : KeyOrder β) (f : α → β) : Prop :=
  ∀ a b, order'.cmp (f a) (f b) = order.cmp a b

/-- Applies functions to the keys and to the values. The one for the keys keeps their order. -/
def Dict.map {order : KeyOrder κ} {order' : KeyOrder κ'} (f : κ → κ') (g : β → β')
    (horder : order.Keeps order' f) (dict : Dict order β) : Dict order' β' where
  entries := dict.entries.map (Prod.map f g)
  ascending := List.pairwise_map.mpr (dict.ascending.imp fun hlt => (horder _ _).trans hlt)

/-- The directive for what is behind an indirection. A presence flag is for the option itself. -/
def Directive.behind (d : Directive) : Directive := if d = .optional then .default else d

/-- A flag is used up by the option. -/
theorem Directive.behind_optional : behind .optional = .default := rfl

/-- Every other directive is handed on. -/
theorem Directive.behind_of_ne {d : Directive} (h : d ≠ .optional) : d.behind = d := if_neg h

/-- Behind an indirection no flag is asked for, since the option itself has had it. -/
theorem Directive.behind_ne_optional {d : Directive} : d.behind ≠ .optional := by
  unfold behind
  split
  case isTrue => nofun
  case isFalse h => exact h

namespace Schema

mutual

/-- The second schema is the first one with some parts of it put behind boxes and options. What
types are called may change, and so may what records give as their reason for a rejection. -/
inductive Wraps : {α α' : Type} → Directive → Schema α → Schema α' → (α → α') → Prop where
  /-- Behind a box. -/
  | newBox {α α' : Type} {d : Directive} {type : String} {schema : Schema α} {schema' : Schema α'}
      {wrap : α → α'} (hd : d ≠ .optional) (h : Wraps d schema schema' wrap) :
      Wraps d schema (.box type schema') wrap
  /-- Behind an option that has a value. -/
  | newOption {α α' : Type} {d : Directive} {type : String} {schema : Schema α}
      {schema' : Schema α'} {wrap : α → α'} (hd : d ≠ .optional)
      (h : Wraps d schema schema' wrap) :
      Wraps d schema (.option type schema') fun x => some (wrap x)
  | uint {d : Directive} {t : UintType} : Wraps d (.uint t) (.uint t) id
  | array {α α' : Type} {d : Directive} {type type' : String} {length : Nat} {elem : Schema α}
      {elem' : Schema α'} {wrap : α → α'} (h : Wraps .default elem elem' wrap) :
      Wraps d (.array type elem length) (.array type' elem' length) (Tuple.map wrap)
  | vector {α α' : Type} {d : Directive} {type type' : String} {elem : Schema α}
      {elem' : Schema α'} {wrap : α → α'} (h : Wraps .default elem elem' wrap) :
      Wraps d (.vector type elem) (.vector type' elem') (List.map wrap)
  /-- Corresponding keys are in the same order, so entries are visited in the same order. -/
  | map {κ κ' β β' : Type} {d : Directive} {type type' : String} {kind : MapKind}
      {order : KeyOrder κ} {order' : KeyOrder κ'} {key : Schema κ} {key' : Schema κ'}
      {value : Schema β} {value' : Schema β'} {wrapKey : κ → κ'} {wrapValue : β → β'}
      (horder : order.Keeps order' wrapKey)
      (hkey : Wraps .default key key' wrapKey) (hvalue : Wraps .default value value' wrapValue) :
      Wraps d (.map type kind order key value) (.map type' kind order' key' value')
        (Dict.map wrapKey wrapValue horder)
  | box {α α' : Type} {d : Directive} {type type' : String} {content : Schema α}
      {content' : Schema α'} {wrap : α → α'} (h : Wraps d.behind content content' wrap) :
      Wraps d (.box type content) (.box type' content') wrap
  | option {α α' : Type} {d : Directive} {type type' : String} {content : Schema α}
      {content' : Schema α'} {wrap : α → α'} (h : Wraps d.behind content content' wrap) :
      Wraps d (.option type content) (.option type' content') (Option.map wrap)
  /-- Corresponding values are accepted alike. What the two types hold by default need not
  correspond, for a field with such a default stays as it is. -/
  | record {α α' : Type} {d : Directive} {type type' : String} {fields : Fields α}
      {fields' : Fields α'} {validate : α → Except String Unit}
      {validate' : α' → Except String Unit} {placeholder : Option α} {placeholder' : Option α'}
      {wrap : α → α'} (hvalidate : ∀ x, validate' (wrap x) = .ok () ↔ validate x = .ok ())
      (h : fields.Wraps fields' wrap) :
      Wraps d (.record type fields validate placeholder)
        (.record type' fields' validate' placeholder') wrap
  | custom {α : Type} {d : Directive} {hook : Hook α} : Wraps d (.custom hook) (.custom hook) id

/-- The same for the fields of a record. Omitted ones stay as they are. -/
inductive Fields.Wraps : {α α' : Type} → Fields α → Fields α' → (α → α') → Prop where
  | nil : Fields.Wraps .nil .nil id
  | cons {α α' β β' : Type} {name type type' : String} {d : Directive} {schema : Schema α}
      {schema' : Schema α'} {rest : Fields β} {rest' : Fields β'} {wrap : α → α'}
      {wrapRest : β → β'} (hd : d ≠ .omit) (h : schema.Wraps d schema' wrap)
      (hrest : rest.Wraps rest' wrapRest) :
      Fields.Wraps (.cons ⟨name, d, type⟩ schema rest) (.cons ⟨name, d, type'⟩ schema' rest')
        (Prod.map wrap wrapRest)
  | omitted {α β β' : Type} {name type : String} {schema : Schema α} {rest : Fields β}
      {rest' : Fields β'} {wrapRest : β → β'} (hrest : rest.Wraps rest' wrapRest) :
      Fields.Wraps (.cons ⟨name, .omit, type⟩ schema rest) (.cons ⟨name, .omit, type⟩ schema rest')
        (Prod.map id wrapRest)

end

/-- Only a directive that asks for a flag can rule out that something is put behind a box. -/
theorem Wraps.under {d d' : Directive} (hd : d' = .optional → d = .optional) :
    {α α' : Type} → {schema : Schema α} → {schema' : Schema α'} → {wrap : α → α'} →
    schema.Wraps d schema' wrap → schema.Wraps d' schema' wrap
  | _, _, _, _, _, .newBox hne h => .newBox (fun h' => hne (hd h')) (h.under hd)
  | _, _, _, _, _, .newOption hne h => .newOption (fun h' => hne (hd h')) (h.under hd)
  | _, _, _, _, _, .uint => .uint
  | _, _, _, _, _, .array h => .array h
  | _, _, _, _, _, .vector h => .vector h
  | _, _, _, _, _, .map horder hkey hvalue => .map horder hkey hvalue
  | _, _, _, _, _, .box h => .box (h.under fun h' => absurd h' Directive.behind_ne_optional)
  | _, _, _, _, _, .option h => .option (h.under fun h' => absurd h' Directive.behind_ne_optional)
  | _, _, _, _, _, .record hvalidate h => .record hvalidate h
  | _, _, _, _, _, .custom => .custom

end Schema

/-! ## Orders -/

namespace KeyOrder.Keeps

variable {order : KeyOrder α} {order' : KeyOrder β} {f : α → β}

/-- Different values have different images, because the orders tell values apart exactly. -/
theorem injective (h : order.Keeps order' f) : Function.Injective f := by
  intro a b heq
  rw [← order.cmp_eq_iff, ← h, order'.cmp_eq_iff]
  exact heq

/-- Lists of images compare as the lists do. -/
theorem list (h : order.Keeps order' f) : order.list.Keeps order'.list (List.map f) := by
  intro xs
  induction xs with
  | nil =>
    intro ys
    cases ys <;> rfl
  | cons x xs ih =>
    intro ys
    cases ys with
    | nil => rfl
    | cons y ys =>
      -- The first items decide, or else the others, on both sides alike.
      show List.compareLex order'.cmp (f x :: xs.map f) (f y :: ys.map f) =
        List.compareLex order.cmp (x :: xs) (y :: ys)
      rw [List.compareLex_cons_cons, List.compareLex_cons_cons, h]
      exact congrArg _ (ih ys)

/-- Missing values are smallest in both orders. -/
theorem option (h : order.Keeps order' f) : order.option.Keeps order'.option (Option.map f) := by
  intro x y
  show order'.list.cmp (x.map f).toList (y.map f).toList = order.list.cmp x.toList y.toList
  rw [Option.toList_map, Option.toList_map]
  exact h.list _ _

/-- Among values that are there, the one without a value does not matter. -/
theorem some (h : order.Keeps order' f) : order.Keeps order'.option fun x => Option.some (f x) := by
  intro x y
  show List.compareLex order'.cmp [f x] [f y] = _
  rw [List.compareLex_cons_cons, List.compareLex_nil_nil, Ordering.then_eq, h]

/-- First components are compared first, and second ones only where these are equal. -/
theorem pair {first : KeyOrder κ} {first' : KeyOrder κ'} {g : κ → κ'} (hg : first.Keeps first' g)
    (h : order.Keeps order' f) : (first.pair order).Keeps (first'.pair order') (Prod.map g f) := by
  intro a b
  show (first'.cmp (g a.1) (g b.1)).then (order'.cmp (f a.2) (f b.2)) = _
  rw [hg, h]
  rfl

end KeyOrder.Keeps

namespace Schema

mutual

/-- The orders that come with the types agree. -/
theorem Wraps.order : {α α' : Type} → {d : Directive} → {schema : Schema α} →
    {schema' : Schema α'} → {wrap : α → α'} → schema.Wraps d schema' wrap →
    schema.order.Keeps schema'.order wrap
  | _, _, _, _, _, _, .newBox _ h => by
    rw [Schema.order]
    exact h.order
  | _, _, _, _, _, _, .newOption _ h => by
    rw [Schema.order]
    -- The new option always has a value, so it adds nothing to the comparison.
    exact h.order.some
  | _, _, _, _, _, _, .uint => fun _ _ => rfl
  | _, _, _, _, _, _, .array h => by
    rw [Schema.order, Schema.order]
    exact fun a b => h.order.list a.val b.val
  | _, _, _, _, _, _, .vector h => by
    rw [Schema.order, Schema.order]
    exact h.order.list
  | _, _, _, _, _, _, .map _ hkey hvalue => by
    rw [Schema.order, Schema.order]
    -- Maps compare entry by entry, and entries are visited in the same order on both sides.
    exact fun a b => (hkey.order.pair hvalue.order).list a.entries b.entries
  | _, _, _, _, _, _, .box h => by
    rw [Schema.order, Schema.order]
    exact h.order
  | _, _, _, _, _, _, .option h => by
    rw [Schema.order, Schema.order]
    exact h.order.option
  | _, _, _, _, _, _, .record _ h => by
    rw [Schema.order, Schema.order]
    exact h.order
  | _, _, _, _, _, _, .custom => fun _ _ => rfl

/-- Fields compare from the first to the last. An omitted one is compared like any other,
unchanged. -/
theorem Fields.Wraps.order : {α α' : Type} → {fields : Fields α} → {fields' : Fields α'} →
    {wrap : α → α'} → fields.Wraps fields' wrap → fields.order.Keeps fields'.order wrap
  | _, _, _, _, _, .nil => fun _ _ => rfl
  | _, _, _, _, _, .cons _ h hrest => by
    rw [Fields.order, Fields.order]
    exact h.order.pair hrest.order
  | _, _, _, _, _, .omitted hrest => by
    rw [Fields.order, Fields.order]
    exact KeyOrder.Keeps.pair (fun _ _ => rfl) hrest.order

end

end Schema

/-! ## Shapes -/

/-- The error without the names that types have. -/
def DirectiveError.unnamed : DirectiveError → DirectiveError
  | .unsupported d _ => .unsupported d ""
  | .unframed _ => .unframed ""
  | .greedy _ => .greedy ""
  | .field name e => .field name e.unnamed
  | .unknown text => .unknown text
  | .conflicting text => .conflicting text

/-- The same error but for what types are called. -/
def DirectiveError.Like (e e' : DirectiveError) : Prop := e'.unnamed = e.unnamed

/-- Every error is like itself. -/
theorem DirectiveError.Like.refl (e : DirectiveError) : e.Like e := rfl

/-- A renamed error differs in nothing but a name. -/
theorem DirectiveError.Renamed.like {type type' : String} {e e' : DirectiveError}
    (h : Renamed type type' e e') : e.Like e' := by
  cases h <;> rfl

/-- The name of a field is none of a type, so it stays. -/
theorem DirectiveError.Like.field {name : String} {e e' : DirectiveError} (h : e.Like e') :
    (DirectiveError.field name e).Like (.field name e') := by
  rw [Like, unnamed, unnamed, h]

namespace Shape

/-- What encloses the shapes sees no difference between them. -/
structure Like (shape shape' : Shape) : Prop where
  isGreedy : shape'.isGreedy = shape.isGreedy
  minLen : shape'.minLen = shape.minLen

/-- The same fields, with shapes that look the same. -/
inductive Fields.Like : Fields → Fields → Prop where
  | nil : Fields.Like .nil .nil
  | present {name : String} {d : Directive} {shape shape' : Shape} {rest rest' : Fields}
      (h : shape.Like shape') (hrest : Fields.Like rest rest') :
      Fields.Like (.present name d shape rest) (.present name d shape' rest')
  | absent {name : String} {d : Directive} {rest rest' : Fields} (hrest : Fields.Like rest rest') :
      Fields.Like (.absent name d rest) (.absent name d rest')

namespace Like

theorem refl (shape : Shape) : shape.Like shape := ⟨rfl, rfl⟩

variable {shape shape' : Shape}

/-- A pointer has nothing of its own. -/
theorem newPointer (h : shape.Like shape') : shape.Like (.pointer shape') where
  isGreedy := by rw [Shape.isGreedy, h.isGreedy]
  minLen := by rw [Shape.minLen, h.minLen]

/-- What is enclosed twice is seen as what is enclosed. -/
theorem pointer (h : shape.Like shape') : (Shape.pointer shape).Like (.pointer shape') where
  isGreedy := by rw [Shape.isGreedy, Shape.isGreedy, h.isGreedy]
  minLen := by rw [Shape.minLen, Shape.minLen, h.minLen]

/-- A flag is one byte whatever comes after it. -/
theorem optional (h : shape.Like shape') : (Shape.optional shape).Like (.optional shape') where
  isGreedy := by rw [Shape.isGreedy, Shape.isGreedy, h.isGreedy]
  minLen := rfl

/-- An array is never greedy, and its fewest bytes are those of its elements. -/
theorem array {length : Nat} (h : shape.Like shape') :
    (Shape.array shape length).Like (.array shape' length) where
  isGreedy := rfl
  minLen := by rw [Shape.minLen, Shape.minLen, h.minLen]

/-- Of a vector only the head can be seen. -/
theorem vector {head : Head} : (Shape.vector shape head).Like (.vector shape' head) where
  isGreedy := by cases head <;> rfl
  minLen := rfl

/-- The same for a map. -/
theorem map {head : Head} {keyShape keyShape' : Shape} :
    (Shape.map keyShape shape head).Like (.map keyShape' shape' head) where
  isGreedy := by cases head <;> rfl
  minLen := rfl

end Like

namespace Fields.Like

variable {shapes shapes' : Fields}

/-- Both have a field on the wire or neither has. -/
theorem anyPresent (h : shapes.Like shapes') : shapes'.anyPresent = shapes.anyPresent := by
  induction h with
  | nil => rfl
  | present => rfl
  | absent _ ih => exact ih

/-- A record is greedy where its last field is, and needs the bytes of all of its fields. -/
theorem record (h : shapes.Like shapes') : (Shape.record shapes).Like (.record shapes') := by
  have hfields : shapes'.isGreedy = shapes.isGreedy ∧ shapes'.minLen = shapes.minLen := by
    induction h with
    | nil => exact ⟨rfl, rfl⟩
    | present h hrest ih =>
      rw [isGreedy_present, isGreedy_present, Fields.minLen, Fields.minLen, h.isGreedy, h.minLen,
        hrest.anyPresent, ih.1, ih.2]
      exact ⟨rfl, rfl⟩
    | absent _ ih => exact ih
  exact ⟨hfields.1, hfields.2⟩

/-- The same field is found to be greedy in front of another one. -/
theorem checkGreedy {type type' : String} (h : shapes.Like shapes') :
    Alike DirectiveError.Like Eq (shapes.checkGreedy type) (shapes'.checkGreedy type') := by
  induction h with
  | nil => exact .ok rfl
  | present h hrest ih =>
    -- The check looks at the greed of the field, and at whether there is another one.
    rw [Fields.checkGreedy, Fields.checkGreedy, h.isGreedy, hrest.anyPresent]
    split
    · exact .error rfl
    · exact ih
  | absent _ ih => exact ih

end Fields.Like

end Shape

/-! ## Resolution -/

namespace Schema

section Checks

variable {d : Directive} {type type' : String}

/-- The check of a directive ignores everything but the name that it puts into its error. -/
theorem expectDefault_alike :
    Alike DirectiveError.Like Eq (expectDefault type d) (expectDefault type' d) :=
  expectDefault_renamed.mono (fun _ _ h => h.like) fun _ _ h => h

/-- So does the selection of a head. -/
theorem framing_alike : Alike DirectiveError.Like Eq (framing type d) (framing type' d) :=
  framing_renamed.mono (fun _ _ h => h.like) fun _ _ h => h

/-- Elements that look the same are refused alike. -/
theorem expectBounded_alike {shape shape' : Shape} (h : shape.Like shape') :
    Alike DirectiveError.Like Eq (expectBounded type shape) (expectBounded type' shape') :=
  (expectBounded_renamed h.isGreedy).mono (fun _ _ h => h.like) fun _ _ h => h

end Checks

/-- Two options under one directive both have a flag, or none has. -/
theorem resolve_options {d : Directive} {type type' : String} {content : Schema α}
    {content' : Schema α'} {shape shape' : Shape}
    (hshape : (Schema.option type content).resolve d = .ok shape)
    (hshape' : (Schema.option type' content').resolve d = .ok shape') :
    ∃ target target', content.resolve d.behind = .ok target ∧
      content'.resolve d.behind = .ok target' ∧
      (shape = .optional target ∧ shape' = .optional target' ∨
        shape = .pointer target ∧ shape' = .pointer target') := by
  -- The directive alone tells which of the two it is.
  rcases resolve_option.mp hshape with ⟨rfl, target, htarget, rfl⟩ | ⟨hd, target, htarget, rfl⟩
  · obtain ⟨_, target', htarget', rfl⟩ | ⟨hd, _⟩ := resolve_option.mp hshape'
    · exact ⟨target, target', htarget, htarget', .inl ⟨rfl, rfl⟩⟩
    · exact absurd rfl hd
  · obtain ⟨hd', _⟩ | ⟨_, target', htarget', rfl⟩ := resolve_option.mp hshape'
    · exact absurd hd' hd
    · rw [Directive.behind_of_ne hd]
      exact ⟨target, target', htarget, htarget', .inr ⟨rfl, rfl⟩⟩

mutual

/-- Both types resolve or none does. -/
theorem Wraps.resolve : {α α' : Type} → {d : Directive} → {schema : Schema α} →
    {schema' : Schema α'} → {wrap : α → α'} → schema.Wraps d schema' wrap →
    Alike DirectiveError.Like Shape.Like (schema.resolve d) (schema'.resolve d)
  | _, _, _, _, _, _, .newBox hd h => by
    rw [Schema.resolve, if_neg hd]
    exact h.resolve.bind_right fun _ _ hshape => hshape.newPointer
  | _, _, _, _, _, _, .newOption hd h => by
    rw [Schema.resolve, if_neg hd]
    exact h.resolve.bind_right fun _ _ hshape => hshape.newPointer
  | _, _, _, _, _, _, .uint => .refl DirectiveError.Like.refl Shape.Like.refl _
  | _, _, _, _, _, _, .array h => by
    rw [Schema.resolve, Schema.resolve]
    refine expectDefault_alike.bind fun _ _ _ => h.resolve.bind fun shape shape' hshape => ?_
    exact (expectBounded_alike hshape).bind fun _ _ _ => .pure hshape.array
  | _, _, _, _, _, _, .vector h => by
    rw [Schema.resolve, Schema.resolve]
    refine framing_alike.bind fun head head' hhead => h.resolve.bind fun shape shape' hshape => ?_
    subst hhead
    exact (expectBounded_alike hshape).bind fun _ _ _ => .pure .vector
  | _, _, _, _, _, _, .map _ hkey hvalue => by
    rw [Schema.resolve, Schema.resolve]
    refine framing_alike.bind fun head head' hhead => ?_
    subst hhead
    refine hkey.resolve.bind fun keyShape keyShape' hkeyShape => ?_
    refine (expectBounded_alike hkeyShape).bind fun _ _ _ => ?_
    refine hvalue.resolve.bind fun valueShape valueShape' hvalueShape => ?_
    exact (expectBounded_alike hvalueShape).bind fun _ _ _ => .pure .map
  | _, _, d, _, _, _, .box h => by
    have hcontent := h.resolve
    rw [Schema.resolve, Schema.resolve]
    split
    case isTrue => exact .error rfl
    case isFalse hd =>
      rw [Directive.behind_of_ne hd] at hcontent
      exact hcontent.bind fun _ _ hshape => .pure hshape.pointer
  | _, _, d, _, _, _, .option h => by
    have hcontent := h.resolve
    rw [Schema.resolve, Schema.resolve]
    split
    case isTrue hd =>
      -- With a flag the content is resolved under the default, which is the directive behind the
      -- option.
      rw [hd, Directive.behind_optional] at hcontent
      exact hcontent.bind fun _ _ hshape => .pure hshape.optional
    case isFalse hd =>
      rw [Directive.behind_of_ne hd] at hcontent
      exact hcontent.bind fun _ _ hshape => .pure hshape.pointer
  | _, _, _, _, _, _, .record _ h => by
    rw [Schema.resolve, Schema.resolve]
    refine expectDefault_alike.bind fun _ _ _ => h.resolve.bind fun shapes shapes' hshapes => ?_
    exact hshapes.checkGreedy.bind fun _ _ _ => .pure hshapes.record
  | _, _, _, _, _, _, .custom => .refl DirectiveError.Like.refl Shape.Like.refl _

/-- Field by field. What is wrong with a field is told with the name of the field, which is the
same. -/
theorem Fields.Wraps.resolve : {α α' : Type} → {fields : Fields α} → {fields' : Fields α'} →
    {wrap : α → α'} → fields.Wraps fields' wrap →
    Alike DirectiveError.Like Shape.Fields.Like fields.resolve fields'.resolve
  | _, _, _, _, _, .nil => .ok .nil
  | _, _, _, _, _, .cons hd h hrest => by
    rw [Fields.resolve, Fields.resolve, if_neg hd, if_neg hd]
    refine (h.resolve.mapError fun _ _ => .field).bind fun shape shape' hshape => ?_
    exact hrest.resolve.bind fun shapes shapes' hshapes => .pure (.present hshape hshapes)
  | _, _, _, _, _, .omitted hrest => by
    rw [Fields.resolve, Fields.resolve, if_pos rfl, if_pos rfl]
    exact hrest.resolve.bind fun shapes shapes' hshapes => .pure (.absent hshapes)

end

end Schema

end TlsWire
