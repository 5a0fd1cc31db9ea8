import TlsWire.Proofs.Decode.Limited

/-!
# The collection limit is exact

What is decoded under a limit is what is decoded under an ample one and has no vector or map with
more elements than the limit, at any depth (`Schema.unmarshalWith_limit_exact`). No error under a
limit is about anything but the input and the limit.
-/

namespace TlsWire

variable {α β : Type}

namespace Schema

open Decoder

/-- An omitted field has no part that a limit could be about. A present one is decoded before the
rest, and whichever of the two first meets the limit decides. -/
theorem Fields.decode_cons_limited {ample limit : Nat} {info : FieldInfo} {schema : Schema α}
    {rest : Fields β} {shapes : Shape.Fields}
    (hresolve : (Fields.cons info schema rest).resolve = .ok shapes)
    (hfield : ∀ shape, schema.resolve info.directive = .ok shape →
      LimitedBy ample limit (schema.EachPart (SizeWithin limit))
        fun ctx => schema.decode ctx shape)
    (hrest : ∀ shapes, rest.resolve = .ok shapes →
      LimitedBy ample limit (rest.EachPart (SizeWithin limit)) fun ctx => rest.decode ctx shapes) :
    LimitedBy ample limit ((Fields.cons info schema rest).EachPart (SizeWithin limit))
      fun ctx => (Fields.cons info schema rest).decode ctx shapes := by
  intro ctx
  rcases Fields.resolve_cons.mp hresolve with ⟨homit, restShapes, hrestShapes, rfl⟩ |
    ⟨hon, shape, restShapes, hshape, hrestShapes, rfl⟩
  · simp only [Fields.decode, bind_pure_comp]
    refine .map (hrest restShapes hrestShapes ctx) fun xs => ?_
    simp only [Fields.EachPart, homit, ne_eq, not_true, false_implies, true_and]
  · simp only [Fields.decode]
    refine .pos_bind fun pos => ?_
    refine .both (hfield shape hshape (ctx.push info.name pos))
      (schema.decode_forward _ shape) (hrest restShapes hrestShapes ctx) fun x xs => ?_
    simp only [Fields.EachPart, hon, ne_eq, not_false_iff, true_implies]

mutual

/-- Under a limit a value is decoded as under an ample one, if all of its collections are within the
limit. -/
theorem decode_limited (ample limit : Nat) : {α : Type} → (schema : Schema α) → {d : Directive} →
    {shape : Shape} → schema.resolve d = .ok shape →
    LimitedBy ample limit (schema.EachPart (SizeWithin limit)) fun ctx => schema.decode ctx shape
  | _, .uint _, _, _, hresolve => by
    simp only [decode, EachPart, SizeWithin]
    rcases resolve_uint.mp hresolve with ⟨_, rfl⟩ | ⟨_, rfl⟩
    -- The limit is met by vectors and maps only. The other kinds hand on what happens in their
    -- parts.
    · exact .ofUint (.inl rfl)
    · exact .ofUint (.inr rfl)
  | _, .array _ elem _, _, _, hresolve => by
    obtain ⟨_, elemShape, helem, _, rfl⟩ := resolve_array.mp hresolve
    simp only [decode, EachPart, SizeWithin, true_and]
    exact .ofArray (decode_limited ample limit elem helem) fun ctx => elem.decode_forward ctx _
  | _, .vector _ elem, _, _, hresolve => by
    obtain ⟨head, elemShape, _, helem, _, rfl⟩ := resolve_vector.mp hresolve
    simp only [decode, EachPart, SizeWithin]
    exact .ofVector (decode_limited ample limit elem helem)
  | _, .map _ _ _ key value, _, _, hresolve => by
    obtain ⟨head, keyShape, valueShape, _, hkey, _, hvalue, _, rfl⟩ := resolve_map.mp hresolve
    simp only [decode, EachPart, SizeWithin]
    exact .ofMap (decode_limited ample limit key hkey) (fun ctx => key.decode_forward ctx _)
      (decode_limited ample limit value hvalue)
  | _, .box _ content, _, _, hresolve => by
    obtain ⟨_, target, hcontent, rfl⟩ := resolve_box.mp hresolve
    simp only [decode, EachPart, SizeWithin, true_and]
    exact .ofBox (decode_limited ample limit content hcontent)
  | _, .option _ content, _, _, hresolve => by
    simp only [decode, EachPart, SizeWithin, true_and]
    rcases resolve_option.mp hresolve with ⟨_, target, hcontent, rfl⟩ | ⟨_, target, hcontent, rfl⟩
    · exact .ofOption (.inl rfl) (decode_limited ample limit content hcontent)
    · exact .ofOption (.inr rfl) (decode_limited ample limit content hcontent)
  | _, .record _ fields _ _, _, _, hresolve => by
    obtain ⟨_, shapes, hfields, _, rfl⟩ := resolve_record.mp hresolve
    simp only [decode, EachPart, SizeWithin, true_and]
    exact .ofRecord (Fields.decode_limited ample limit fields hfields)
  | _, .custom _, _, _, hresolve => by
    obtain ⟨_, rfl⟩ := resolve_custom.mp hresolve
    simp only [decode, EachPart, SizeWithin]
    exact .ofHook

theorem Fields.decode_limited (ample limit : Nat) : {α : Type} → (fields : Fields α) →
    {shapes : Shape.Fields} → fields.resolve = .ok shapes →
    LimitedBy ample limit (fields.EachPart (SizeWithin limit)) fun ctx => fields.decode ctx shapes
  | _, .nil, _, _ => by
    intro ctx c _
    exact .same trivial
  | _, .cons _ schema rest, _, hresolve =>
    Fields.decode_cons_limited hresolve (fun _ => Schema.decode_limited ample limit schema)
      (fun _ => Fields.decode_limited ample limit rest)

end

/-! ## Whole inputs -/

section Whole

variable {schema : Schema α} {d : Directive} {shape : Shape} {ample config : Config} {data : Bytes}

/-- A whole input is decoded twice, and no collection in it has more elements than it has bytes. -/
theorem unmarshalWith_limited (hresolve : schema.resolve d = .ok shape)
    (hample : data.length ≤ ample.maxCollect) (config : Config) :
    Limited (schema.EachPart (SizeWithin config.maxCollect))
      (schema.decode (.top ample) shape (.ofBytes data))
      (schema.decode (.top config) shape (.ofBytes data)) :=
  schema.decode_limited ample.maxCollect config.maxCollect hresolve (.top config) (.ofBytes data)
    hample

/-- A value is decoded under a limit exactly if it is decoded under an ample one and all of its
collections are within the limit. -/
theorem unmarshalWith_ok_iff_within (hresolve : schema.resolve d = .ok shape)
    (hample : data.length ≤ ample.maxCollect) {n : Nat} {x : α} :
    schema.unmarshalWith d config data = .ok (n, x) ↔
      schema.unmarshalWith d ample data = .ok (n, x) ∧
        schema.EachPart (SizeWithin config.maxCollect) x := by
  have hlimited := unmarshalWith_limited hresolve hample config
  rw [unmarshalWith_ok hresolve, unmarshalWith_ok hresolve]
  -- The two runs are related in one of four ways, and only one of them is a value under the limit.
  generalize schema.decode (.top ample) shape (.ofBytes data) = r at hlimited
  generalize schema.decode (.top config) shape (.ofBytes data) = r' at hlimited
  cases hlimited with
  | same h =>
    constructor
    · rintro ⟨c, ⟨⟩, hn⟩
      exact ⟨⟨_, rfl, hn⟩, h⟩
    · exact And.left
  | beyond h =>
    constructor
    · rintro ⟨c, ⟨⟩, _⟩
    · rintro ⟨⟨c, ⟨⟩, _⟩, hw⟩
      exact absurd hw h
  | error _ => simp
  | sooner _ => simp

/-- A value with a collection beyond the limit is not decoded, and the limit is what is reported.
-/
theorem unmarshalWith_tooLarge (hresolve : schema.resolve d = .ok shape)
    (hample : data.length ≤ ample.maxCollect) {n : Nat} {x : α}
    (hrun : schema.unmarshalWith d ample data = .ok (n, x))
    (hbeyond : ¬ schema.EachPart (SizeWithin config.maxCollect) x) :
    ∃ loc, schema.unmarshalWith d config data = .error (.collectionTooLarge loc) := by
  have hlimited := unmarshalWith_limited hresolve hample config
  obtain ⟨c, hdecode, _⟩ := (unmarshalWith_ok hresolve).mp hrun
  rw [hdecode] at hlimited
  simp only [unmarshalWith_error hresolve]
  generalize schema.decode (.top config) shape (.ofBytes data) = r' at hlimited
  cases hlimited with
  | same h => exact absurd h hbeyond
  | beyond _ => exact ⟨_, _, rfl⟩

/-- An error under an ample limit is about the input. Under a limit it is met as well, unless the
limit is met first. -/
theorem unmarshalWith_error_limited (hresolve : schema.resolve d = .ok shape)
    (hample : data.length ≤ ample.maxCollect) {e : DecodeError}
    (hrun : schema.unmarshalWith d ample data = .error e) (config : Config) :
    e.OfInput ∧ (schema.unmarshalWith d config data = .error e ∨
      ∃ loc, schema.unmarshalWith d config data = .error (.collectionTooLarge loc)) := by
  have hlimited := unmarshalWith_limited hresolve hample config
  obtain ⟨c, hdecode⟩ := (unmarshalWith_error hresolve).mp hrun
  rw [hdecode] at hlimited
  simp only [unmarshalWith_error hresolve]
  generalize schema.decode (.top config) shape (.ofBytes data) = r' at hlimited
  cases hlimited with
  | error he => exact ⟨he, .inl ⟨_, rfl⟩⟩
  | sooner he => exact ⟨he, .inr ⟨_, _, rfl⟩⟩

/-- All ample limits are alike: none of them is met. -/
theorem unmarshalWith_ample_eq (hresolve : schema.resolve d = .ok shape)
    (hample : data.length ≤ ample.maxCollect) {other : Config}
    (hother : data.length ≤ other.maxCollect) :
    schema.unmarshalWith d other data = schema.unmarshalWith d ample data := by
  have hunmet : ∀ loc, schema.unmarshalWith d other data ≠ .error (.collectionTooLarge loc) :=
    fun loc hrun => (unmarshalWith_error_limited hresolve hother hrun ample).1
  cases hrun : schema.unmarshalWith d ample data with
  | ok r =>
    -- A collection beyond the other limit would have been reported, and that limit is never met.
    have hwithin : schema.EachPart (SizeWithin other.maxCollect) r.2 := by
      by_contra hbeyond
      obtain ⟨loc, hlarge⟩ := unmarshalWith_tooLarge hresolve hample hrun hbeyond
      exact hunmet loc hlarge
    exact (unmarshalWith_ok_iff_within hresolve hample).mpr ⟨hrun, hwithin⟩
  | error e =>
    obtain ⟨_, hsame | ⟨loc, hlarge⟩⟩ := unmarshalWith_error_limited hresolve hample hrun other
    · exact hsame
    · exact absurd hlarge (hunmet loc)

/-- Under a limit the outcome is the one under an ample limit, up to collections that are too large:
a value is decoded if all of its collections are within the limit, and is too large otherwise; an
error stays, unless the limit is met first. With which of the ample limits it is compared does not
matter. -/
theorem unmarshalWith_limit_exact (schema : Schema α) (d : Directive) (data : Bytes)
    (config : Config) (hample : data.length ≤ ample.maxCollect) :
    (∀ n x, schema.unmarshalWith d config data = .ok (n, x) ↔
      schema.unmarshalWith d ample data = .ok (n, x) ∧
        schema.EachPart (SizeWithin config.maxCollect) x) ∧
    (∀ n x, schema.unmarshalWith d ample data = .ok (n, x) →
      ¬ schema.EachPart (SizeWithin config.maxCollect) x →
      ∃ loc, schema.unmarshalWith d config data = .error (.collectionTooLarge loc)) ∧
    (∀ e, schema.unmarshalWith d ample data = .error e →
      schema.unmarshalWith d config data = .error e ∨
        ∃ loc, schema.unmarshalWith d config data = .error (.collectionTooLarge loc)) ∧
    ∀ other : Config, data.length ≤ other.maxCollect →
      schema.unmarshalWith d other data = schema.unmarshalWith d ample data := by
  cases hresolve : schema.resolve d with
  | error e =>
    -- Without a shape nothing is decoded, whatever the limit.
    have hrun : ∀ config, schema.unmarshalWith d config data = .error (.invalidDirective e) := by
      intro config
      rw [unmarshalWith, hresolve]
    simp [hrun]
  | ok shape =>
    refine ⟨fun n x => unmarshalWith_ok_iff_within hresolve hample, ?_, ?_, ?_⟩
    · exact fun n x hrun hbeyond => unmarshalWith_tooLarge hresolve hample hrun hbeyond
    · exact fun e hrun => (unmarshalWith_error_limited hresolve hample hrun config).2
    · exact fun other hother => unmarshalWith_ample_eq hresolve hample hother

/-- The vector inside a vector has two elements, which is one more than the lower limit. -/
theorem unmarshalWith_limit_exact_nested :
    let part : Schema (List (BitVec 8) × Unit) :=
      .record "Part"
        (.cons ⟨"body", .head 1, "Vec<u8>"⟩ (.vector "Vec<u8>" (.uint .u8)) .nil) fun _ => .ok ()
    let schema : Schema (List (List (BitVec 8) × Unit)) := .vector "Vec<Part>" part
    let data : Bytes := [3, 2, 8, 9]
    data.length ≤ 4 ∧ schema.unmarshalWith (.head 1) ⟨4⟩ data = .ok (4, [([8, 9], ())]) ∧
      schema.unmarshalWith (.head 1) ⟨2⟩ data = .ok (4, [([8, 9], ())]) ∧
      ∃ loc, schema.unmarshalWith (.head 1) ⟨1⟩ data = .error (.collectionTooLarge loc) := by
  intro part schema data
  let shape : Shape := .record (.present "body" (.head 1) (.vector (.integer 8) (.fixed 1)) .nil)
  have hlen : data.length ≤ (⟨4⟩ : Config).maxCollect := by decide
  have hwithin : ∀ limit, schema.EachPart (SizeWithin limit) [([8, 9], ())] ↔ 2 ≤ limit := by
    intro limit
    simp [schema, part, EachPart, Fields.EachPart, SizeWithin]
    omega
  have hrun : schema.unmarshalWith (.head 1) ⟨4⟩ data = .ok (4, [([8, 9], ())]) := by
    have hitem : ∀ n : BitVec 8, WireForm.Solid ((uint .u8).WireForm (.integer 8)) n
        (bigEndian 1 n.toNat) := fun _ => ⟨.integer, nofun⟩
    have hbody : Pieces (WireForm.Solid ((uint .u8).WireForm (.integer 8))) [8#8, 9#8] [8, 9] :=
      .cons (hitem 8#8) (.cons (hitem 9#8) .nil)
    have hpart : WireForm.Solid (part.WireForm shape) ([8, 9], ()) (([2] ++ [8, 9]) ++ []) :=
      ⟨.intro (.present (.intro (.intro (.fixed (by decide)) hbody)) rfl), nofun⟩
    have hform : schema.WireForm (.vector shape (.fixed 1)) [([8, 9], ())] data :=
      .intro (.intro (h := [3]) (.fixed (by decide)) (.cons hpart .nil))
    exact unmarshalWith_of_wireForm (t := []) rfl hform ((hwithin 4).mpr (by decide)) fun _ => rfl
  refine ⟨hlen, hrun, ?_, ?_⟩
  · have hexact := unmarshalWith_limit_exact schema (.head 1) data ⟨2⟩ hlen
    exact (hexact.1 _ _).mpr ⟨hrun, (hwithin 2).mpr (by decide)⟩
  · have hexact := unmarshalWith_limit_exact schema (.head 1) data ⟨1⟩ hlen
    exact hexact.2.1 _ _ hrun fun h => absurd ((hwithin 1).mp h) (by decide)

end Whole

end Schema

end TlsWire
