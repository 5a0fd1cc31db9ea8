import TlsWire.Proofs.Decode.Relocation
import TlsWire.Proofs.Wrapping.Encode

/-!
# Decoding behind indirections

The same bytes are decoded to corresponding values of a type and of the type with parts of it behind
boxes and options, or decoding fails in the same place with the same error (`Schema.Wraps.decode`).
So boxes and required options cannot be seen from outside: not in what resolves, not in what is
written, not in what is read (`Schema.wraps_invisible`).
-/

namespace TlsWire

variable {α α' : Type}

namespace Schema

open Relocation

variable {r : Relocation}

mutual

/-- Corresponding values are decoded from the same bytes, in any other place. -/
theorem Wraps.decode : {α α' : Type} → {d : Directive} → {schema : Schema α} →
    {schema' : Schema α'} → {wrap : α → α'} → schema.Wraps d schema' wrap →
    {shape shape' : Shape} → schema.resolve d = .ok shape → schema'.resolve d = .ok shape' →
    ∀ ctx, r.Follows (Sends wrap) (schema.decode ctx shape) (schema'.decode (r.context ctx) shape')
  | _, _, _, _, _, _, .newBox _ h, _, _, hshape, hshape' => by
    -- A new indirection is only on the right, and what is decoded behind it is put into it.
    obtain ⟨_, target, htarget, rfl⟩ := resolve_box.mp hshape'
    intro ctx
    rw [Schema.decode]
    exact h.decode hshape htarget ctx
  | _, _, _, _, _, _, .newOption hd h, _, _, hshape, hshape' => by
    obtain ⟨hd', _⟩ | ⟨_, target, htarget, rfl⟩ := resolve_option.mp hshape'
    -- The option is required, so no flag is read.
    · exact absurd hd' hd
    · intro ctx
      rw [Schema.decode]
      exact (h.decode hshape htarget ctx).map_right fun _ _ hx => congrArg some hx
  | _, _, _, _, _, _, .uint, _, _, hshape, hshape' => by
    cases hshape.symm.trans hshape'
    exact fun ctx => decode_relocates _ ctx _
  | _, _, _, _, _, _, .array h, _, _, hshape, hshape' => by
    obtain ⟨_, elemShape, helem, _, rfl⟩ := resolve_array.mp hshape
    obtain ⟨_, elemShape', helem', _, rfl⟩ := resolve_array.mp hshape'
    intro ctx
    rw [Schema.decode, Schema.decode]
    exact (Follows.ofArray (h.decode helem helem')).mono fun xs xs' hxs => Subtype.ext hxs
  | _, _, _, _, _, _, .vector h, _, _, hshape, hshape' => by
    obtain ⟨head, elemShape, hhead, helem, _, rfl⟩ := resolve_vector.mp hshape
    obtain ⟨_, elemShape', hhead', helem', _, rfl⟩ := resolve_vector.mp hshape'
    cases hhead.symm.trans hhead'
    intro ctx
    rw [Schema.decode, Schema.decode]
    exact .ofVector (h.decode helem helem')
  | _, _, _, _, _, _, .map horder hkey hvalue, _, _, hshape, hshape' => by
    obtain ⟨head, keyShape, valueShape, hhead, hk, _, hv, _, rfl⟩ := resolve_map.mp hshape
    obtain ⟨_, keyShape', valueShape', hhead', hk', _, hv', _, rfl⟩ := resolve_map.mp hshape'
    cases hhead.symm.trans hhead'
    intro ctx
    rw [Schema.decode, Schema.decode]
    -- Keys that differ stay different when they are wrapped, so both sides find the same
    -- duplicates.
    exact .ofMap (hkey.decode hk hk') (hvalue.decode hv hv') horder.injective fun _ => .refl _
  | _, _, _, _, _, _, .box h, _, _, hshape, hshape' => by
    obtain ⟨hd, target, htarget, rfl⟩ := resolve_box.mp hshape
    obtain ⟨_, target', htarget', rfl⟩ := resolve_box.mp hshape'
    rw [← Directive.behind_of_ne hd] at htarget htarget'
    intro ctx
    rw [Schema.decode, Schema.decode]
    exact .ofBox (h.decode htarget htarget' ctx)
  | _, _, _, _, _, _, .option h, _, _, hshape, hshape' => by
    obtain ⟨target, target', htarget, htarget', hshapes⟩ := resolve_options hshape hshape'
    intro ctx
    rw [Schema.decode, Schema.decode]
    exact .ofOption hshapes (h.decode htarget htarget' ctx)
  | _, _, _, _, _, _, .record _ h, _, _, hshape, hshape' => by
    obtain ⟨_, shapes, hshapes, _, rfl⟩ := resolve_record.mp hshape
    obtain ⟨_, shapes', hshapes', _, rfl⟩ := resolve_record.mp hshape'
    intro ctx
    rw [Schema.decode, Schema.decode]
    exact .ofRecord (h.decode hshapes hshapes' ctx)
  | _, _, _, _, _, _, .custom, _, _, hshape, hshape' => by
    cases hshape.symm.trans hshape'
    exact fun ctx => decode_relocates _ ctx _

theorem Fields.Wraps.decode : {α α' : Type} → {fields : Fields α} → {fields' : Fields α'} →
    {wrap : α → α'} → fields.Wraps fields' wrap → {shapes shapes' : Shape.Fields} →
    fields.resolve = .ok shapes → fields'.resolve = .ok shapes' →
    ∀ ctx,
      r.Follows (Sends wrap) (fields.decode ctx shapes) (fields'.decode (r.context ctx) shapes')
  | _, _, _, _, _, .nil, _, _, _, _ => by
    intro ctx
    rw [Fields.decode, Fields.decode]
    exact .pure rfl
  | _, _, _, _, _, .cons hd h hrest, _, _, hall, hall' => by
    obtain ⟨shape, shapes, hshape, hshapes, rfl⟩ := Fields.resolve_cons_present hd hall
    obtain ⟨shape', shapes', hshape', hshapes', rfl⟩ := Fields.resolve_cons_present hd hall'
    intro ctx
    rw [Fields.decode, Fields.decode]
    -- Both fields start in the same place, which goes into the paths of their errors.
    refine .pos fun p => ?_
    refine (h.decode hshape hshape' _).bind fun x x' hx => ?_
    refine (hrest.decode hshapes hshapes' ctx).bind fun xs xs' hxs => .pure ?_
    rw [Sends, hx, hxs, Prod.map_apply]
  | _, _, _, _, _, .omitted hrest, _, _, hall, hall' => by
    -- The omitted field is the same on both sides, and so is its default.
    obtain ⟨shapes, hshapes, rfl⟩ := Fields.resolve_cons_omitted rfl hall
    obtain ⟨shapes', hshapes', rfl⟩ := Fields.resolve_cons_omitted rfl hall'
    intro ctx
    rw [Fields.decode, Fields.decode]
    refine (hrest.decode hshapes hshapes' ctx).bind fun xs xs' hxs => .pure ?_
    rw [Sends, hxs, Prod.map_apply]
    rfl

end

end Schema

/-! ## Whole inputs -/

/-- The error without what types are called. Only an error in the directives of a type says so. -/
def DecodeError.unnamed : DecodeError → DecodeError
  | .invalidDirective e => .invalidDirective e.unnamed
  | e => e

namespace Schema

open Relocation

variable {d : Directive} {schema : Schema α} {schema' : Schema α'} {wrap : α → α'}

/-- Both types resolve and write alike, or neither resolves. -/
theorem Wraps.marshalWith (h : schema.Wraps d schema' wrap) (x : α) :
    Alike EncodeError.Like Eq (schema.marshalWith d x) (schema'.marshalWith d (wrap x)) := by
  unfold Schema.marshalWith
  rcases h.resolve.values_or_errors with
    ⟨shape, shape', hshape, hshape', _⟩ | ⟨e, e', he, he', hlike⟩
  · rw [hshape, hshape']
    exact h.encode hshape hshape' x
  · rw [he, he']
    exact .error (congrArg EncodeError.invalidDirective hlike)

/-- Both types resolve and decode alike, or neither resolves. -/
theorem Wraps.unmarshalWith (h : schema.Wraps d schema' wrap) (config : Config) (data : Bytes) :
    Alike (fun e e' => e'.unnamed = e.unnamed) (fun r r' => r' = (r.1, wrap r.2))
      (schema.unmarshalWith d config data) (schema'.unmarshalWith d config data) := by
  have hfollows : ∀ shape shape', schema.resolve d = .ok shape → schema'.resolve d = .ok shape' →
      shape.Like shape' → here.Follows (Sends wrap) (schema.decode (.top config) shape)
        (schema'.decode (.top config) shape') := by
    intro shape shape' hshape hshape' _
    have hdecode := h.decode (r := here) hshape hshape' (.top config)
    rwa [here_context] at hdecode
  refine (unmarshalWith_alike h.resolve hfollows data).mono ?_ fun r r' hr => Prod.ext hr.1 hr.2
  -- An error of the directives may speak of other names, every other error is the same.
  rintro e e' (_ | hlike)
  · rfl
  · exact congrArg DecodeError.invalidDirective hlike

/-- Boxes and required options are invisible under every directive, except that one in front of the
whole type cannot stand under a directive that asks for a flag. Both types resolve or none does,
corresponding values have the same form, and every input is read to corresponding values in the same
number of bytes. Errors are the same, and in the same place, but for what types are called and the
reasons that they give. -/
theorem wraps_invisible {position : Directive} (hwraps : schema.Wraps position schema' wrap)
    (hd : d = .optional → position = .optional) :
    ((∃ shape, schema.resolve d = .ok shape) ↔ ∃ shape', schema'.resolve d = .ok shape') ∧
    (∀ x, (schema'.marshalWith d (wrap x)).mapError EncodeError.unnamed =
      (schema.marshalWith d x).mapError EncodeError.unnamed) ∧
    (∀ config data, (schema'.unmarshalWith d config data).mapError DecodeError.unnamed =
      ((schema.unmarshalWith d config data).map (Prod.map id wrap)).mapError
        DecodeError.unnamed) := by
  -- Under any other directive the whole types are related as they are under their own.
  have h := hwraps.under hd
  refine ⟨h.resolve.exists_ok_iff, fun x => ?_, fun config data => ?_⟩
  · rcases (h.marshalWith x).values_or_errors with ⟨b, b', hb, hb', heq⟩ | ⟨e, e', he, he', hlike⟩
    · rw [hb, hb', heq]
    · rw [he, he']
      exact congrArg Except.error hlike
  · rcases (h.unmarshalWith config data).values_or_errors with
      ⟨r, r', hr, hr', heq⟩ | ⟨e, e', he, he', hlike⟩
    · rw [hr, hr', heq]
      rfl
    · rw [he, he']
      exact congrArg Except.error hlike

/-- A record in a box, with a field in a box, and with options as the keys of a map. -/
theorem wraps_invisible_hello :
    let schema : Schema (BitVec 16 × Dict (.bitVec 8) (BitVec 8) × BitVec 8 × Unit) :=
      .record "Hello"
        (.cons ⟨"id", .default, "u16"⟩ (.uint .u16)
          (.cons ⟨"tags", .head 1, "BTreeMap<u8, u8>"⟩
            (.map "BTreeMap<u8, u8>" .ordered (.bitVec 8) (.uint .u8) (.uint .u8))
            (.cons ⟨"seen", .omit, "u8"⟩ (.uint .u8) .nil)))
        fun _ => .ok ()
    let schema' :
        Schema (BitVec 16 × Dict (KeyOrder.bitVec 8).option (BitVec 8) × BitVec 8 × Unit) :=
      .box "Box<Hello>"
        (.record "Hello"
          (.cons ⟨"id", .default, "Box<u16>"⟩ (.box "Box<u16>" (.uint .u16))
            (.cons ⟨"tags", .head 1, "BTreeMap<Option<u8>, u8>"⟩
              (.map "BTreeMap<Option<u8>, u8>" .ordered (KeyOrder.bitVec 8).option
                (.option "Option<u8>" (.uint .u8)) (.uint .u8))
              (.cons ⟨"seen", .omit, "u8"⟩ (.uint .u8) .nil)))
          fun _ => .ok ())
    let bytes : Bytes := [0, 7, 2, 2, 9]
    let short : DecodeError := .truncated [⟨"id", 0⟩] ⟨2, 1⟩
    (schema.marshalWith .default (7#16, .ofEntries [(2#8, 9#8)], 5#8, ()) = .ok bytes ∧
        schema'.marshalWith .default (7#16, .ofEntries [(some 2#8, 9#8)], 5#8, ()) = .ok bytes) ∧
      schema.unmarshalWith .default {} [0] = .error short ∧
        schema'.unmarshalWith .default {} [0] = .error short := by
  intro schema schema' bytes short
  have hkey : Wraps .default (.uint .u8) (.option "Option<u8>" (.uint .u8)) some :=
    .newOption nofun .uint
  have h : schema.Wraps .default schema' _ :=
    .newBox nofun (.record (fun _ => Iff.rfl) (.cons nofun (.newBox nofun .uint)
      (.cons nofun (.map (Wraps.order hkey) hkey .uint) (.omitted .nil))))
  have hd : Directive.default = .optional → Directive.default = .optional := nofun
  obtain ⟨_, hmarshal, hunmarshal⟩ := wraps_invisible h hd
  have hbytes : schema.marshalWith .default (7#16, .ofEntries [(2#8, 9#8)], 5#8, ()) =
      .ok bytes := by
    simp only [schema, bytes]
    decide +kernel
  have hshort : schema.unmarshalWith .default {} [0] = .error short := rfl
  refine ⟨⟨hbytes, ?_⟩, hshort, ?_⟩
  · have hbytes' := hmarshal (7#16, .ofEntries [(2#8, 9#8)], 5#8, ())
    rw [hbytes] at hbytes'
    exact Except.mapError_ok.mp hbytes'
  · have hshort' := hunmarshal {} [0]
    rw [hshort] at hshort'
    cases hrun : schema'.unmarshalWith .default {} [0] with
    | ok r =>
      rw [hrun] at hshort'
      cases hshort'
    | error e =>
      rw [hrun] at hshort'
      -- Only an error of another kind loses names.
      cases e with
      | truncated loc t =>
        cases hshort'
        rfl
      | _ => cases hshort'

end Schema

end TlsWire
