import TlsWire.Proofs.Encode.Entries
import TlsWire.Proofs.Wrapping

/-!
# Encoding behind indirections

Values of a type, and the corresponding values of the type with parts of it behind boxes and
options, are written as the same bytes, or fail with errors that differ in names only
(`Schema.Wraps.encode`).
-/

namespace TlsWire

variable {α α' β β' κ κ' : Type}

/-- The error without what types are called and without the reasons they give. -/
def EncodeError.unnamed : EncodeError → EncodeError
  | .invalidDirective e => .invalidDirective e.unnamed
  | .requiredNone _ => .requiredNone ""
  | .rejected _ _ => .rejected "" ""
  | .overflow o => .overflow o
  | .duplicateKey _ => .duplicateKey ""
  | .hookFailed _ reason => .hookFailed "" reason
  | .shapeMismatch _ kind => .shapeMismatch "" kind
  | .missingField _ => .missingField ""

/-- The same error but for what types are called and the reasons they give. -/
def EncodeError.Like (e e' : EncodeError) : Prop := e'.unnamed = e.unnamed

theorem EncodeError.Like.refl (e : EncodeError) : e.Like e := rfl

namespace Encoder

/-- On their own both write the same bytes, or fail alike. -/
def Like (d d' : Encoder Unit) : Prop := Alike EncodeError.Like Eq d.standalone d'.standalone

namespace Like

variable {d d' e e' : Encoder Unit} {h : Head} {type type' : String} {shape shape' : Shape}

/-! ## Steps -/

theorem refl (d : Encoder Unit) : d.Like d := Alike.refl EncodeError.Like.refl (fun _ => rfl) _

theorem throw {err err' : EncodeError} (h : err.Like err') : Like (throw err) (throw err') :=
  .error h

/-- Steps that come to the same, one after another. Neither of the second steps looks at the
buffer. -/
theorem bind (he : AppendsOnly e) (he' : AppendsOnly e') (hd : d.Like d') (h : e.Like e') :
    Like (d >>= fun _ => e) (d' >>= fun _ => e') := by
  unfold Like
  rw [standalone_bind he, standalone_bind he']
  refine Alike.bind hd fun b b' hb => Alike.bind h fun t t' ht => .pure ?_
  rw [hb, ht]

/-- Each part is written as its counterpart. -/
theorem each {encode : α → Encoder Unit} {encode' : α' → Encoder Unit} {f : α → α'}
    (happend : ∀ x, AppendsOnly (encode x)) (happend' : ∀ x, AppendsOnly (encode' x))
    (h : ∀ x, (encode x).Like (encode' (f x))) (xs : List α) :
    (each encode xs).Like (each encode' (xs.map f)) := by
  induction xs with
  | nil => exact .refl _
  | cons x xs ih => exact .bind (.each happend xs) (.each happend' _) (h x) ih

/-- The contents are the same bytes, so they have the same length and the same head. -/
theorem framed {content content' : Encoder Unit} (hcontent : content.Like content') :
    (framed h content).Like (framed h content') := by
  unfold Like
  rw [standalone_framed, standalone_framed]
  refine Alike.bind hcontent fun body body' hbody => ?_
  -- Both sides write the same head in front of the same content.
  subst hbody
  exact .refl EncodeError.Like.refl (fun _ => rfl) _

/-- The entries of both maps have the same forms, one by one. -/
theorem ofEntries {key : κ → Encoder Unit} {key' : κ' → Encoder Unit} {value : β → Encoder Unit}
    {value' : β' → Encoder Unit} {f : κ → κ'} {g : β → β'}
    (hkey : ∀ k, (key k).Like (key' (f k))) (hvalue : ∀ v, (value v).Like (value' (g v)))
    (es : List (κ × β)) :
    Alike EncodeError.Like Eq (EncodedEntry.ofEntries key value es)
      (EncodedEntry.ofEntries key' value' (es.map (Prod.map f g))) := by
  induction es with
  | nil => exact .ok rfl
  | cons e es ih =>
    refine Alike.bind (hkey e.1) fun a a' ha => Alike.bind (hvalue e.2) fun b b' hb => ?_
    refine ih.bind fun forms forms' hforms => .pure ?_
    rw [ha, hb, hforms]

/-- Which names a map has is seen only if a key is repeated. -/
theorem entries {key : κ → Encoder Unit} {key' : κ' → Encoder Unit} {value : β → Encoder Unit}
    {value' : β' → Encoder Unit} {f : κ → κ'} {g : β → β'}
    (hkey : ∀ k, (key k).Like (key' (f k))) (hvalue : ∀ v, (value v).Like (value' (g v)))
    (es : List (κ × β)) :
    (entries type h key value es).Like (entries type' h key' value' (es.map (Prod.map f g))) := by
  unfold Like
  rw [standalone_entries, standalone_entries]
  refine (ofEntries hkey hvalue es).bind fun forms forms' hforms => ?_
  subst hforms
  -- The same forms are put in the same order, or have the same keys.
  have harrange : Alike EncodeError.Like Eq (EncodedEntry.arrange type forms)
      (EncodedEntry.arrange type' forms) := by
    unfold EncodedEntry.arrange
    simp only
    split
    · exact .error rfl
    · exact .ok rfl
  refine harrange.bind fun sorted sorted' hsorted => ?_
  subst hsorted
  exact .refl EncodeError.Like.refl (fun _ => rfl) _

/-! ## Kinds of types -/

/-- A flag on both sides or on none, and then contents that come to the same. -/
theorem ofOption {content : Shape → α → Encoder Unit} {content' : Shape → α' → Encoder Unit}
    {f : α → α'} {target target' : Shape}
    (hshape : shape = .optional target ∧ shape' = .optional target' ∨
      shape = .pointer target ∧ shape' = .pointer target')
    (happend : ∀ x, AppendsOnly (content target x))
    (happend' : ∀ x, AppendsOnly (content' target' x))
    (h : ∀ x, (content target x).Like (content' target' (f x))) (x : Option α) :
    (ofOption type content shape x).Like (ofOption type' content' shape' (x.map f)) := by
  rcases hshape with ⟨rfl, rfl⟩ | ⟨rfl, rfl⟩
  · cases x with
    | none => exact .refl _
    | some x => exact .bind (happend x) (happend' _) (.refl _) (h x)
  · cases x with
    | none => exact .throw rfl
    | some x => exact h x

/-- Both records accept or both refuse, perhaps for different reasons. -/
theorem ofRecord {validate : α → Except String Unit} {validate' : α' → Except String Unit}
    {fields : Shape.Fields → α → Encoder Unit} {fields' : Shape.Fields → α' → Encoder Unit}
    {shapes shapes' : Shape.Fields} {x : α} {x' : α'}
    (hvalidate : validate' x' = .ok () ↔ validate x = .ok ())
    (h : (fields shapes x).Like (fields' shapes' x')) :
    (ofRecord type validate fields (.record shapes) x).Like
      (ofRecord type' validate' fields' (.record shapes') x') := by
  unfold Encoder.ofRecord
  -- The other record decides in the same way.
  cases haccept : validate x with
  | ok _ =>
    rw [hvalidate.mpr haccept]
    exact h
  | error reason =>
    cases haccept' : validate' x' with
    | ok _ =>
      rw [hvalidate.mp haccept'] at haccept
      cases haccept
    | error reason' => exact .throw rfl

end Like

end Encoder

namespace Schema

open Encoder

mutual

/-- Corresponding values are written as the same bytes, or fail alike. -/
theorem Wraps.encode : {α α' : Type} → {d : Directive} → {schema : Schema α} →
    {schema' : Schema α'} → {wrap : α → α'} → schema.Wraps d schema' wrap →
    {shape shape' : Shape} → schema.resolve d = .ok shape → schema'.resolve d = .ok shape' →
    ∀ x, (schema.encode shape x).Like (schema'.encode shape' (wrap x))
  | _, _, _, _, _, _, .newBox _ h, _, _, hshape, hshape' => by
    -- A new indirection is only on the right, and its content is written as it stands.
    obtain ⟨_, target, htarget, rfl⟩ := resolve_box.mp hshape'
    intro x
    rw [Schema.encode]
    exact h.encode hshape htarget x
  | _, _, _, _, _, _, .newOption hd h, _, _, hshape, hshape' => by
    obtain ⟨hd', _⟩ | ⟨_, target, htarget, rfl⟩ := resolve_option.mp hshape'
    -- The option is required, since a flag would be seen.
    · exact absurd hd' hd
    · intro x
      rw [Schema.encode]
      exact h.encode hshape htarget x
  | _, _, _, _, _, _, .uint, _, _, hshape, hshape' => by
    cases hshape.symm.trans hshape'
    exact fun _ => .refl _
  | _, _, _, _, _, _, .array h, _, _, hshape, hshape' => by
    obtain ⟨_, elemShape, helem, _, rfl⟩ := resolve_array.mp hshape
    obtain ⟨_, elemShape', helem', _, rfl⟩ := resolve_array.mp hshape'
    intro xs
    rw [Schema.encode, Schema.encode]
    exact .each (encode_appendsOnly _ _) (encode_appendsOnly _ _) (h.encode helem helem') _
  | _, _, _, _, _, _, .vector h, _, _, hshape, hshape' => by
    obtain ⟨head, elemShape, hhead, helem, _, rfl⟩ := resolve_vector.mp hshape
    obtain ⟨_, elemShape', hhead', helem', _, rfl⟩ := resolve_vector.mp hshape'
    cases hhead.symm.trans hhead'
    intro xs
    rw [Schema.encode, Schema.encode]
    exact .framed
      (.each (encode_appendsOnly _ _) (encode_appendsOnly _ _) (h.encode helem helem') _)
  | _, _, _, _, _, _, .map _ hkey hvalue, _, _, hshape, hshape' => by
    obtain ⟨head, keyShape, valueShape, hhead, hk, _, hv, _, rfl⟩ := resolve_map.mp hshape
    obtain ⟨_, keyShape', valueShape', hhead', hk', _, hv', _, rfl⟩ := resolve_map.mp hshape'
    cases hhead.symm.trans hhead'
    intro dict
    rw [Schema.encode, Schema.encode]
    exact .entries (hkey.encode hk hk') (hvalue.encode hv hv') _
  | _, _, _, _, _, _, .box h, _, _, hshape, hshape' => by
    obtain ⟨hd, target, htarget, rfl⟩ := resolve_box.mp hshape
    obtain ⟨_, target', htarget', rfl⟩ := resolve_box.mp hshape'
    rw [← Directive.behind_of_ne hd] at htarget htarget'
    intro x
    rw [Schema.encode, Schema.encode]
    exact h.encode htarget htarget' x
  | _, _, _, _, _, _, .option h, _, _, hshape, hshape' => by
    obtain ⟨target, target', htarget, htarget', hshapes⟩ := resolve_options hshape hshape'
    intro x
    rw [Schema.encode, Schema.encode]
    exact .ofOption hshapes (encode_appendsOnly _ _) (encode_appendsOnly _ _)
      (h.encode htarget htarget') x
  | _, _, _, _, _, _, .record hvalidate h, _, _, hshape, hshape' => by
    obtain ⟨_, shapes, hshapes, _, rfl⟩ := resolve_record.mp hshape
    obtain ⟨_, shapes', hshapes', _, rfl⟩ := resolve_record.mp hshape'
    intro x
    rw [Schema.encode, Schema.encode]
    exact .ofRecord (hvalidate x) (h.encode hshapes hshapes' x)
  | _, _, _, _, _, _, .custom, _, _, hshape, hshape' => by
    cases hshape.symm.trans hshape'
    exact fun _ => .refl _

theorem Fields.Wraps.encode : {α α' : Type} → {fields : Fields α} → {fields' : Fields α'} →
    {wrap : α → α'} → fields.Wraps fields' wrap → {shapes shapes' : Shape.Fields} →
    fields.resolve = .ok shapes → fields'.resolve = .ok shapes' →
    ∀ x, (fields.encode shapes x).Like (fields'.encode shapes' (wrap x))
  | _, _, _, _, _, .nil, _, _, _, _ => by
    intro x
    rw [Fields.encode]
    exact .refl _
  | _, _, _, _, _, .cons hd h hrest, _, _, hall, hall' => by
    obtain ⟨shape, shapes, hshape, hshapes, rfl⟩ := Fields.resolve_cons_present hd hall
    obtain ⟨shape', shapes', hshape', hshapes', rfl⟩ := Fields.resolve_cons_present hd hall'
    intro x
    rw [Prod.map, Fields.encode, Fields.encode]
    exact .bind (Fields.encode_appendsOnly _ _ _) (Fields.encode_appendsOnly _ _ _)
      (h.encode hshape hshape' x.1) (hrest.encode hshapes hshapes' x.2)
  | _, _, _, _, _, .omitted hrest, _, _, hall, hall' => by
    -- Whatever the omitted fields are, neither is written.
    obtain ⟨shapes, hshapes, rfl⟩ := Fields.resolve_cons_omitted rfl hall
    obtain ⟨shapes', hshapes', rfl⟩ := Fields.resolve_cons_omitted rfl hall'
    intro x
    rw [Prod.map, Fields.encode, Fields.encode]
    exact hrest.encode hshapes hshapes' x.2

end

end Schema

end TlsWire
