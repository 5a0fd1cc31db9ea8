import TlsWire.Proofs.Encode.Forms
import TlsWire.Proofs.Decode.Grammar
import TlsWire.Proofs.WireForm.Shrink

/-!
# Writing again what was read

A value that has a wire form at all can be written, unless its type rejects it
(`Schema.encode_resends`): numbers that were read fit, content that shrinks still fits its head,
keys that differ have different forms. What is written is again a form of the value, and is not
longer than the one it was read from. It is the same where the shape leaves no choice
(`Shape.Rigid`).
-/

namespace TlsWire

variable {α β κ : Type}

mutual

/-- Whether a value of this shape has only one form: there is no varint and no map in it. -/
def Shape.Rigid : Shape → Prop
  | .integer _ => True
  | .varint _ => False
  | .array elem _ => elem.Rigid
  | .vector elem head => elem.Rigid ∧ head ≠ .varint
  | .map .. => False
  | .pointer target => target.Rigid
  | .optional target => target.Rigid
  | .record fields => fields.Rigid
  | .custom => True

/-- Whether the fields on the wire have only one form each. -/
def Shape.Fields.Rigid : Shape.Fields → Prop
  | .nil => True
  | .present _ _ shape rest => shape.Rigid ∧ rest.Rigid
  | .absent _ _ rest => rest.Rigid

end

namespace Encoder

/-- Whatever has a form is written in a form that is not longer, or else rejected. -/
structure Resends (encode : α → Encoder Unit) (form : α → Bytes → Prop) (rigid : Prop) :
    Prop where
  error : ∀ x b e, form x b → (encode x).standalone = .error e →
    ∃ type reason, e = .rejected type reason
  ok : ∀ x b b', form x b → (encode x).standalone = .ok b' → form x b' ∧ Shrunk rigid b b'

/-- A form that is not empty does not shrink to one that is, so what is solid stays solid. -/
theorem Resends.solid {encode : α → Encoder Unit} {form : α → Bytes → Prop} {rigid : Prop}
    (h : Resends encode form rigid) : Resends encode (WireForm.Solid form) rigid where
  error x b e hform := h.error x b e hform.1
  ok x b b' hform hrun := by
    obtain ⟨hform', hshrunk⟩ := h.ok x b b' hform.1 hrun
    exact ⟨⟨hform', hshrunk.ne_nil hform.2⟩, hshrunk⟩

/-- Content that is not longer than before still fits its head. -/
theorem exists_head {h : Head} {length length' : Nat} {b : Bytes} (hnarrow : h.Narrow)
    (hform : h.Form length b) (hle : length' ≤ length) :
    ∃ b', (head h length').standalone = .ok b' ∧
      Shrunk (h ≠ .varint ∧ length' = length) b b' := by
  cases hform with
  | @fixed width _ hlt =>
    refine ⟨bigEndian width length', ?_, ?_, ?_, ?_⟩
    · rw [head, uint, standalone_emit, Except.mapError_ok]
      exact Uint.encode_of_lt hnarrow (Nat.lt_of_le_of_lt hle hlt)
    · apply Nat.le_of_eq
      rw [length_bigEndian, length_bigEndian]
    · intro hne hnil
      -- A fixed head takes no bytes only if its width is zero, and then it took none before.
      have hwidth : width = 0 := by
        rw [← length_bigEndian width length', hnil]
        rfl
      subst hwidth
      exact hne rfl
    · rintro ⟨_, rfl⟩
      rfl
  | varint hform =>
    obtain ⟨p, hp, hlen⟩ := hform.mono hle
    obtain ⟨b', hb'⟩ := hp.exists_encode
    refine ⟨b', ?_, ?_, ?_, ?_⟩
    · rw [head, varint, standalone_emit, Except.mapError_ok]
      exact hb'
    · rw [← hlen]
      exact Varint.length_le_of_encode hb' hp
    · rintro - rfl
      exact absurd (Varint.form_of_encode hb').length_pos (by decide)
    · rintro ⟨hne, _⟩
      exact absurd rfl hne
  | unbounded => exact ⟨[], rfl, .refl []⟩

section Kinds

variable (type : String) {h : Head} {shape keyShape valueShape : Shape}
  {form : Shape → α → Bytes → Prop} {rigid : Prop}

/-- An integer is written in the same form again, a varint in the shortest one. -/
theorem ofUint_resends {t : UintType} (hshape : shape = .integer t.bits ∨ shape = .varint t.bits) :
    Resends (fun n : BitVec t.bits => ofUint t shape n.toNat)
      (fun n => WireForm.OfUint t shape n.toNat) shape.Rigid := by
  -- A number of the type fits its width, and a varint that was read fits a class.
  have hrun : ∀ (n : BitVec t.bits) b, WireForm.OfUint t shape n.toNat b →
      ∃ b', (ofUint t shape n.toNat).standalone = .ok b' ∧ Shrunk shape.Rigid b b' := by
    intro n b hform
    rcases hshape with rfl | rfl
    · cases hform
      refine ⟨_, ?_, .refl _⟩
      rw [ofUint, uint, standalone_emit, Except.mapError_ok]
      -- The width of the type is what the shape asks for.
      have hlt := n.isLt
      refine Uint.encode_of_lt (by cases t <;> decide) ?_
      cases t <;> exact hlt
    · cases hform with
      | varint hform =>
        obtain ⟨b', hb'⟩ := hform.exists_encode
        -- The shortest form is not longer than the one that was read.
        refine ⟨b', ?_, Varint.length_le_of_encode hb' hform, ?_, False.elim⟩
        · rw [ofUint, varint, standalone_emit, Except.mapError_ok]
          exact hb'
        · rintro - rfl
          exact absurd (Varint.form_of_encode hb').length_pos (by decide)
  constructor
  · intro n b e hform herror
    obtain ⟨b', hb', _⟩ := hrun n b hform
    rw [hb'] at herror
    cases herror
  · intro n b b' hform hok
    obtain ⟨b'', hb'', hshrunk⟩ := hrun n b hform
    rw [hok] at hb''
    cases hb''
    exact ⟨ofUint_forms hok, hshrunk⟩

/-- The elements shrink one by one, and so does what they make up together. -/
theorem each_resends {encode : α → Encoder Unit} {form : α → Bytes → Prop}
    (h : Resends encode form rigid) (happend : ∀ x, AppendsOnly (encode x)) :
    Resends (each encode) (Pieces form) rigid where
  error xs b e hform hrun := by
    obtain ⟨x, hx, herror⟩ := exists_of_each_error happend hrun
    obtain ⟨p, hp, _⟩ := hform.exists_form hx
    exact h.error x p e hp herror
  ok xs b b' hform hrun := by
    rw [each_ok happend] at hrun
    exact hform.shrunk hrun fun x _ p p' => h.ok x p p'

/-- Content with a head in front. The content does not grow, so that its length still fits, and the
form of the length does not grow either. -/
theorem framed_resends {content : α → Encoder Unit} {form : α → Bytes → Prop}
    (hnarrow : h.Narrow) (hcontent : Resends content form rigid) :
    Resends (fun x => framed h (content x)) (fun x => WireForm.Framed h (form x))
      (rigid ∧ h ≠ .varint) where
  error x b e hform hrun := by
    cases hform with
    | @intro front body hfront hbody =>
      rcases framed_error.mp hrun with herror | ⟨body', hok, herror⟩
      · exact hcontent.error x body e hbody herror
      · -- What has shrunk fits where it was before.
        have hle : body'.length ≤ body.length := (hcontent.ok x body body' hbody hok).2.length_le
        obtain ⟨front', hfront', _⟩ := exists_head hnarrow hfront hle
        rw [hfront'] at herror
        cases herror
  ok x b b' hform hrun := by
    cases hform with
    | @intro front body hfront hbody =>
      obtain ⟨front', body', hok, hfront', rfl⟩ := framed_ok.mp hrun
      obtain ⟨hform', hshrunk⟩ := hcontent.ok x body body' hbody hok
      obtain ⟨front'', hfront'', hhead⟩ := exists_head hnarrow hfront hshrunk.length_le
      rw [hfront'] at hfront''
      cases hfront''
      -- With only one form for the content its length is the same, and so is the head.
      have hsame : rigid ∧ h ≠ .varint → h ≠ .varint ∧ body'.length = body.length := by
        intro hrigid
        exact ⟨hrigid.2, congrArg List.length (hshrunk.eq hrigid.1)⟩
      exact ⟨.intro (head_ok hfront') hform',
        Shrunk.append (hhead.imp hsame) (hshrunk.imp And.left)⟩

/-- An array is its elements. -/
theorem ofArray_resends {elem : Shape → α → Encoder Unit} {length : Nat}
    (helem : Resends (elem shape) (form shape) shape.Rigid)
    (happend : ∀ x, AppendsOnly (elem shape x)) :
    Resends (fun xs : Tuple α length => ofArray type elem (.array shape length) xs.val)
      (fun xs => WireForm.OfArray form length (.array shape length) xs.val)
      (Shape.array shape length).Rigid where
  error xs b e hform hrun := by
    cases hform with
    | intro hitems => exact (each_resends helem happend).error xs.val b e hitems hrun
  ok xs b b' hform hrun := by
    cases hform with
    | intro hitems =>
      obtain ⟨hitems', hshrunk⟩ := (each_resends helem happend).ok xs.val b b' hitems hrun
      exact ⟨.intro hitems', hshrunk⟩

/-- A vector is framed elements, each of which has taken at least one byte and still does. -/
theorem ofVector_resends {elem : Shape → α → Encoder Unit} (hnarrow : h.Narrow)
    (helem : Resends (elem shape) (form shape) shape.Rigid)
    (happend : ∀ x, AppendsOnly (elem shape x)) :
    Resends (ofVector type elem (.vector shape h)) (WireForm.OfVector form (.vector shape h))
      (Shape.vector shape h).Rigid where
  error xs b e hform hrun := by
    have hcontent := framed_resends hnarrow (each_resends helem.solid happend)
    cases hform with
    | intro hframed => exact hcontent.error xs b e hframed hrun
  ok xs b b' hform hrun := by
    have hcontent := framed_resends hnarrow (each_resends helem.solid happend)
    cases hform with
    | intro hframed =>
      obtain ⟨hframed', hshrunk⟩ := hcontent.ok xs b b' hframed hrun
      exact ⟨.intro hframed', hshrunk⟩

/-- Key and value shrink by themselves. The entry is not empty afterwards either. -/
theorem entry_resends {key : κ → Encoder Unit} {value : β → Encoder Unit}
    {formOfKey : κ → Bytes → Prop} {formOfValue : β → Bytes → Prop} {rigid rigid' : Prop}
    (hkey : Resends key formOfKey rigid) (hvalue : Resends value formOfValue rigid')
    {e : κ × β} {p : Bytes} {f : EncodedEntry}
    (hform : WireForm.Solid (WireForm.OfEntry formOfKey formOfValue) e p)
    (hf : EncodedEntry.FormOf key value e f) :
    WireForm.Solid (WireForm.OfEntry formOfKey formOfValue) e f.bytes ∧
      Shrunk False p f.bytes := by
  obtain ⟨⟨ha, hb⟩, hne⟩ := hform
  obtain ⟨ha', hkeyShrunk⟩ := hkey.ok _ _ _ ha hf.key
  obtain ⟨hb', hvalueShrunk⟩ := hvalue.ok _ _ _ hb hf.value
  have hshrunk := Shrunk.append (hkeyShrunk.imp False.elim) (hvalueShrunk.imp False.elim)
  exact ⟨⟨.intro ha' hb', hshrunk.ne_nil hne⟩, hshrunk⟩

/-- Keys that have a form of their own each are written differently. -/
theorem nodup_forms {key : κ → Encoder Unit} {value : β → Encoder Unit}
    {formOfKey : κ → Bytes → Prop} {rigid : Prop} (hkey : Resends key formOfKey rigid)
    (hunique : ∀ k k' a, formOfKey k a → formOfKey k' a → k = k') {es : List (κ × β)}
    {forms : List EncodedEntry} (hforms : List.Forall₂ (EncodedEntry.FormOf key value) es forms)
    (hes : ∀ e ∈ es, ∃ a, formOfKey e.1 a) (hnodup : (Dict.keys es).Nodup) :
    (forms.map EncodedEntry.key).Nodup := by
  induction hforms with
  | nil => exact List.nodup_nil
  | @cons e f es fs hef hrest ih =>
    obtain ⟨⟨a, ha⟩, hes⟩ := List.forall_mem_cons.mp hes
    rw [Dict.keys, List.map_cons, List.nodup_cons] at hnodup
    rw [List.map_cons, List.nodup_cons]
    -- A later key with the same bytes would be the same key.
    refine ⟨fun hmem => hnodup.1 ?_, ih hes hnodup.2⟩
    obtain ⟨f', hf', heq⟩ := List.mem_map.mp hmem
    obtain ⟨e', he', hef'⟩ := EncodedEntry.exists_entry_of_mem hrest hf'
    obtain ⟨a', ha'⟩ := hes e' he'
    have hform := (hkey.ok _ _ _ ha hef.key).1
    have hform' := (hkey.ok _ _ _ ha' hef'.key).1
    rw [heq] at hform'
    rw [hunique _ _ _ hform hform']
    exact List.mem_map_of_mem he'

/-- Entries that are put in order again take no more bytes than before. -/
theorem arranged_resends {key : κ → Encoder Unit} {value : β → Encoder Unit}
    {formOfKey : κ → Bytes → Prop} {formOfValue : β → Bytes → Prop} {rigid rigid' : Prop}
    (hkey : Resends key formOfKey rigid) (hvalue : Resends value formOfValue rigid')
    {es entries : List (κ × β)} {body : Bytes} {forms sorted : List EncodedEntry}
    (hbody : Pieces (WireForm.Solid (WireForm.OfEntry formOfKey formOfValue)) es body)
    (hes : es.Perm entries) (hforms : List.Forall₂ (EncodedEntry.FormOf key value) entries forms)
    (hsorted : sorted.Perm forms) :
    ∃ es', es'.Perm entries ∧
      Pieces (WireForm.Solid (WireForm.OfEntry formOfKey formOfValue)) es'
        (sorted.flatMap EncodedEntry.bytes) ∧
      Shrunk False body (sorted.flatMap EncodedEntry.bytes) := by
  obtain ⟨es', hes', hsortedForms⟩ := EncodedEntry.exists_entries_of_perm hforms hsorted
  -- The pieces that were read are put in the order of writing before they are compared.
  obtain ⟨body', hbody', hlen⟩ := hbody.perm (hes.trans hes'.symm)
  have hentry : ∀ e ∈ es', ∀ p p',
      WireForm.Solid (WireForm.OfEntry formOfKey formOfValue) e p →
      (∃ f, EncodedEntry.FormOf key value e f ∧ p' = f.bytes) →
      WireForm.Solid (WireForm.OfEntry formOfKey formOfValue) e p' ∧ Shrunk False p p' := by
    rintro e _ p _ hp ⟨f, hf, rfl⟩
    exact entry_resends hkey hvalue hp hf
  obtain ⟨hpieces, hshrunk⟩ := hbody'.shrunk (EncodedEntry.pieces_flatMap hsortedForms) hentry
  exact ⟨es', hes', hpieces, hshrunk.of_length_eq hlen⟩

/-- A map is written in an order that depends on the new forms of its keys. It shrinks as a whole,
but not entry by entry in the order in which it was read, and it never counts as rigid. -/
theorem ofMap_resends {order : KeyOrder κ} {key : Shape → κ → Encoder Unit}
    {value : Shape → β → Encoder Unit} {formOfKey : Shape → κ → Bytes → Prop}
    {formOfValue : Shape → β → Bytes → Prop} {rigid' : Prop} (hnarrow : h.Narrow)
    (hkey : Resends (key keyShape) (formOfKey keyShape) rigid)
    (hvalue : Resends (value valueShape) (formOfValue valueShape) rigid')
    (hunique : ∀ k k' a, formOfKey keyShape k a → formOfKey keyShape k' a → k = k') :
    Resends (fun dict : Dict order β => ofMap type key value (.map keyShape valueShape h)
        dict.entries)
      (WireForm.OfMap formOfKey formOfValue (.map keyShape valueShape h))
      (Shape.map keyShape valueShape h).Rigid where
  error dict b err hform hrun := by
    obtain ⟨hperm, hfront, hbody⟩ := hform
    have hentry : ∀ e ∈ dict.entries, ∃ a b, formOfKey keyShape e.1 a ∧
        formOfValue valueShape e.2 b := by
      intro e he
      obtain ⟨_, ⟨⟨ha, hb⟩, _⟩, _⟩ := hbody.exists_form (hperm.mem_iff.mpr he)
      exact ⟨_, _, ha, hb⟩
    -- There are three steps that could fail: encoding the entries, putting them in order, and the
    -- head.
    have hrun : (entries type h (key keyShape) (value valueShape) dict.entries).standalone =
        .error err := hrun
    rw [standalone_entries] at hrun
    simp only [Except.bind_error, EncodedEntry.ofEntries_ok] at hrun
    rcases hrun with herror | ⟨forms, hforms, herror | ⟨sorted, harrange, herror⟩⟩
    · -- An entry that fails is rejected.
      obtain ⟨e, he, herror⟩ := EncodedEntry.exists_of_ofEntries_error herror
      obtain ⟨a, b, ha, hb⟩ := hentry e he
      rcases herror with herror | herror
      · exact hkey.error e.1 a err ha herror
      · exact hvalue.error e.2 b err hb herror
    · -- Different keys have different forms.
      have hnodup := nodup_forms hkey hunique hforms
        (fun e he => ⟨_, (hentry e he).choose_spec.choose_spec.1⟩) dict.nodup_keys
      obtain ⟨sorted, hsorted⟩ : ∃ sorted, EncodedEntry.arrange type forms = .ok sorted :=
        EncodedEntry.exists_arrange hnodup
      rw [hsorted] at herror
      cases herror
    · -- The content fits its head.
      obtain ⟨_, _, _, hshrunk⟩ := arranged_resends hkey hvalue hbody hperm hforms
        (EncodedEntry.arrange_ok.mp harrange).1
      obtain ⟨front, hfront', _⟩ := exists_head hnarrow hfront hshrunk.length_le
      rw [framed_error, standalone_append] at herror
      simp only [reduceCtorEq, Except.ok.injEq, exists_eq_left', hfront', or_false] at herror
  ok dict b b' hform hrun := by
    obtain ⟨hperm, hfront, hbody⟩ := hform
    obtain ⟨forms, sorted, front', hforms, hsorted, _, hfront', rfl⟩ := entries_ok.mp hrun
    obtain ⟨es', hes', hpieces, hshrunk⟩ := arranged_resends hkey hvalue hbody hperm hforms hsorted
    obtain ⟨front, hfront'', hhead⟩ := exists_head hnarrow hfront hshrunk.length_le
    rw [hfront'] at hfront''
    cases hfront''
    exact ⟨.intro hes' (.intro (head_ok hfront') hpieces),
      Shrunk.append (hhead.imp False.elim) hshrunk⟩

/-- A pointer is its target. -/
theorem ofBox_resends {content : Shape → α → Encoder Unit}
    (hcontent : Resends (content shape) (form shape) shape.Rigid) :
    Resends (ofBox type content (.pointer shape)) (WireForm.OfBox form (.pointer shape))
      (Shape.pointer shape).Rigid where
  error x b e hform hrun := by
    cases hform with
    | intro hinner => exact hcontent.error x b e hinner hrun
  ok x b b' hform hrun := by
    cases hform with
    | intro hinner =>
      obtain ⟨hinner', hshrunk⟩ := hcontent.ok x b b' hinner hrun
      exact ⟨.intro hinner', hshrunk⟩

/-- The flag stays as it is. -/
theorem ofOption_optional_resends {content : Shape → α → Encoder Unit}
    (hcontent : Resends (content shape) (form shape) shape.Rigid)
    (happend : ∀ x, AppendsOnly (content shape x)) :
    Resends (ofOption type content (.optional shape)) (WireForm.OfOption form (.optional shape))
      (Shape.optional shape).Rigid where
  error x b e hform hrun := by
    cases hform with
    | absent => cases hrun
    | @present _ y p hform =>
      exact hcontent.error y p e hform ((ofOption_some_error (happend y)).mp hrun)
  ok x b b' hform hrun := by
    cases hform with
    | absent =>
      rw [ofOption, standalone_append] at hrun
      cases hrun
      exact ⟨.absent, .refl _⟩
    | @present _ y p hform =>
      obtain ⟨p', hp', rfl⟩ := (ofOption_some_ok (happend y)).mp hrun
      obtain ⟨hform', hshrunk⟩ := hcontent.ok y p p' hform hp'
      exact ⟨.present hform', Shrunk.append (.refl [1]) hshrunk⟩

/-- What has a form here is there, so it is not the missing value that would fail. -/
theorem ofOption_pointer_resends {content : Shape → α → Encoder Unit}
    (hcontent : Resends (content shape) (form shape) shape.Rigid) :
    Resends (ofOption type content (.pointer shape)) (WireForm.OfOption form (.pointer shape))
      (Shape.pointer shape).Rigid where
  error x b e hform hrun := by
    cases hform with
    | @required _ y _ hform => exact hcontent.error y b e hform hrun
  ok x b b' hform hrun := by
    cases hform with
    | @required _ y _ hform =>
      obtain ⟨hform', hshrunk⟩ := hcontent.ok y b b' hform hrun
      exact ⟨.required hform', hshrunk⟩

/-- Where a record comes in, a value can be rejected: it has a form and yet is not valid. -/
theorem ofRecord_resends {validate : α → Except String Unit}
    {fields : Shape.Fields → α → Encoder Unit} {form : Shape.Fields → α → Bytes → Prop}
    {shapes : Shape.Fields} (hfields : Resends (fields shapes) (form shapes) shapes.Rigid) :
    Resends (ofRecord type validate fields (.record shapes))
      (WireForm.OfRecord form (.record shapes)) (Shape.record shapes).Rigid where
  error x b e hform hrun := by
    unfold ofRecord at hrun
    cases hvalidate : validate x with
    | error reason =>
      rw [hvalidate] at hrun
      cases hrun
      exact ⟨type, reason, rfl⟩
    | ok _ =>
      rw [hvalidate] at hrun
      cases hform with
      | intro hinner => exact hfields.error x b e hinner hrun
  ok x b b' hform hrun := by
    cases hform with
    | intro hinner =>
      obtain ⟨hinner', hshrunk⟩ := hfields.ok x b b' hinner (ofRecord_ok.mp hrun).2
      exact ⟨.intro hinner', hshrunk⟩

end Kinds

end Encoder

namespace Schema

open Encoder

/-- The first field shrinks, if it is on the wire, and the other ones do. -/
theorem Fields.encode_cons_resends {info : FieldInfo} {schema : Schema α} {rest : Fields β}
    {shapes : Shape.Fields} (hresolve : (Fields.cons info schema rest).resolve = .ok shapes)
    (hfield : ∀ shape, schema.resolve info.directive = .ok shape →
      Resends (schema.encode shape) (schema.WireForm shape) shape.Rigid)
    (hrest : ∀ shapes, rest.resolve = .ok shapes →
      Resends (rest.encode shapes) (rest.WireForm shapes) shapes.Rigid) :
    Resends ((Fields.cons info schema rest).encode shapes)
      ((Fields.cons info schema rest).WireForm shapes) shapes.Rigid := by
  -- A field that is left out takes no bytes, neither before nor after.
  rcases Fields.resolve_cons.mp hresolve with ⟨_, restShapes, hrestShapes, rfl⟩ |
    ⟨_, shape, restShapes, hshape, hrestShapes, rfl⟩
  · have hrest := hrest _ hrestShapes
    constructor
    · intro _ b e hform hrun
      cases hform with
      | @absent _ _ _ xs _ hxs =>
        rw [Fields.encode] at hrun
        exact hrest.error xs b e hxs hrun
    · intro _ b b' hform hrun
      cases hform with
      | @absent _ _ _ xs _ hxs =>
        rw [Fields.encode] at hrun
        obtain ⟨hxs', hshrunk⟩ := hrest.ok xs b b' hxs hrun
        exact ⟨.absent hxs', hshrunk⟩
  · have hfield := hfield _ hshape
    have hrest := hrest _ hrestShapes
    constructor
    · intro _ b e hform hrun
      cases hform with
      | @present _ _ _ _ x xs p t hx hxs =>
        rcases Fields.encode_present_error.mp hrun with herror | ⟨_, _, herror⟩
        · exact hfield.error x p e hx herror
        · exact hrest.error xs t e hxs herror
    · intro _ b b' hform hrun
      cases hform with
      | @present _ _ _ _ x xs p t hx hxs =>
        obtain ⟨p', t', hp', ht', rfl⟩ := Fields.encode_present_ok.mp hrun
        obtain ⟨hx', hshrunk⟩ := hfield.ok x p p' hx hp'
        obtain ⟨hxs', hshrunk'⟩ := hrest.ok xs t t' hxs ht'
        exact ⟨.present hx' hxs', Shrunk.append (hshrunk.imp And.left) (hshrunk'.imp And.right)⟩

mutual

/-- A value that has a form is written in one that is not longer, or rejected. -/
theorem encode_resends : {α : Type} → (schema : Schema α) → schema.HookFree → {d : Directive} →
    {shape : Shape} → schema.resolve d = .ok shape →
    Resends (schema.encode shape) (schema.WireForm shape) shape.Rigid
  | _, .uint _, _, _, _, hresolve => by
    refine ofUint_resends ?_
    rcases resolve_uint.mp hresolve with ⟨_, rfl⟩ | ⟨_, rfl⟩
    · exact .inl rfl
    · exact .inr rfl
  | _, .array type elem _, hfree, _, _, hresolve => by
    obtain ⟨_, elemShape, helem, _, rfl⟩ := resolve_array.mp hresolve
    exact ofArray_resends type (encode_resends elem hfree helem)
      (elem.encode_appendsOnly elemShape)
  | _, .vector type elem, hfree, _, _, hresolve => by
    obtain ⟨head, elemShape, hhead, helem, _, rfl⟩ := resolve_vector.mp hresolve
    exact ofVector_resends type (Directive.narrow_of_head? hhead) (encode_resends elem hfree helem)
      (elem.encode_appendsOnly elemShape)
  | _, .map type _ _ key value, hfree, _, _, hresolve => by
    obtain ⟨head, keyShape, valueShape, hhead, hkey, _, hvalue, _, rfl⟩ := resolve_map.mp hresolve
    exact ofMap_resends type (Directive.narrow_of_head? hhead) (encode_resends key hfree.1 hkey)
      -- Two keys that are read from the same bytes are equal, so different keys cannot collide.
      (encode_resends value hfree.2 hvalue) fun _ _ _ => WireForm.unique hkey
  | _, .box type content, hfree, _, _, hresolve => by
    obtain ⟨_, target, hcontent, rfl⟩ := resolve_box.mp hresolve
    exact ofBox_resends type (encode_resends content hfree hcontent)
  | _, .option type content, hfree, _, _, hresolve => by
    rcases resolve_option.mp hresolve with ⟨_, target, hcontent, rfl⟩ | ⟨_, target, hcontent, rfl⟩
    · exact ofOption_optional_resends type (encode_resends content hfree hcontent)
        (content.encode_appendsOnly target)
    · exact ofOption_pointer_resends type (encode_resends content hfree hcontent)
  | _, .record type fields _ _, hfree, _, _, hresolve => by
    obtain ⟨_, shapes, hfields, _, rfl⟩ := resolve_record.mp hresolve
    exact ofRecord_resends type (Fields.encode_resends fields hfree hfields)
  | _, .custom _, hfree, _, _, _ => hfree.elim

/-- Without fields nothing has been read, and nothing is written. -/
theorem Fields.encode_resends : {α : Type} → (fields : Fields α) → fields.HookFree →
    {shapes : Shape.Fields} → fields.resolve = .ok shapes →
    Resends (fields.encode shapes) (fields.WireForm shapes) shapes.Rigid
  | _, .nil, _, _, hresolve => by
    rw [Fields.resolve_nil.mp hresolve]
    constructor
    · intro _ _ _ _ hrun
      cases hrun
    · intro _ b b' hform hrun
      obtain rfl : b = [] := hform
      cases hrun
      exact ⟨rfl, .refl []⟩
  | _, .cons _ schema rest, hfree, _, hresolve =>
    Fields.encode_cons_resends hresolve (fun _ => Schema.encode_resends schema hfree.1)
      (fun _ => Fields.encode_resends rest hfree.2)

end

end Schema

end TlsWire
