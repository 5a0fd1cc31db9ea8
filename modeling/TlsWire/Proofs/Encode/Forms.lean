import TlsWire.Proofs.Encode.Omitted
import TlsWire.Proofs.WireForm

/-!
# What is encoded is a wire form

The bytes that a value is encoded to are a wire form of what the value is without its omitted
fields (`Schema.encode_forms`). Elements and entries must take up space, since the grammar has
no empty ones; hooks must read what they write.
-/

namespace TlsWire

variable {α β κ : Type}

namespace Encoder

/-- A head that is written is a form of the length. -/
theorem head_ok {h : Head} {length : Nat} {b : Bytes}
    (hrun : (head h length).standalone = .ok b) : h.Form length b := by
  cases h with
  | fixed width =>
    -- The length fits the width, or the head would not have been written.
    rw [head, uint, standalone_emit, Except.mapError_ok, Uint.encode_eq_ok] at hrun
    obtain ⟨hle, rfl⟩ := hrun
    exact .fixed (Nat.lt_of_le_of_lt hle (Uint.max_lt width))
  | varint =>
    rw [head, varint, standalone_emit, Except.mapError_ok] at hrun
    exact .varint (Varint.form_of_encode hrun)
  | unbounded =>
    cases hrun
    exact .unbounded

/-- Whatever is written for a value that meets the condition is a form of what is left of it. -/
def Forms (encode : α → Encoder Unit) (form : α → Bytes → Prop) (clear : α → α)
    (solid : α → Prop) : Prop :=
  ∀ x b, solid x → (encode x).standalone = .ok b → form (clear x) b

section Kinds

variable {type : String} {h : Head} {shape keyShape valueShape : Shape} {clear : α → α}
  {clearKey : κ → κ} {clearValue : β → β} {form : Shape → α → Bytes → Prop} {solid : α → Prop}
  {solidKey : κ → Prop} {solidValue : β → Prop}

/-- A number is written in one of its forms, a varint in the shortest. -/
theorem ofUint_forms {t : UintType} {n : Nat} {b : Bytes}
    (hb : (ofUint t shape n).standalone = .ok b) : WireForm.OfUint t shape n b := by
  cases shape with
  | integer bits =>
    rw [ofUint, uint, standalone_emit, Except.mapError_ok, Uint.encode_eq_ok] at hb
    obtain ⟨_, rfl⟩ := hb
    exact .integer
  | varint bits =>
    rw [ofUint, varint, standalone_emit, Except.mapError_ok] at hb
    exact .varint (Varint.form_of_encode hb)
  | _ => cases hb

/-- Parts that are written one after another are a sequence of forms. -/
theorem each_forms {encode : α → Encoder Unit} {form : α → Bytes → Prop}
    (h : Forms encode form clear solid) (happend : ∀ x, AppendsOnly (encode x)) {xs : List α}
    {b : Bytes} (hsolid : ∀ x ∈ xs, solid x) (hb : (each encode xs).standalone = .ok b) :
    Pieces form (xs.map clear) b := by
  rw [Pieces.map_iff]
  exact ((each_ok happend).mp hb).imp fun x hx p hp => h x p (hsolid x hx) hp

theorem ofArray_forms {elem : Shape → α → Encoder Unit} {length : Nat}
    (helem : Forms (elem shape) (form shape) clear solid)
    (happend : ∀ x, AppendsOnly (elem shape x)) :
    Forms (ofArray type elem (.array shape length)) (WireForm.OfArray form length
      (.array shape length)) (List.map clear) (fun xs => ∀ x ∈ xs, solid x) :=
  fun _ _ hsolid hb => .intro (each_forms helem happend hsolid hb)

theorem ofVector_forms {elem : Shape → α → Encoder Unit}
    (helem : Forms (elem shape) (form shape) clear solid)
    (happend : ∀ x, AppendsOnly (elem shape x)) :
    Forms (ofVector type elem (.vector shape h)) (WireForm.OfVector form (.vector shape h))
      (List.map clear)
      (fun xs => (∀ x ∈ xs, (elem shape x).standalone ≠ .ok []) ∧ ∀ x ∈ xs, solid x) := by
  rintro xs b ⟨hne, hsolid⟩ hb
  obtain ⟨front, body, hbody, hfront, rfl⟩ := framed_ok.mp hb
  refine .intro (.intro (head_ok hfront) (Pieces.map_iff.mpr ?_))
  -- An element that is written as nothing has no place in the grammar, and is excluded.
  refine ((each_ok happend).mp hbody).imp fun x hx p hp => ⟨helem x p (hsolid x hx) hp, ?_⟩
  rintro rfl
  exact hne x hx hp

/-- The entries of a map are written in the order of their encoded keys, which is one of the orders
that the grammar allows. Clearing the keys does not make two of them equal, since equal keys would
have been written alike and refused. -/
theorem ofMap_forms {order : KeyOrder κ} {key : Shape → κ → Encoder Unit}
    {value : Shape → β → Encoder Unit} {formOfKey : Shape → κ → Bytes → Prop}
    {formOfValue : Shape → β → Bytes → Prop}
    (hkey : Forms (key keyShape) (formOfKey keyShape) clearKey solidKey)
    (hvalue : Forms (value valueShape) (formOfValue valueShape) clearValue solidValue)
    (hdetermined : Determined (key keyShape) clearKey) :
    Forms (fun dict : Dict order β =>
        ofMap type key value (.map keyShape valueShape h) dict.entries)
      (WireForm.OfMap formOfKey formOfValue (.map keyShape valueShape h))
      (fun dict => .ofEntries (dict.entries.map (Prod.map clearKey clearValue)))
      (fun dict => (∀ e ∈ dict.entries, ¬ ((key keyShape e.1).standalone = .ok [] ∧
          (value valueShape e.2).standalone = .ok [])) ∧
        ∀ e ∈ dict.entries, solidKey e.1 ∧ solidValue e.2) := by
  rintro dict b ⟨hne, hsolid⟩ hb
  obtain ⟨forms, sorted, front, hforms, hperm, hasc, hfront, rfl⟩ := entries_ok.mp hb
  -- The encoded keys ascend, so no two of them are equal.
  have hnodup := (hperm.map EncodedEntry.key).nodup_iff.mp hasc.nodup
  have hentries : (Dict.ofEntries (dict.entries.map (Prod.map clearKey clearValue)) :
      Dict order β).entries.Perm (dict.entries.map (Prod.map clearKey clearValue)) :=
    entries_cleared_perm hdetermined hforms hnodup
  -- The grammar takes the entries in the order in which they have been written.
  obtain ⟨es, hes, hsorted⟩ := EncodedEntry.exists_entries_of_perm hforms hperm
  refine .intro ((hes.map _).trans hentries.symm)
    (.intro (head_ok hfront) (Pieces.map_iff.mpr ?_))
  refine (EncodedEntry.pieces_flatMap hsorted).imp ?_
  rintro e he _ ⟨f, hef, rfl⟩
  have hmem := hes.mem_iff.mp he
  obtain ⟨hk, hv⟩ := hsolid e hmem
  refine ⟨.intro (hkey _ _ hk hef.key) (hvalue _ _ hv hef.value), fun hnil => hne e hmem ?_⟩
  obtain ⟨hk, hv⟩ := List.append_eq_nil_iff.mp hnil
  exact ⟨hk ▸ hef.key, hv ▸ hef.value⟩

theorem ofBox_forms {content : Shape → α → Encoder Unit}
    (hcontent : Forms (content shape) (form shape) clear solid) :
    Forms (ofBox type content (.pointer shape)) (WireForm.OfBox form (.pointer shape)) clear
      solid :=
  fun x b hsolid hb => .intro (hcontent x b hsolid hb)

theorem ofOption_forms {content : Shape → α → Encoder Unit} {target : Shape}
    (hshape : shape = .optional target ∨ shape = .pointer target)
    (hcontent : Forms (content target) (form target) clear solid)
    (happend : ∀ x, AppendsOnly (content target x)) :
    Forms (ofOption type content shape) (WireForm.OfOption form shape) (Option.map clear)
      (fun x => ∀ y ∈ x, solid y) := by
  intro x b hsolid hb
  -- With a flag in front, or along a pointer, where there has to be a value.
  rcases hshape with rfl | rfl
  · cases x with
    | none =>
      rw [ofOption, standalone_append] at hb
      cases hb
      exact .absent
    | some x =>
      obtain ⟨p, hp, rfl⟩ := (ofOption_some_ok (happend x)).mp hb
      exact .present (hcontent x p (hsolid x rfl) hp)
  · cases x with
    | none => cases hb
    | some x => exact .required (hcontent x b (hsolid x rfl) hb)

theorem ofRecord_forms {validate : α → Except String Unit}
    {fields : Shape.Fields → α → Encoder Unit} {form : Shape.Fields → α → Bytes → Prop}
    {shapes : Shape.Fields} (hfields : Forms (fields shapes) (form shapes) clear solid) :
    Forms (ofRecord type validate fields (.record shapes)) (WireForm.OfRecord form (.record shapes))
      clear solid :=
  fun x b hsolid hb => .intro (hfields x b hsolid (ofRecord_ok.mp hb).2)

theorem ofHook_forms {hook : Hook α} (h : hook.Faithful) :
    Forms (ofHook hook .custom) (WireForm.OfHook hook .custom) (fun x => x) (fun _ => True) := by
  intro x b _ hb
  unfold ofHook at hb
  -- Whatever a hook accepts it reads back, and nothing is asked of what it refuses.
  cases hvalidate : hook.validate x with
  | error reason =>
    rw [hvalidate] at hb
    cases hb
  | ok _ =>
    rw [hvalidate] at hb
    simp only [standalone_emit, Except.mapError_ok] at hb
    exact .intro (h x b hvalidate hb)

end Kinds

end Encoder

namespace Schema

open Encoder

theorem marshal_eq {schema : Schema α} {shape : Shape} (h : schema.resolve .default = .ok shape)
    (x : α) : schema.marshal x = (schema.encode shape x).standalone := by
  rw [marshal, marshalWith, h]

/-- An omitted field has no form, and what is left of it is its default. -/
theorem Fields.encode_cons_forms {info : FieldInfo} {schema : Schema α} {rest : Fields β}
    {shapes : Shape.Fields} (hresolve : (Fields.cons info schema rest).resolve = .ok shapes)
    (hfield : ∀ shape, schema.resolve info.directive = .ok shape →
      Forms (schema.encode shape) (schema.WireForm shape) schema.clearOmitted
        (schema.EachPart SolidItems))
    (hrest : ∀ shapes, rest.resolve = .ok shapes →
      Forms (rest.encode shapes) (rest.WireForm shapes) rest.clearOmitted
        (rest.EachPart SolidItems)) :
    Forms ((Fields.cons info schema rest).encode shapes)
      ((Fields.cons info schema rest).WireForm shapes) (Fields.cons info schema rest).clearOmitted
      ((Fields.cons info schema rest).EachPart SolidItems) := by
  rintro ⟨x, xs⟩ b hsolid hb
  simp only [Fields.EachPart] at hsolid
  simp only [Fields.WireForm, Fields.clearOmitted]
  rcases Fields.resolve_cons.mp hresolve with ⟨homit, restShapes, hrestShapes, rfl⟩ |
    ⟨hon, shape, restShapes, hshape, hrestShapes, rfl⟩
  -- Nothing is written for an omitted field.
  · rw [if_pos homit]
    rw [Fields.encode] at hb
    exact .absent (hrest _ hrestShapes _ _ hsolid.2 hb)
  · rw [if_neg hon]
    obtain ⟨p, t, hp, ht, rfl⟩ := Fields.encode_present_ok.mp hb
    exact .present (hfield _ hshape _ _ (hsolid.1 hon) hp) (hrest _ hrestShapes _ _ hsolid.2 ht)

mutual

/-- What a value is encoded to is a wire form of what is left of it. -/
theorem encode_forms : {α : Type} → (schema : Schema α) → schema.EachHook Hook.Faithful →
    {d : Directive} → {shape : Shape} → schema.resolve d = .ok shape →
    Forms (schema.encode shape) (schema.WireForm shape) schema.clearOmitted
      (schema.EachPart SolidItems)
  | _, .uint _, _, _, _, _ => by
    intro n b _ hb
    rw [encode] at hb
    rw [WireForm, clearOmitted]
    exact ofUint_forms hb
  | _, .array _ elem _, hhooks, _, _, hresolve => by
    obtain ⟨_, elemShape, helem, _, rfl⟩ := resolve_array.mp hresolve
    intro xs b hsolid hb
    rw [encode] at hb
    rw [EachPart] at hsolid
    exact ofArray_forms (encode_forms elem hhooks helem) (elem.encode_appendsOnly elemShape)
      _ _ hsolid.2 hb
  | _, .vector _ elem, hhooks, _, _, hresolve => by
    obtain ⟨head, elemShape, _, helem, _, rfl⟩ := resolve_vector.mp hresolve
    intro xs b hsolid hb
    rw [encode] at hb
    simp only [EachPart, SolidItems, marshal_eq helem] at hsolid
    exact ofVector_forms (encode_forms elem hhooks helem) (elem.encode_appendsOnly elemShape)
      _ _ hsolid hb
  | _, .map _ _ _ key value, hhooks, _, _, hresolve => by
    obtain ⟨head, keyShape, valueShape, _, hkey, _, hvalue, _, rfl⟩ := resolve_map.mp hresolve
    intro dict b hsolid hb
    rw [encode] at hb
    simp only [EachPart, SolidItems, marshal_eq hkey, marshal_eq hvalue] at hsolid
    exact ofMap_forms (encode_forms key hhooks.1 hkey) (encode_forms value hhooks.2 hvalue)
      (encode_determined key hkey) _ _ hsolid hb
  | _, .box _ content, hhooks, _, _, hresolve => by
    obtain ⟨_, target, hcontent, rfl⟩ := resolve_box.mp hresolve
    intro x b hsolid hb
    rw [encode] at hb
    rw [EachPart] at hsolid
    exact ofBox_forms (encode_forms content hhooks hcontent) _ _ hsolid.2 hb
  | _, .option _ content, hhooks, _, _, hresolve => by
    intro x b hsolid hb
    rw [encode] at hb
    rw [EachPart] at hsolid
    rcases resolve_option.mp hresolve with ⟨_, target, hcontent, rfl⟩ | ⟨_, target, hcontent, rfl⟩
    · exact ofOption_forms (.inl rfl) (encode_forms content hhooks hcontent)
        (content.encode_appendsOnly target) _ _ hsolid.2 hb
    · exact ofOption_forms (.inr rfl) (encode_forms content hhooks hcontent)
        (content.encode_appendsOnly target) _ _ hsolid.2 hb
  | _, .record _ fields _ _, hhooks, _, _, hresolve => by
    obtain ⟨_, shapes, hfields, _, rfl⟩ := resolve_record.mp hresolve
    intro x b hsolid hb
    rw [encode] at hb
    rw [EachPart] at hsolid
    exact ofRecord_forms (Fields.encode_forms fields hhooks hfields) _ _ hsolid.2 hb
  | _, .custom _, hhooks, _, _, hresolve => by
    obtain ⟨_, rfl⟩ := resolve_custom.mp hresolve
    intro x b _ hb
    rw [encode] at hb
    exact ofHook_forms hhooks _ _ trivial hb

theorem Fields.encode_forms : {α : Type} → (fields : Fields α) → fields.EachHook Hook.Faithful →
    {shapes : Shape.Fields} → fields.resolve = .ok shapes →
    Forms (fields.encode shapes) (fields.WireForm shapes) fields.clearOmitted
      (fields.EachPart SolidItems)
  | _, .nil, _, _, _ => by
    intro x b _ hb
    rw [Fields.encode, standalone_pure] at hb
    cases hb
    rfl
  | _, .cons _ schema rest, hhooks, _, hresolve =>
    Fields.encode_cons_forms hresolve (fun _ => Schema.encode_forms schema hhooks.1)
      (fun _ => Fields.encode_forms rest hhooks.2)

end

end Schema

end TlsWire
