import TlsWire.Proofs.Encode.Entries
import TlsWire.Proofs.Dict
import TlsWire.Proofs.Parts
import TlsWire.Proofs.Schema.Resolve

/-!
# Omitted fields are not written

Two values that differ in omitted fields only are written alike, if they are written at all
(`Schema.encode_determined`). In a map this is more than it seems: keys that differ in
omitted fields only would have the same form, so a map that is written has no such keys, and stays
as large as it is when its keys are cleared (`nodup_keys_map`).
-/

namespace TlsWire

variable {α β κ : Type}

namespace Encoder

/-- What is written depends on nothing but `clear x`. -/
def Determined (encode : α → Encoder Unit) (clear : α → α) : Prop :=
  ∀ x y b b', clear x = clear y → (encode x).standalone = .ok b →
    (encode y).standalone = .ok b' → b = b'

section Kinds

variable {type : String} {h : Head} {length : Nat} {shape keyShape valueShape : Shape}
  {clear : α → α} {clearKey : κ → κ} {clearValue : β → β}

/-- Parts that are the same when cleared, one by one, are written alike. -/
theorem each_determined {encode : α → Encoder Unit} (h : Determined encode clear)
    (happend : ∀ x, AppendsOnly (encode x)) :
    ∀ xs ys b b', xs.map clear = ys.map clear → (each encode xs).standalone = .ok b →
      (each encode ys).standalone = .ok b' → b = b' := by
  intro xs ys b b' hmap hb hb'
  rw [each_ok happend] at hb hb'
  exact hb.eq_of_map_eq hb' hmap h

/-- The same content has the same head. -/
theorem framed_determined {content content' : Encoder Unit} {b b' : Bytes}
    (hcontent : ∀ p q, content.standalone = .ok p → content'.standalone = .ok q → p = q)
    (hb : (framed h content).standalone = .ok b) (hb' : (framed h content').standalone = .ok b') :
    b = b' := by
  obtain ⟨front, body, hbody, hfront, rfl⟩ := framed_ok.mp hb
  obtain ⟨front', body', hbody', hfront', rfl⟩ := framed_ok.mp hb'
  obtain rfl := hcontent _ _ hbody hbody'
  rw [hfront] at hfront'
  cases hfront'
  rfl

/-- In a map that is written, no two keys are the same but for what is omitted. -/
theorem nodup_keys_map {key : κ → Encoder Unit} {value : β → Encoder Unit}
    (hkey : Determined key clearKey) {es : List (κ × β)} {forms : List EncodedEntry}
    (hforms : List.Forall₂ (EncodedEntry.FormOf key value) es forms)
    (hnodup : (forms.map EncodedEntry.key).Nodup) :
    (Dict.keys (es.map (Prod.map clearKey clearValue))).Nodup := by
  -- By induction on the entries together with their forms, whose keys are all different.
  induction hforms with
  | nil => exact List.nodup_nil
  | @cons e f es fs hef hrest ih =>
    rw [List.map_cons, List.nodup_cons] at hnodup
    rw [List.map_cons, Dict.keys, List.map_cons, List.nodup_cons]
    -- A later key that is the same when cleared would have been written as the same bytes.
    refine ⟨fun hmem => hnodup.1 ?_, ih hnodup.2⟩
    obtain ⟨_, hmem', heq⟩ := List.mem_map.mp hmem
    obtain ⟨e', he', rfl⟩ := List.mem_map.mp hmem'
    obtain ⟨f', hf', hef'⟩ := EncodedEntry.exists_form_of_mem hrest he'
    rw [hkey _ _ _ _ heq.symm hef.key hef'.key]
    exact List.mem_map_of_mem hf'

/-- A map that is written is as large as before when its entries are cleared. -/
theorem entries_cleared_perm {order : KeyOrder κ} {key : κ → Encoder Unit}
    {value : β → Encoder Unit} (hkey : Determined key clearKey) {dict : Dict order β}
    {forms : List EncodedEntry}
    (hforms : List.Forall₂ (EncodedEntry.FormOf key value) dict.entries forms)
    (hnodup : (forms.map EncodedEntry.key).Nodup) :
    (Dict.ofEntries (dict.entries.map (Prod.map clearKey clearValue)) :
      Dict order β).entries.Perm (dict.entries.map (Prod.map clearKey clearValue)) :=
  Dict.entries_ofEntries_perm (nodup_keys_map hkey hforms hnodup)

/-- The form of an entry is a form of every entry that is the same but for what is omitted. -/
theorem forms_subset {key : κ → Encoder Unit} {value : β → Encoder Unit}
    (hkey : Determined key clearKey) (hvalue : Determined value clearValue)
    {es es' : List (κ × β)} {fs fs' : List EncodedEntry}
    (hfs : List.Forall₂ (EncodedEntry.FormOf key value) es fs)
    (hfs' : List.Forall₂ (EncodedEntry.FormOf key value) es' fs')
    (hes : es.map (Prod.map clearKey clearValue) ⊆ es'.map (Prod.map clearKey clearValue)) :
    fs ⊆ fs' := by
  rintro ⟨a, v⟩ hf
  obtain ⟨e, he, hef⟩ := EncodedEntry.exists_entry_of_mem hfs hf
  obtain ⟨e', he', heq⟩ := List.mem_map.mp (hes (List.mem_map_of_mem he))
  obtain ⟨⟨a', v'⟩, hf', hef'⟩ := EncodedEntry.exists_form_of_mem hfs' he'
  obtain ⟨hk, hv⟩ := Prod.mk.inj heq
  obtain rfl : a = a' := hkey _ _ _ _ hk.symm hef.key hef'.key
  obtain rfl : v = v' := hvalue _ _ _ _ hv.symm hef.value hef'.value
  exact hf'

/-- Two maps that are the same when cleared have forms of the same entries, and there is only one
order to write these in. So both are written as the same bytes. -/
theorem entries_determined {order : KeyOrder κ} {key : κ → Encoder Unit}
    {value : β → Encoder Unit} (hkey : Determined key clearKey)
    (hvalue : Determined value clearValue) {dict dict' : Dict order β} {b b' : Bytes}
    (hclear : (Dict.ofEntries (dict.entries.map (Prod.map clearKey clearValue)) : Dict order β) =
      Dict.ofEntries (dict'.entries.map (Prod.map clearKey clearValue)))
    (hb : (entries type h key value dict.entries).standalone = .ok b)
    (hb' : (entries type h key value dict'.entries).standalone = .ok b') : b = b' := by
  obtain ⟨forms, sorted, front, hforms, hperm, hasc, hfront, rfl⟩ := entries_ok.mp hb
  obtain ⟨forms', sorted', front', hforms', hperm', hasc', hfront', rfl⟩ := entries_ok.mp hb'
  have hnodup := (hperm.map EncodedEntry.key).nodup_iff.mp hasc.nodup
  have hnodup' := (hperm'.map EncodedEntry.key).nodup_iff.mp hasc'.nodup
  -- Nothing is lost by clearing, so the cleared entries of both are the same.
  have hcleared : (dict.entries.map (Prod.map clearKey clearValue)).Perm
      (dict'.entries.map (Prod.map clearKey clearValue)) := by
    apply (entries_cleared_perm hkey hforms hnodup).symm.trans
    rw [hclear]
    exact entries_cleared_perm hkey hforms' hnodup'
  -- So are their forms, and the order of these on the wire leaves no choice.
  have hforms_perm : forms.Perm forms' :=
    (List.perm_ext_iff_of_nodup hnodup.of_map hnodup'.of_map).mpr fun _ =>
      ⟨fun hf => forms_subset hkey hvalue hforms hforms' hcleared.subset hf,
        fun hf => forms_subset hkey hvalue hforms' hforms hcleared.symm.subset hf⟩
  obtain rfl := EncodedEntry.eq_of_perm (hperm.trans (hforms_perm.trans hperm'.symm)) hasc hasc'
  rw [hfront] at hfront'
  cases hfront'
  rfl

theorem ofArray_determined {elem : Shape → α → Encoder Unit}
    (helem : Determined (elem shape) clear) (happend : ∀ x, AppendsOnly (elem shape x)) :
    ∀ xs ys b b', xs.map clear = ys.map clear →
      (ofArray type elem (.array shape length) xs).standalone = .ok b →
      (ofArray type elem (.array shape length) ys).standalone = .ok b' → b = b' :=
  each_determined helem happend

/-- The content of the frame is determined, and with it the head. -/
theorem ofVector_determined {elem : Shape → α → Encoder Unit}
    (helem : Determined (elem shape) clear) (happend : ∀ x, AppendsOnly (elem shape x)) :
    Determined (ofVector type elem (.vector shape h)) (List.map clear) := by
  intro xs ys b b' hmap hb hb'
  exact framed_determined (fun p q => each_determined helem happend xs ys p q hmap) hb hb'

theorem ofOption_determined {content : Shape → α → Encoder Unit} {target : Shape}
    (hshape : shape = .optional target ∨ shape = .pointer target)
    (hcontent : Determined (content target) clear) (happend : ∀ x, AppendsOnly (content target x)) :
    Determined (ofOption type content shape) (Option.map clear) := by
  intro x y b b' hmap hb hb'
  cases x with
  | none =>
    -- Clearing keeps a value present, so both are absent or both present.
    obtain rfl := Option.map_eq_none_iff.mp hmap.symm
    rw [hb] at hb'
    cases hb'
    rfl
  | some x =>
    obtain ⟨y, rfl, hxy⟩ := Option.map_eq_some_iff.mp hmap.symm
    rcases hshape with rfl | rfl
    · obtain ⟨p, hp, rfl⟩ := (ofOption_some_ok (happend x)).mp hb
      obtain ⟨q, hq, rfl⟩ := (ofOption_some_ok (happend y)).mp hb'
      rw [hcontent _ _ _ _ hxy.symm hp hq]
    · exact hcontent _ _ _ _ hxy.symm hb hb'

end Kinds

end Encoder

namespace Schema

open Encoder

/-- What stands in an omitted field makes no difference, and the others are the same when cleared.
-/
theorem Fields.encode_cons_determined {info : FieldInfo} {schema : Schema α} {rest : Fields β}
    {shapes : Shape.Fields} (hresolve : (Fields.cons info schema rest).resolve = .ok shapes)
    (hfield : ∀ shape, schema.resolve info.directive = .ok shape →
      Determined (schema.encode shape) schema.clearOmitted)
    (hrest : ∀ shapes, rest.resolve = .ok shapes →
      Determined (rest.encode shapes) rest.clearOmitted) :
    Determined ((Fields.cons info schema rest).encode shapes)
      (Fields.cons info schema rest).clearOmitted := by
  rintro ⟨x, xs⟩ ⟨y, ys⟩ b b' hclear hb hb'
  simp only [Fields.clearOmitted, Prod.mk.injEq] at hclear
  rcases Fields.resolve_cons.mp hresolve with ⟨_, restShapes, hrestShapes, rfl⟩ |
    ⟨hon, shape, restShapes, hshape, hrestShapes, rfl⟩
  -- Nothing is written for an omitted field, whatever it holds.
  · rw [Fields.encode] at hb hb'
    exact hrest _ hrestShapes _ _ _ _ hclear.2 hb hb'
  · obtain ⟨p, t, hp, ht, rfl⟩ := Fields.encode_present_ok.mp hb
    obtain ⟨q, u, hq, hu, rfl⟩ := Fields.encode_present_ok.mp hb'
    rw [if_neg hon, if_neg hon] at hclear
    rw [hfield _ hshape _ _ _ _ hclear.1 hp hq, hrest _ hrestShapes _ _ _ _ hclear.2 ht hu]

mutual

/-- Values that are the same but for omitted fields are not written differently. -/
theorem encode_determined : {α : Type} → (schema : Schema α) → {d : Directive} → {shape : Shape} →
    schema.resolve d = .ok shape → Determined (schema.encode shape) schema.clearOmitted
  | _, .uint _, _, _, _ => by
    intro x y b b' hclear hb hb'
    simp only [clearOmitted] at hclear
    subst hclear
    exact Except.ok.inj (hb.symm.trans hb')
  | _, .array _ elem _, _, _, hresolve => by
    obtain ⟨_, elemShape, helem, _, rfl⟩ := resolve_array.mp hresolve
    intro xs ys b b' hclear hb hb'
    rw [encode] at hb hb'
    exact ofArray_determined (encode_determined elem helem) (elem.encode_appendsOnly elemShape)
      _ _ _ _ (congrArg Subtype.val hclear) hb hb'
  | _, .vector _ elem, _, _, hresolve => by
    obtain ⟨head, elemShape, _, helem, _, rfl⟩ := resolve_vector.mp hresolve
    intro xs ys b b' hclear hb hb'
    rw [encode] at hb hb'
    exact ofVector_determined (encode_determined elem helem) (elem.encode_appendsOnly elemShape)
      _ _ _ _ hclear hb hb'
  | _, .map _ _ _ key value, _, _, hresolve => by
    obtain ⟨head, keyShape, valueShape, _, hkey, _, hvalue, _, rfl⟩ := resolve_map.mp hresolve
    intro dict dict' b b' hclear hb hb'
    rw [encode] at hb hb'
    -- A map is compared as a whole: clearing it puts its entries in another order.
    exact entries_determined (encode_determined key hkey) (encode_determined value hvalue)
      hclear hb hb'
  | _, .box _ content, _, _, hresolve => by
    obtain ⟨_, target, hcontent, rfl⟩ := resolve_box.mp hresolve
    intro x y b b' hclear hb hb'
    rw [encode] at hb hb'
    exact encode_determined content hcontent _ _ _ _ hclear hb hb'
  | _, .option _ content, _, _, hresolve => by
    intro x y b b' hclear hb hb'
    rw [encode] at hb hb'
    rcases resolve_option.mp hresolve with ⟨_, target, hcontent, rfl⟩ | ⟨_, target, hcontent, rfl⟩
    · exact ofOption_determined (.inl rfl) (encode_determined content hcontent)
        (content.encode_appendsOnly target) _ _ _ _ hclear hb hb'
    · exact ofOption_determined (.inr rfl) (encode_determined content hcontent)
        (content.encode_appendsOnly target) _ _ _ _ hclear hb hb'
  | _, .record _ fields _ _, _, _, hresolve => by
    obtain ⟨_, shapes, hfields, _, rfl⟩ := resolve_record.mp hresolve
    intro x y b b' hclear hb hb'
    rw [encode] at hb hb'
    -- The check of a record may see its omitted fields, but it decides only whether anything is
    -- written.
    exact Fields.encode_determined fields hfields _ _ _ _ hclear (ofRecord_ok.mp hb).2
      (ofRecord_ok.mp hb').2
  | _, .custom _, _, _, _ => by
    intro x y b b' hclear hb hb'
    simp only [clearOmitted] at hclear
    subst hclear
    exact Except.ok.inj (hb.symm.trans hb')

theorem Fields.encode_determined : {α : Type} → (fields : Fields α) → {shapes : Shape.Fields} →
    fields.resolve = .ok shapes → Determined (fields.encode shapes) fields.clearOmitted
  | _, .nil, _, _ => fun _ _ _ _ _ hb hb' => Except.ok.inj (hb.symm.trans hb')
  | _, .cons _ schema rest, _, hresolve =>
    Fields.encode_cons_determined hresolve (fun _ => Schema.encode_determined schema)
      (fun _ => Fields.encode_determined rest)

end

end Schema

end TlsWire
