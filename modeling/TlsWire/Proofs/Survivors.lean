import TlsWire.Proofs.Encode.Weightless
import TlsWire.Proofs.RoundTrip

/-!
# What is left of a collection

The encoder writes elements that take no bytes, and there is nothing to read them back from: a
decoder finds the content used up and no element at all. `Schema.surviving` is what is left of a
value, with every collection of weightless elements empty and omitted fields at their default. For
values without hooks it is what is decoded from their encoding (`Schema.unmarshalWith_surviving`),
by way of the same grammar as for a round trip: what is written depends on nothing but the survivors
and is a form of them (`Encoder.Survives`). So a collection comes back with as many elements as it
had, or with none.
-/

namespace TlsWire

variable {α β κ : Type}

namespace Schema

mutual

/-- The value with every collection of weightless elements empty, and every omitted field at its
default. -/
def surviving : {α : Type} → Schema α → α → α
  | _, .uint _, n => n
  | _, .array _ elem _, xs => ⟨xs.val.map elem.surviving, by rw [List.length_map, xs.property]⟩
  | _, .vector _ elem, xs => if elem.weightless then [] else xs.map elem.surviving
  | _, .map _ _ _ key value, dict =>
    if key.weightless && value.weightless then .empty
    else .ofEntries (dict.entries.map (Prod.map key.surviving value.surviving))
  | _, .box _ content, x => content.surviving x
  | _, .option _ content, x => x.map content.surviving
  | _, .record _ fields _ _, x => fields.surviving x
  | _, .custom _, x => x

/-- The fields, those that are omitted at their defaults. -/
def Fields.surviving : {α : Type} → Fields α → α → α
  | _, .nil, x => x
  | _, .cons info schema rest, (x, xs) =>
    (if info.directive = .omit then schema.default else schema.surviving x, rest.surviving xs)

end

end Schema

namespace Encoder

/-- What is written depends on nothing but what is left of the value, and is a form of it. -/
structure Survives (encode : α → Encoder Unit) (form : α → Bytes → Prop) (left : α → α) :
    Prop where
  determined : Determined encode left
  forms : Forms encode form left fun _ => True

section Kinds

variable {type : String} {h : Head} {shape keyShape valueShape target : Shape} {left : α → α}
  {leftKey : κ → κ} {leftValue : β → β} {form : Shape → α → Bytes → Prop}

/-- Equal values are written alike. -/
theorem determined_self {encode : α → Encoder Unit} : Determined encode fun x => x := by
  intro x y b b' heq hb hb'
  simp only at heq
  rw [heq, hb'] at hb
  cases hb
  rfl

/-- Where nothing is written behind a head, the head of no content is all that is on the wire. -/
theorem framed_nothing {content : Encoder Unit} {b : Bytes}
    (hcontent : ∀ p, content.standalone = .ok p → p = [])
    (hb : (framed h content).standalone = .ok b) : (head h 0).standalone = .ok b := by
  obtain ⟨front, body, hbody, hfront, rfl⟩ := framed_ok.mp hb
  obtain rfl : body = [] := hcontent body hbody
  rwa [List.append_nil]

/-- Entries whose keys and values take no bytes are nothing but a head together, in whatever order.
-/
theorem entries_nothing {key : κ → Encoder Unit} {value : β → Encoder Unit} {es : List (κ × β)}
    {b : Bytes} (hkey : WritesNothing key) (hvalue : WritesNothing value)
    (hb : (entries type h key value es).standalone = .ok b) : (head h 0).standalone = .ok b := by
  obtain ⟨forms, sorted, front, hforms, hperm, _, hfront, rfl⟩ := entries_ok.mp hb
  have hnothing : sorted.flatMap EncodedEntry.bytes = [] := by
    rw [List.flatMap_eq_nil_iff]
    intro f hf
    obtain ⟨e, _, hef⟩ := EncodedEntry.exists_entry_of_mem hforms (hperm.mem_iff.mp hf)
    rw [EncodedEntry.bytes, hkey e.1 f.key hef.key, hvalue e.2 f.value hef.value]
    rfl
  rw [hnothing] at hfront ⊢
  rwa [List.append_nil]

/-- What survives of an array is an array of what survives of its elements. It keeps its length,
which is not on the wire. -/
theorem Survives.array {elem : Shape → α → Encoder Unit} {length : Nat}
    (helem : Survives (elem shape) (form shape) left)
    (happend : ∀ x, AppendsOnly (elem shape x)) :
    Survives (fun items : Tuple α length => ofArray type elem (.array shape length) items.val)
      (fun items => WireForm.OfArray form length (.array shape length) items.val)
      (fun items => ⟨items.val.map left, by rw [List.length_map, items.property]⟩) where
  determined _ _ b b' hleft hb hb' :=
    ofArray_determined helem.determined happend _ _ b b' (congrArg Subtype.val hleft) hb hb'
  forms xs b _ hb := ofArray_forms helem.forms happend xs.val b (fun _ _ => trivial) hb

/-- Elements that always take bytes all survive. -/
theorem Survives.vector {elem : Shape → α → Encoder Unit}
    (helem : Survives (elem shape) (form shape) left)
    (happend : ∀ x, AppendsOnly (elem shape x))
    (hsolid : ∀ x, (elem shape x).standalone ≠ .ok []) :
    Survives (ofVector type elem (.vector shape h)) (WireForm.OfVector form (.vector shape h))
      (List.map left) where
  determined := ofVector_determined helem.determined happend
  forms xs b _ hb :=
    ofVector_forms helem.forms happend xs b ⟨fun x _ => hsolid x, fun _ _ => trivial⟩ hb

/-- Nothing is written but the head of no content, which is a form of no elements. -/
theorem Survives.vector_weightless {elem : Shape → α → Encoder Unit}
    (helem : WritesNothing (elem shape)) (happend : ∀ x, AppendsOnly (elem shape x)) :
    Survives (ofVector type elem (.vector shape h)) (WireForm.OfVector form (.vector shape h))
      (fun _ => []) := by
  have hhead : ∀ xs b, (ofVector type elem (.vector shape h) xs).standalone = .ok b →
      (head h 0).standalone = .ok b := fun _ _ hb =>
    framed_nothing (fun p hp => ((each_ok happend).mp hp).eq_nil helem) hb
  refine ⟨?_, ?_⟩
  · intro xs ys b b' _ hb hb'
    exact Except.ok.inj ((hhead xs b hb).symm.trans (hhead ys b' hb'))
  · intro xs b _ hb
    -- The same bytes are a form of the empty list, which has no elements to account for.
    have hform : WireForm.Framed h (Pieces (WireForm.Solid (form shape)) []) (b ++ []) :=
      .intro (head_ok (hhead xs b hb)) .nil
    rw [List.append_nil] at hform
    exact .intro hform

/-- Entries that always take bytes survive, with what is left of their keys and values. -/
theorem Survives.map {order : KeyOrder κ} {key : Shape → κ → Encoder Unit}
    {value : Shape → β → Encoder Unit} {formOfKey : Shape → κ → Bytes → Prop}
    {formOfValue : Shape → β → Bytes → Prop}
    (hkey : Survives (key keyShape) (formOfKey keyShape) leftKey)
    (hvalue : Survives (value valueShape) (formOfValue valueShape) leftValue)
    (hsolid : ∀ k v, ¬ ((key keyShape k).standalone = .ok [] ∧
      (value valueShape v).standalone = .ok [])) :
    Survives
      (fun dict : Dict order β =>
        ofMap type key value (.map keyShape valueShape h) dict.entries)
      (WireForm.OfMap formOfKey formOfValue (.map keyShape valueShape h))
      (fun dict => .ofEntries (dict.entries.map (Prod.map leftKey leftValue))) where
  determined _ _ _ _ hleft hb hb' :=
    entries_determined hkey.determined hvalue.determined hleft hb hb'
  forms dict b _ hb :=
    ofMap_forms hkey.forms hvalue.forms hkey.determined dict b
      ⟨fun e _ => hsolid e.1 e.2, fun _ _ => ⟨trivial, trivial⟩⟩ hb

/-- If neither keys nor values take bytes, then no more than the head is left of the map. -/
theorem Survives.map_weightless {order : KeyOrder κ} {key : Shape → κ → Encoder Unit}
    {value : Shape → β → Encoder Unit} {formOfKey : Shape → κ → Bytes → Prop}
    {formOfValue : Shape → β → Bytes → Prop} (hkey : WritesNothing (key keyShape))
    (hvalue : WritesNothing (value valueShape)) :
    Survives
      (fun dict : Dict order β =>
        ofMap type key value (.map keyShape valueShape h) dict.entries)
      (WireForm.OfMap formOfKey formOfValue (.map keyShape valueShape h)) (fun _ => .empty) := by
  have hhead : ∀ es b, (ofMap type key value (.map keyShape valueShape h) es).standalone = .ok b →
      (head h 0).standalone = .ok b := fun _ _ hb => entries_nothing hkey hvalue hb
  refine ⟨?_, ?_⟩
  · intro dict dict' b b' _ hb hb'
    exact Except.ok.inj ((hhead dict.entries b hb).symm.trans (hhead dict'.entries b' hb'))
  · intro dict b _ hb
    have hform : WireForm.Framed h (Pieces (WireForm.Solid
        (WireForm.OfEntry (formOfKey keyShape) (formOfValue valueShape))) []) (b ++ []) :=
      .intro (head_ok (hhead dict.entries b hb)) .nil
    rw [List.append_nil] at hform
    -- The empty map has this form as well.
    exact .intro .nil hform

/-- A pointer leaves what its target does. -/
theorem Survives.box {content : Shape → α → Encoder Unit}
    (hcontent : Survives (content target) (form target) left) :
    Survives (ofBox type content (.pointer target)) (WireForm.OfBox form (.pointer target)) left
    where
  determined := hcontent.determined
  forms := ofBox_forms hcontent.forms

/-- Whether there is a value survives, with a flag or without. -/
theorem Survives.option {content : Shape → α → Encoder Unit}
    (hshape : shape = .optional target ∨ shape = .pointer target)
    (hcontent : Survives (content target) (form target) left)
    (happend : ∀ x, AppendsOnly (content target x)) :
    Survives (ofOption type content shape) (WireForm.OfOption form shape) (Option.map left) where
  determined := ofOption_determined hshape hcontent.determined happend
  forms x b _ hb := ofOption_forms hshape hcontent.forms happend x b (fun _ _ => trivial) hb

/-- A record leaves what its fields do. Its own check is not part of the form. -/
theorem Survives.record {validate : α → Except String Unit} {shapes : Shape.Fields}
    {fields : Shape.Fields → α → Encoder Unit} {form : Shape.Fields → α → Bytes → Prop}
    (hfields : Survives (fields shapes) (form shapes) left) :
    Survives (ofRecord type validate fields (.record shapes))
      (WireForm.OfRecord form (.record shapes)) left where
  determined x y b b' hleft hb hb' :=
    hfields.determined x y b b' hleft (ofRecord_ok.mp hb).2 (ofRecord_ok.mp hb').2
  forms := ofRecord_forms hfields.forms

end Kinds

end Encoder

namespace Schema

open Encoder

/-- An omitted field is replaced by its default, and the other ones leave what they do. -/
theorem Fields.survives_cons {info : FieldInfo} {schema : Schema α} {rest : Fields β}
    {shapes : Shape.Fields} (hresolve : (Fields.cons info schema rest).resolve = .ok shapes)
    (hfield : ∀ shape, schema.resolve info.directive = .ok shape →
      Survives (schema.encode shape) (schema.WireForm shape) schema.surviving)
    (hrest : ∀ shapes, rest.resolve = .ok shapes →
      Survives (rest.encode shapes) (rest.WireForm shapes) rest.surviving) :
    Survives ((Fields.cons info schema rest).encode shapes)
      ((Fields.cons info schema rest).WireForm shapes)
      (Fields.cons info schema rest).surviving := by
  -- The first field is not on the wire, or it comes first there.
  rcases Fields.resolve_cons.mp hresolve with ⟨homit, restShapes, hrestShapes, rfl⟩ |
    ⟨hon, shape, restShapes, hshape, hrestShapes, rfl⟩
  · have hrest := hrest restShapes hrestShapes
    refine ⟨?_, ?_⟩
    · rintro ⟨x, xs⟩ ⟨y, ys⟩ b b' hleft hb hb'
      simp only [Fields.surviving, Prod.mk.injEq] at hleft
      rw [Fields.encode] at hb hb'
      exact hrest.determined xs ys b b' hleft.2 hb hb'
    · rintro ⟨x, xs⟩ b _ hb
      simp only [Fields.WireForm, Fields.surviving]
      rw [if_pos homit]
      rw [Fields.encode] at hb
      exact .absent (hrest.forms xs b trivial hb)
  · have hfield := hfield shape hshape
    have hrest := hrest restShapes hrestShapes
    refine ⟨?_, ?_⟩
    · rintro ⟨x, xs⟩ ⟨y, ys⟩ b b' hleft hb hb'
      simp only [Fields.surviving, Prod.mk.injEq, if_neg hon] at hleft
      obtain ⟨p, t, hp, ht, rfl⟩ := Fields.encode_present_ok.mp hb
      obtain ⟨q, u, hq, hu, rfl⟩ := Fields.encode_present_ok.mp hb'
      rw [hfield.determined x y p q hleft.1 hp hq, hrest.determined xs ys t u hleft.2 ht hu]
    · rintro ⟨x, xs⟩ b _ hb
      simp only [Fields.WireForm, Fields.surviving]
      rw [if_neg hon]
      obtain ⟨p, t, hp, ht, rfl⟩ := Fields.encode_present_ok.mp hb
      exact .present (hfield.forms x p trivial hp) (hrest.forms xs t trivial ht)

mutual

/-- What a value without hooks is encoded to is a form of what survives of it. -/
theorem survives : {α : Type} → (schema : Schema α) → schema.HookFree → {d : Directive} →
    {shape : Shape} → schema.resolve d = .ok shape →
    Survives (schema.encode shape) (schema.WireForm shape) schema.surviving
  | _, .uint _, _, _, _, _ => by
    refine ⟨determined_self, ?_⟩
    intro n b _ hb
    rw [encode] at hb
    rw [WireForm, surviving]
    exact ofUint_forms hb
  | _, .array _ elem _, hfree, _, _, hresolve => by
    obtain ⟨_, elemShape, helem, _, rfl⟩ := resolve_array.mp hresolve
    simp only [encode, WireForm, surviving]
    exact .array (survives elem hfree helem) (elem.encode_appendsOnly elemShape)
  | _, .vector _ elem, hfree, _, _, hresolve => by
    obtain ⟨head, elemShape, _, helem, hbounded, rfl⟩ := resolve_vector.mp hresolve
    simp only [encode, WireForm, surviving]
    -- Here the type decides: either all elements are lost, or none is.
    split
    case isTrue hweightless =>
      exact .vector_weightless (writesNothing_of_weightless hfree helem hbounded hweightless)
        (elem.encode_appendsOnly elemShape)
    case isFalse hsolid =>
      exact .vector (survives elem hfree helem) (elem.encode_appendsOnly elemShape)
        (ne_nil_of_not_weightless helem hsolid)
  | _, .map _ _ _ key value, hfree, _, _, hresolve => by
    obtain ⟨head, keyShape, valueShape, _, hkey, hkeyBounded, hvalue, hvalueBounded, rfl⟩ :=
      resolve_map.mp hresolve
    simp only [encode, WireForm, surviving]
    split
    case isTrue hweightless =>
      rw [Bool.and_eq_true] at hweightless
      exact .map_weightless
        (writesNothing_of_weightless hfree.1 hkey hkeyBounded hweightless.1)
        (writesNothing_of_weightless hfree.2 hvalue hvalueBounded hweightless.2)
    case isFalse hsolid =>
      refine .map (survives key hfree.1 hkey) (survives value hfree.2 hvalue) ?_
      -- An entry is solid as soon as one of its halves is.
      rintro k v ⟨hk, hv⟩
      rw [Bool.and_eq_true, not_and_or] at hsolid
      cases hsolid with
      | inl h => exact ne_nil_of_not_weightless hkey h k hk
      | inr h => exact ne_nil_of_not_weightless hvalue h v hv
  | _, .box _ content, hfree, _, _, hresolve => by
    obtain ⟨_, target, hcontent, rfl⟩ := resolve_box.mp hresolve
    simp only [encode, WireForm, surviving]
    exact .box (survives content hfree hcontent)
  | _, .option _ content, hfree, _, _, hresolve => by
    simp only [encode, WireForm, surviving]
    rcases resolve_option.mp hresolve with ⟨_, target, hcontent, rfl⟩ | ⟨_, target, hcontent, rfl⟩
    · exact .option (.inl rfl) (survives content hfree hcontent) (content.encode_appendsOnly target)
    · exact .option (.inr rfl) (survives content hfree hcontent) (content.encode_appendsOnly target)
  | _, .record _ fields _ _, hfree, _, _, hresolve => by
    obtain ⟨_, shapes, hfields, _, rfl⟩ := resolve_record.mp hresolve
    simp only [encode, WireForm, surviving]
    exact .record (Fields.survives fields hfree hfields)
  | _, .custom _, hfree, _, _, _ => hfree.elim

/-- By induction on the fields. -/
theorem Fields.survives : {α : Type} → (fields : Fields α) → fields.HookFree →
    {shapes : Shape.Fields} → fields.resolve = .ok shapes →
    Survives (fields.encode shapes) (fields.WireForm shapes) fields.surviving
  | _, .nil, _, _, _ => by
    refine ⟨determined_self, ?_⟩
    intro x b _ hb
    cases hb
    rfl
  | _, .cons _ schema rest, hfree, _, hresolve =>
    Fields.survives_cons hresolve (fun _ => Schema.survives schema hfree.1)
      (fun _ => Fields.survives rest hfree.2)

end

mutual

/-- What survives of a value is no larger than the value. -/
theorem EachPart.surviving {limit : Nat} : {α : Type} → (schema : Schema α) → {x : α} →
    schema.EachPart (SizeWithin limit) x → schema.EachPart (SizeWithin limit) (schema.surviving x)
  | _, .uint _, _, _ => by
    simp only [EachPart, SizeWithin]
  | _, .array _ elem _, _, h => by
    simp only [EachPart, SizeWithin, Schema.surviving, true_and, List.forall_mem_map] at h ⊢
    exact fun x hx => EachPart.surviving elem (h x hx)
  | _, .vector _ elem, _, h => by
    simp only [EachPart, SizeWithin, Schema.surviving] at h ⊢
    split
    case isTrue => exact ⟨Nat.zero_le limit, nofun⟩
    case isFalse =>
      rw [List.length_map, List.forall_mem_map]
      exact ⟨h.1, fun x hx => EachPart.surviving elem (h.2 x hx)⟩
  | _, .map _ _ _ key value, _, h => by
    simp only [EachPart, SizeWithin, Schema.surviving] at h ⊢
    split
    case isTrue => exact ⟨Nat.zero_le limit, nofun⟩
    case isFalse =>
      -- Keys that become equal would make the map smaller, which does no harm here.
      refine ⟨Nat.le_trans Dict.size_ofEntries_le (by rw [List.length_map]; exact h.1), ?_⟩
      intro e he
      obtain ⟨e', he', rfl⟩ := List.mem_map.mp (Dict.subset_ofEntries he)
      obtain ⟨hk, hv⟩ := h.2 e' he'
      exact ⟨EachPart.surviving key hk, EachPart.surviving value hv⟩
  | _, .box _ content, _, h => by
    simp only [EachPart, SizeWithin, Schema.surviving, true_and] at h ⊢
    exact EachPart.surviving content h
  | _, .option _ content, _, h => by
    simp only [EachPart, SizeWithin, Schema.surviving, true_and] at h ⊢
    intro y hy
    obtain ⟨x, rfl, rfl⟩ := Option.map_eq_some_iff.mp hy
    exact EachPart.surviving content (h x rfl)
  | _, .record _ fields _ _, _, h => by
    simp only [EachPart, SizeWithin, Schema.surviving, true_and] at h ⊢
    exact Fields.EachPart.surviving fields h
  | _, .custom _, _, _ => by
    simp only [EachPart, SizeWithin]

/-- The default of an omitted field is on no wire, and so it is not asked for its size. -/
theorem Fields.EachPart.surviving {limit : Nat} : {α : Type} → (fields : Fields α) → {x : α} →
    fields.EachPart (SizeWithin limit) x → fields.EachPart (SizeWithin limit) (fields.surviving x)
  | _, .nil, _, _ => by
    simp only [Fields.EachPart]
  | _, .cons info schema rest, (_, _), h => by
    simp only [Fields.EachPart, Fields.surviving] at h ⊢
    refine ⟨fun hon => ?_, Fields.EachPart.surviving rest h.2⟩
    rw [if_neg hon]
    exact Schema.EachPart.surviving schema (h.1 hon)

end

/-! ## Collections -/

/-- How many elements or entries a vector or map has. -/
def count : {α : Type} → Schema α → α → Nat
  | _, .vector _ _, xs => xs.length
  | _, .map _ _ _ _ _, dict => dict.size
  | _, _, _ => 0

/-- Whether the type is that of a vector or map whose elements or entries take no bytes. -/
def weightlessItems : {α : Type} → Schema α → Bool
  | _, .vector _ elem => elem.weightless
  | _, .map _ _ _ key value => key.weightless && value.weightless
  | _, _ => false

/-- No entry takes the place of another one: keys that are written differ in what survives of
them. -/
theorem count_surviving {d : Directive} {shape : Shape} {b : Bytes} : {α : Type} →
    (schema : Schema α) → (x : α) → schema.HookFree → schema.resolve d = .ok shape →
    (schema.encode shape x).standalone = .ok b →
    schema.count (schema.surviving x) = if schema.weightlessItems then 0 else schema.count x
  | _, .vector _ elem, xs, _, _, _ => by
    rw [count, count, surviving, weightlessItems]
    split
    case isTrue => rfl
    case isFalse => rw [List.length_map]
  | _, .map _ _ _ key value, dict, hfree, hresolve, hencode => by
    obtain ⟨_, keyShape, valueShape, _, hkey, _, _, _, rfl⟩ := resolve_map.mp hresolve
    rw [encode] at hencode
    -- The forms of the keys are different, because the map has been written.
    obtain ⟨forms, sorted, _, hforms, hperm, hasc, _, _⟩ := entries_ok.mp hencode
    have hnodup : (forms.map EncodedEntry.key).Nodup :=
      (hperm.map EncodedEntry.key).nodup_iff.mp hasc.nodup
    -- Keys of which the same is left would be written alike.
    have hdetermined : Determined (key.encode keyShape) key.surviving :=
      (key.survives hfree.1 hkey).determined
    rw [count, count, surviving, weightlessItems]
    split
    case isTrue => rfl
    case isFalse =>
      rw [Dict.size, (entries_cleared_perm hdetermined hforms hnodup).length_eq, List.length_map,
        Dict.size]
  | _, .uint _, _, _, _, _ => by simp only [count, ite_self]
  | _, .array _ _ _, _, _, _, _ => by simp only [count, ite_self]
  | _, .box _ _, _, _, _, _ => by simp only [count, ite_self]
  | _, .option _ _, _, _, _, _ => by simp only [count, ite_self]
  | _, .record _ _ _ _, _, _, _, _ => by simp only [count, ite_self]
  | _, .custom _, _, _, _, _ => by simp only [count, ite_self]

/-- What a value without hooks is encoded to is decoded to what survives of it. So a collection
comes back with as many elements as it had, unless these take no bytes: then it comes back empty. -/
theorem unmarshalWith_surviving {schema : Schema α} {d : Directive} {config : Config} {x : α}
    {b : Bytes} (hfree : schema.HookFree) (hmarshal : schema.marshalWith d x = .ok b)
    (hsize : schema.EachPart (SizeWithin config.maxCollect) x) :
    schema.unmarshalWith d config b = .ok (b.length, schema.surviving x) ∧
      schema.count (schema.surviving x) =
        if schema.weightlessItems then 0 else schema.count x := by
  obtain ⟨shape, hresolve, hencode⟩ := marshalWith_ok.mp hmarshal
  -- What has been written is a form of the survivors, and a form is read back as what it is a form
  -- of.
  have hform : schema.WireForm shape (schema.surviving x) b :=
    (schema.survives hfree hresolve).forms x b trivial hencode
  have hwithin : schema.EachPart (SizeWithin config.maxCollect) (schema.surviving x) :=
    hsize.surviving schema
  have hrun : schema.unmarshalWith d config (b ++ []) = .ok (b.length, schema.surviving x) :=
    unmarshalWith_of_wireForm hresolve hform hwithin fun _ => rfl
  rw [List.append_nil] at hrun
  exact ⟨hrun, schema.count_surviving x hfree hresolve hencode⟩

/-- Two rows come back as two rows, without the marks that took no bytes in the first of them. -/
theorem unmarshalWith_surviving_rows :
    let mark : Schema Unit := .record "Mark" .nil fun _ => .ok ()
    let schema : Schema (List (BitVec 8 × List Unit × Unit)) :=
      .vector "Vec<Row>" (.record "Row"
        (.cons ⟨"tag", .default, "u8"⟩ (.uint .u8)
          (.cons ⟨"marks", .head 1, "Vec<Mark>"⟩ (.vector "Vec<Mark>" mark) .nil))
        fun _ => .ok ())
    let rows := [(7#8, [(), ()], ()), (8#8, [], ())]
    schema.marshalWith (.head 1) rows = .ok [4, 7, 0, 8, 0] ∧
      schema.unmarshalWith (.head 1) {} [4, 7, 0, 8, 0] =
        .ok (5, [(7#8, [], ()), (8#8, [], ())]) ∧
      schema.count (schema.surviving rows) = 2 := by
  intro mark schema rows
  have hfree : schema.HookFree := ⟨trivial, trivial, trivial⟩
  have hmarshal : schema.marshalWith (.head 1) rows = .ok [4, 7, 0, 8, 0] := by rfl
  have hsize : schema.EachPart (SizeWithin 0x1000000) rows := by
    simp [schema, rows, mark, EachPart, Fields.EachPart, SizeWithin]
  obtain ⟨hrun, hcount⟩ := unmarshalWith_surviving hfree hmarshal hsize
  exact ⟨hmarshal, hrun, hcount⟩

/-- The encoder does not refuse an element without bytes, and it is lost. -/
theorem marshalWith_loses_element :
    let schema : Schema (List Unit) :=
      .vector "Vec<Mark>" (.record "Mark" .nil fun _ => .ok ())
    schema.HookFree ∧ schema.EachPart (SizeWithin ({} : Config).maxCollect) [()] ∧
      schema.marshalWith (.head 1) [()] = .ok [0] ∧
      schema.unmarshalWith (.head 1) {} [0] = .ok (1, []) := by
  intro schema
  have hresolve : schema.resolve (.head 1) = .ok (.vector (.record .nil) (.fixed 1)) := rfl
  -- The head of no content, once as the form of a list without elements.
  have hform : schema.WireForm (.vector (.record .nil) (.fixed 1)) [] [0] :=
    .intro (.intro (h := [0]) (.fixed (by decide)) .nil)
  have hnone : schema.EachPart (SizeWithin ({} : Config).maxCollect) [] :=
    ⟨Nat.zero_le _, nofun⟩
  have hone : schema.EachPart (SizeWithin ({} : Config).maxCollect) [()] := by
    simp [schema, EachPart, Fields.EachPart, SizeWithin]
  exact ⟨trivial, hone, rfl, unmarshalWith_of_wireForm hresolve hform hnone nofun⟩

end Schema

end TlsWire
