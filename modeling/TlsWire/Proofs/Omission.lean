import TlsWire.Proofs.Decode.Success
import TlsWire.Proofs.Encode.EntryOrder
import TlsWire.Proofs.Parts
import TlsWire.Proofs.RoundTrip
import TlsWire.Proofs.Schema.Resolve

/-!
# Omitted fields

What is in an omitted field is seen by the order of map keys and by validations, and by nothing
else. It decides neither which bytes are written nor in which order: entries are sorted by the forms
of their keys, and two keys are the same to the encoder if these forms are (`Schema.encode_blind`).
Where a decoder comes to such a field there is nothing to read, and the field takes its default
(`Schema.decode_yields`).

`Schema.EqOnWire` is equality but for omitted fields, at any depth, and `Schema.OmittedAtDefault`
says of a record that its omitted fields hold their defaults. `Schema.omitted_invisible` puts both
directions together.
-/

namespace TlsWire

variable {α β κ : Type}

/-! ## Values that differ in omitted fields -/

namespace Schema

mutual

/-- Whether two values are equal except in omitted fields, and no validation tells them apart. The
entries of two maps correspond in any order, since it depends on all of a key. -/
def EqOnWire : {α : Type} → Schema α → α → α → Prop
  | _, .uint _, m, n => m = n
  | _, .array _ elem _, xs, ys => List.Forall₂ elem.EqOnWire xs.val ys.val
  | _, .vector _ elem, xs, ys => List.Forall₂ elem.EqOnWire xs ys
  | _, .map _ _ _ key value, dict, dict' =>
    ∃ es, List.Forall₂ (fun e e' => key.EqOnWire e.1 e'.1 ∧ value.EqOnWire e.2 e'.2)
      dict.entries es ∧ es.Perm dict'.entries
  | _, .box _ content, x, y => content.EqOnWire x y
  | _, .option _ content, x, y => Option.Rel content.EqOnWire x y
  | _, .record _ fields validate _, x, y =>
    (validate x = .ok () ↔ validate y = .ok ()) ∧ fields.EqOnWire x y
  | _, .custom _, x, y => x = y

/-- Whether the fields that are not omitted are equal in this way. -/
def Fields.EqOnWire : {α : Type} → Fields α → α → α → Prop
  | _, .nil, _, _ => True
  | _, .cons info schema rest, (x, xs), (y, ys) =>
    (info.directive ≠ .omit → schema.EqOnWire x y) ∧ rest.EqOnWire xs ys

end

/-- Whether all omitted fields hold their defaults. -/
def Fields.OmittedAtDefault : {α : Type} → Fields α → α → Prop
  | _, .nil, _ => True
  | _, .cons info schema rest, (x, xs) =>
    (info.directive = .omit → x = schema.default) ∧ rest.OmittedAtDefault xs

/-- Whether a record has its omitted fields at their defaults. -/
def OmittedAtDefault : {α : Type} → Schema α → α → Prop
  | _, .record _ fields _ _, x => fields.OmittedAtDefault x
  | _, _, _ => True

end Schema

/-! ## Encoding -/

namespace Encoder

/-- What is written for a value is written for every value that it is related to. -/
def Blind (R : α → α → Prop) (encode : α → Encoder Unit) : Prop :=
  ∀ x y b, R x y → (encode x).standalone = .ok b → (encode y).standalone = .ok b

/-- What is related only to itself is written alike. -/
theorem Blind.eq {encode : α → Encoder Unit} : Blind Eq encode := by
  rintro x _ b rfl hb
  exact hb

section Kinds

variable {type : String} {h : Head} {shape keyShape valueShape target : Shape} {R : α → α → Prop}

/-- Lists that correspond item by item are written alike, if their items are. -/
theorem Blind.each {encode : α → Encoder Unit} (hencode : Blind R encode)
    (happend : ∀ x, AppendsOnly (encode x)) : Blind (List.Forall₂ R) (each encode) := by
  intro xs ys b hxs hb
  exact (each_ok happend).mpr (((each_ok happend).mp hb).replace hxs hencode)

/-- The content is the same, so its length is, and the head. -/
theorem Blind.framed {content : α → Encoder Unit} (hcontent : Blind R content) :
    Blind R fun x => framed h (content x) := by
  intro x y b hxy hb
  obtain ⟨front, body, hbody, hfront, rfl⟩ := framed_ok.mp hb
  exact framed_ok.mpr ⟨front, body, hcontent x y body hxy hbody, hfront, rfl⟩

/-- The forms are the same, and so is their order. -/
theorem Blind.entries {K : κ → κ → Prop} {V : β → β → Prop} {key : κ → Encoder Unit}
    {value : β → Encoder Unit} (hkey : Blind K key) (hvalue : Blind V value) :
    Blind (List.Forall₂ fun e e' => K e.1 e'.1 ∧ V e.2 e'.2) (entries type h key value) := by
  intro es fs b hes hb
  obtain ⟨forms, sorted, front, hforms, hsorted, hasc, hfront, rfl⟩ := entries_ok.mp hb
  -- The forms of the one list are forms of the other one, entry by entry.
  have hforms' : List.Forall₂ (EncodedEntry.FormOf key value) fs forms :=
    EncodedEntry.forms_replace hforms hes fun _ _ _ he hform =>
      ⟨hkey _ _ _ he.1 hform.key, hvalue _ _ _ he.2 hform.value⟩
  exact entries_ok.mpr ⟨forms, sorted, front, hforms', hsorted, hasc, hfront, rfl⟩

/-- Both have a value or neither has, so the flag is the same. -/
theorem Blind.option {content : Shape → α → Encoder Unit}
    (hshape : shape = .optional target ∨ shape = .pointer target)
    (hcontent : Blind R (content target)) (happend : ∀ x, AppendsOnly (content target x)) :
    Blind (Option.Rel R) (ofOption type content shape) := by
  intro x y b hxy hb
  cases hxy with
  | none => exact hb
  | some hxy =>
    rcases hshape with rfl | rfl
    · obtain ⟨p, hp, rfl⟩ := (ofOption_some_ok (happend _)).mp hb
      exact (ofOption_some_ok (happend _)).mpr ⟨p, hcontent _ _ p hxy hp, rfl⟩
    · exact hcontent _ _ b hxy hb

/-- The validation lets both pass or neither, and then the fields are written. -/
theorem Blind.record {validate : α → Except String Unit} {shapes : Shape.Fields}
    {fields : Shape.Fields → α → Encoder Unit} (hfields : Blind R (fields shapes)) :
    Blind (fun x y => (validate x = .ok () ↔ validate y = .ok ()) ∧ R x y)
      (ofRecord type validate fields (.record shapes)) := by
  rintro x y b ⟨hvalidate, hxy⟩ hb
  obtain ⟨hvalid, hb⟩ := ofRecord_ok.mp hb
  exact ofRecord_ok.mpr ⟨hvalidate.mp hvalid, hfields x y b hxy hb⟩

end Kinds

end Encoder

namespace Schema

open Encoder

/-- A field on the wire is related, and the encoder does not come to an omitted one. -/
theorem Fields.blind_cons {info : FieldInfo} {schema : Schema α} {rest : Fields β}
    {shapes : Shape.Fields} (hresolve : (Fields.cons info schema rest).resolve = .ok shapes)
    (hfield : ∀ shape, schema.resolve info.directive = .ok shape →
      Blind schema.EqOnWire (schema.encode shape))
    (hrest : ∀ shapes, rest.resolve = .ok shapes → Blind rest.EqOnWire (rest.encode shapes)) :
    Blind (Fields.cons info schema rest).EqOnWire
      ((Fields.cons info schema rest).encode shapes) := by
  rintro ⟨x, xs⟩ ⟨y, ys⟩ b hxy hb
  rw [Fields.EqOnWire] at hxy
  rcases Fields.resolve_cons.mp hresolve with ⟨_, restShapes, hrestShapes, rfl⟩ |
    ⟨hon, shape, restShapes, hshape, hrestShapes, rfl⟩
  · -- The shape has nothing for the field, so neither of its values is looked at.
    rw [Fields.encode] at hb ⊢
    exact hrest restShapes hrestShapes xs ys b hxy.2 hb
  · obtain ⟨p, t, hp, ht, rfl⟩ := Fields.encode_present_ok.mp hb
    exact Fields.encode_present_ok.mpr ⟨p, t, hfield shape hshape x y p (hxy.1 hon) hp,
      hrest restShapes hrestShapes xs ys t hxy.2 ht, rfl⟩

mutual

/-- What is written does not depend on omitted fields. -/
theorem encode_blind : {α : Type} → (schema : Schema α) → {d : Directive} → {shape : Shape} →
    schema.resolve d = .ok shape → Blind schema.EqOnWire (schema.encode shape)
  | _, .uint _, _, _, _ => by
    simp only [EqOnWire, encode]
    exact .eq
  | _, .array _ elem _, _, _, hresolve => by
    obtain ⟨_, elemShape, helem, _, rfl⟩ := resolve_array.mp hresolve
    simp only [EqOnWire, encode, ofArray]
    exact fun xs ys b => Blind.each (encode_blind elem helem) (elem.encode_appendsOnly elemShape)
      xs.val ys.val b
  | _, .vector _ elem, _, _, hresolve => by
    obtain ⟨_, elemShape, _, helem, _, rfl⟩ := resolve_vector.mp hresolve
    simp only [EqOnWire, encode, ofVector]
    exact .framed (.each (encode_blind elem helem) (elem.encode_appendsOnly elemShape))
  | _, .map _ _ _ key value, _, _, hresolve => by
    obtain ⟨_, keyShape, valueShape, _, hkey, _, hvalue, _, rfl⟩ := resolve_map.mp hresolve
    simp only [EqOnWire, encode, ofMap]
    rintro dict dict' b ⟨es, hes, hperm⟩ hb
    -- First the entries change in place, then they come in another order.
    have hes : (entries _ _ _ _ es).standalone = .ok b :=
      Blind.entries (encode_blind key hkey) (encode_blind value hvalue) dict.entries es b hes hb
    -- The encoder sorts anyway, so the order that the entries come in is lost.
    exact entries_perm hperm hes
  | _, .box _ content, _, _, hresolve => by
    obtain ⟨_, target, hcontent, rfl⟩ := resolve_box.mp hresolve
    simp only [EqOnWire, encode, ofBox]
    exact encode_blind content hcontent
  | _, .option _ content, _, _, hresolve => by
    simp only [EqOnWire, encode]
    rcases resolve_option.mp hresolve with ⟨_, target, hcontent, rfl⟩ | ⟨_, target, hcontent, rfl⟩
    · exact .option (.inl rfl) (encode_blind content hcontent) (content.encode_appendsOnly target)
    · exact .option (.inr rfl) (encode_blind content hcontent) (content.encode_appendsOnly target)
  | _, .record _ fields _ _, _, _, hresolve => by
    obtain ⟨_, shapes, hfields, _, rfl⟩ := resolve_record.mp hresolve
    simp only [EqOnWire, encode]
    exact .record (Fields.encode_blind fields hfields)
  | _, .custom _, _, _, _ => by
    simp only [EqOnWire, encode]
    exact .eq

/-- By induction on the fields. -/
theorem Fields.encode_blind : {α : Type} → (fields : Fields α) → {shapes : Shape.Fields} →
    fields.resolve = .ok shapes → Blind fields.EqOnWire (fields.encode shapes)
  | _, .nil, _, _ => fun _ _ _ _ hb => hb
  | _, .cons _ schema rest, _, hresolve =>
    Fields.blind_cons hresolve (fun _ => Schema.encode_blind schema)
      (fun _ => Fields.encode_blind rest)

end

end Schema

/-! ## Decoding -/

namespace Decoder

/-- Whatever is decoded, in any context and from anywhere, has the property. -/
def Yields (P : α → Prop) (decode : Context → Decoder α) : Prop :=
  ∀ ctx c x c', decode ctx c = .ok x c' → P x

variable {type : String} {shape target : Shape} {head : Head} {P : α → Prop}

/-- What holds of everything that is decoded holds of the elements of an array. -/
theorem Yields.items {ctx : Context} {elem : Context → Decoder α} {c c' : Cursor} {as : List α}
    (helem : Yields P elem) (h : Items ctx elem c as c') : ∀ a ∈ as, P a := by
  induction h with
  | nil => exact nofun
  | cons hrun _ ih => exact List.forall_mem_cons.mpr ⟨helem _ _ _ _ hrun, ih⟩

/-- The same for elements behind a head. -/
theorem Yields.elements {ctx : Context} {elem : Context → Decoder α} {count : Nat} {c : Cursor}
    {as : List α} (helem : Yields P elem) (h : Elements ctx elem count c as) : ∀ a ∈ as, P a := by
  induction h with
  | nil => exact nofun
  | cons _ _ hrun _ _ ih => exact List.forall_mem_cons.mpr ⟨helem _ _ _ _ hrun, ih⟩

/-- All elements have the property. -/
theorem Yields.array {elem : Context → Shape → Decoder α} {length : Nat}
    (helem : Yields P fun ctx => elem ctx shape) :
    Yields (fun xs : Tuple α length => ∀ x ∈ xs.val, P x)
      fun ctx => ofArray type elem length ctx (.array shape length) := by
  intro ctx c xs c' h
  obtain ⟨_, ⟨⟩, hrun⟩ := ofArray_ok.mp h
  exact helem.items hrun

/-- All elements have the property, as many as there are. -/
theorem Yields.vector {elem : Context → Shape → Decoder α}
    (helem : Yields P fun ctx => elem ctx shape) :
    Yields (fun xs => ∀ x ∈ xs, P x) fun ctx => ofVector type elem ctx (.vector shape head) := by
  intro ctx c xs c' h
  obtain ⟨_, _, _, ⟨⟩, _, hrun⟩ := ofVector_ok.mp h
  exact helem.elements hrun

/-- Keys and values have their properties in every entry. -/
theorem Yields.map {order : KeyOrder κ} {kind : MapKind} {key : Context → Shape → Decoder κ}
    {value : Context → Shape → Decoder β} {keyShape valueShape : Shape} {Q : κ → Prop}
    {R : β → Prop} (hkey : Yields Q fun ctx => key ctx keyShape)
    (hvalue : Yields R fun ctx => value ctx valueShape) :
    Yields (fun dict : Dict order β => ∀ e ∈ dict.entries, Q e.1 ∧ R e.2)
      fun ctx => ofMap type kind.gatherer key value ctx (.map keyShape valueShape head) := by
  intro ctx c dict c' h
  obtain ⟨_, _, _, _, es, ⟨⟩, _, hrun, hperm⟩ := ofMap_ok.mp h
  have hentry : Yields (fun e : κ × β => Q e.1 ∧ R e.2)
      (entry (fun ctx => key ctx keyShape) fun ctx => value ctx valueShape) := by
    intro ctx c e c' h
    obtain ⟨c₁, hk, hv⟩ := entry_ok.mp h
    exact ⟨hkey _ _ _ _ hk, hvalue _ _ _ _ hv⟩
  -- The map has the entries that have been decoded, in another order.
  exact fun e he => hentry.elements hrun e (hperm.mem_iff.mpr he)

/-- What is behind a pointer has the property. -/
theorem Yields.box {content : Context → Shape → Decoder α}
    (hcontent : Yields P fun ctx => content ctx target) :
    Yields P fun ctx => ofBox type content ctx (.pointer target) := by
  intro ctx c x c' h
  obtain ⟨_, ⟨⟩, hrun⟩ := ofBox_ok.mp h
  exact hcontent _ _ _ _ hrun

/-- A value that is there has the property, with a flag or without. -/
theorem Yields.option {content : Context → Shape → Decoder α}
    (hshape : shape = .optional target ∨ shape = .pointer target)
    (hcontent : Yields P fun ctx => content ctx target) :
    Yields (fun x => ∀ y ∈ x, P y) fun ctx => ofOption type content ctx shape := by
  intro ctx c x c' h
  rcases ofOption_ok.mp h with ⟨_, _, rfl, _⟩ | ⟨_, y, _, rfl, rfl, _, hrun⟩ |
    ⟨_, y, rfl, rfl, hrun⟩
  · intro y hy
    cases hy
  · rcases hshape with ⟨⟨⟩⟩ | ⟨⟨⟩⟩
    rintro _ ⟨⟩
    exact hcontent _ _ _ _ hrun
  · rcases hshape with ⟨⟨⟩⟩ | ⟨⟨⟩⟩
    rintro _ ⟨⟩
    exact hcontent _ _ _ _ hrun

/-- A record is its fields. Decoding does not validate. -/
theorem Yields.record {fields : Context → Shape.Fields → Decoder α} {shapes : Shape.Fields}
    (hfields : Yields P fun ctx => fields ctx shapes) :
    Yields P fun ctx => ofRecord type fields ctx (.record shapes) := by
  intro ctx c x c' h
  obtain ⟨_, ⟨⟩, hrun⟩ := ofRecord_ok.mp h
  exact hfields _ _ _ _ hrun

end Decoder

namespace Schema

open Decoder

/-- An omitted field is set to its default, and a field on the wire is decoded. Only the latter is
a part that can have omitted fields of its own. -/
theorem Fields.yields_cons {info : FieldInfo} {schema : Schema α} {rest : Fields β}
    {shapes : Shape.Fields} (hresolve : (Fields.cons info schema rest).resolve = .ok shapes)
    (hfield : ∀ shape, schema.resolve info.directive = .ok shape →
      Yields (schema.EachPart Schema.OmittedAtDefault) fun ctx => schema.decode ctx shape)
    (hrest : ∀ shapes, rest.resolve = .ok shapes →
      Yields (fun xs => rest.OmittedAtDefault xs ∧ rest.EachPart Schema.OmittedAtDefault xs)
        fun ctx => rest.decode ctx shapes) :
    Yields (fun xs => (Fields.cons info schema rest).OmittedAtDefault xs ∧
        (Fields.cons info schema rest).EachPart Schema.OmittedAtDefault xs)
      fun ctx => (Fields.cons info schema rest).decode ctx shapes := by
  rintro ctx c ⟨x, xs⟩ c' h
  simp only [Fields.OmittedAtDefault, Fields.EachPart]
  -- The directive and the shape agree on whether the field is omitted.
  rcases Fields.resolve_cons.mp hresolve with ⟨homit, restShapes, hrestShapes, rfl⟩ |
    ⟨hon, shape, restShapes, hshape, hrestShapes, rfl⟩
  · rcases Fields.decode_ok.mp h with ⟨_, _, _, _, _, heq, _⟩ | ⟨_, _, _, heq, hdefault, hrun⟩
    · cases heq
    · cases heq
      obtain ⟨hdefaults, hparts⟩ := hrest restShapes hrestShapes _ _ _ _ hrun
      exact ⟨⟨fun _ => hdefault, hdefaults⟩, fun hon => absurd homit hon, hparts⟩
  · rcases Fields.decode_ok.mp h with ⟨_, _, _, _, _, heq, hx, hxs⟩ | ⟨_, _, _, heq, _⟩
    · cases heq
      obtain ⟨hdefaults, hparts⟩ := hrest restShapes hrestShapes _ _ _ _ hxs
      exact ⟨⟨fun homit => absurd homit hon, hdefaults⟩,
        fun _ => hfield shape hshape _ _ _ _ hx, hparts⟩
    · cases heq

mutual

/-- Whatever is decoded has its omitted fields at their defaults. -/
theorem decode_yields : {α : Type} → (schema : Schema α) → {d : Directive} → {shape : Shape} →
    schema.resolve d = .ok shape →
    Yields (schema.EachPart OmittedAtDefault) fun ctx => schema.decode ctx shape
  | _, .uint _, _, _, _ => fun _ _ _ _ _ => trivial
  | _, .array _ elem _, _, _, hresolve => by
    obtain ⟨_, elemShape, helem, _, rfl⟩ := resolve_array.mp hresolve
    simp only [decode, EachPart, OmittedAtDefault, true_and]
    exact .array (decode_yields elem helem)
  | _, .vector _ elem, _, _, hresolve => by
    obtain ⟨_, elemShape, _, helem, _, rfl⟩ := resolve_vector.mp hresolve
    simp only [decode, EachPart, OmittedAtDefault, true_and]
    exact .vector (decode_yields elem helem)
  | _, .map _ _ _ key value, _, _, hresolve => by
    obtain ⟨_, keyShape, valueShape, _, hkey, _, hvalue, _, rfl⟩ := resolve_map.mp hresolve
    simp only [decode, EachPart, OmittedAtDefault, true_and]
    exact .map (decode_yields key hkey) (decode_yields value hvalue)
  | _, .box _ content, _, _, hresolve => by
    obtain ⟨_, target, hcontent, rfl⟩ := resolve_box.mp hresolve
    simp only [decode, EachPart, OmittedAtDefault, true_and]
    exact .box (decode_yields content hcontent)
  | _, .option _ content, _, _, hresolve => by
    simp only [decode, EachPart, OmittedAtDefault, true_and]
    rcases resolve_option.mp hresolve with ⟨_, target, hcontent, rfl⟩ | ⟨_, target, hcontent, rfl⟩
    · exact .option (.inl rfl) (decode_yields content hcontent)
    · exact .option (.inr rfl) (decode_yields content hcontent)
  | _, .record _ fields _ _, _, _, hresolve => by
    obtain ⟨_, shapes, hfields, _, rfl⟩ := resolve_record.mp hresolve
    simp only [decode, EachPart, OmittedAtDefault]
    exact .record (Fields.decode_yields fields hfields)
  | _, .custom _, _, _, _ => fun _ _ _ _ _ => trivial

/-- By induction on the fields. -/
theorem Fields.decode_yields : {α : Type} → (fields : Fields α) → {shapes : Shape.Fields} →
    fields.resolve = .ok shapes →
    Yields (fun xs => fields.OmittedAtDefault xs ∧ fields.EachPart Schema.OmittedAtDefault xs)
      fun ctx => fields.decode ctx shapes
  | _, .nil, _, _ => fun _ _ _ _ _ => ⟨trivial, trivial⟩
  | _, .cons _ schema rest, _, hresolve =>
    Fields.yields_cons hresolve (fun _ => Schema.decode_yields schema)
      (fun _ => Fields.decode_yields rest)

end

/-- Two values that are equal except in omitted fields have the same form if one of them has any,
and a value that has been decoded has every omitted field at its default. -/
theorem omitted_invisible (schema : Schema α) (d : Directive) :
    (∀ x y b, schema.EqOnWire x y → schema.marshalWith d x = .ok b →
      schema.marshalWith d y = .ok b) ∧
    ∀ config data n x, schema.unmarshalWith d config data = .ok (n, x) →
      schema.EachPart OmittedAtDefault x := by
  refine ⟨fun x y b hxy hb => ?_, fun config data n x h => ?_⟩
  · obtain ⟨shape, hresolve, hencode⟩ := marshalWith_ok.mp hb
    exact marshalWith_ok.mpr ⟨shape, hresolve, schema.encode_blind hresolve x y b hxy hencode⟩
  · obtain ⟨shape, hresolve⟩ := resolve_of_unmarshalWith h
    obtain ⟨c, hrun, _⟩ := (unmarshalWith_ok hresolve).mp h
    exact schema.decode_yields hresolve _ _ _ _ hrun

/-- Two maps whose keys are in different orders because of a field that is omitted. The order on the
wire is that of what is written of the keys. -/
theorem omitted_invisible_keys :
    let key : Schema (BitVec 8 × BitVec 8 × Unit) :=
      .record "Key"
        (.cons ⟨"seen", .omit, "u8"⟩ (.uint .u8) (.cons ⟨"tag", .default, "u8"⟩ (.uint .u8) .nil))
        fun _ => .ok ()
    let schema : Schema (Dict key.order (BitVec 8)) :=
      .map "BTreeMap<Key, u8>" .ordered key.order key (.uint .u8)
    let x : Dict key.order (BitVec 8) := .ofEntries [((0, 2, ()), 6), ((9, 1, ()), 5)]
    let y : Dict key.order (BitVec 8) := .ofEntries [((0, 1, ()), 5), ((7, 2, ()), 6)]
    let z : Dict key.order (BitVec 8) := .ofEntries [((0, 1, ()), 5), ((0, 2, ()), 6)]
    schema.marshalWith (.head 1) x = .ok [4, 1, 5, 2, 6] ∧
      schema.marshalWith (.head 1) y = .ok [4, 1, 5, 2, 6] ∧
      schema.unmarshalWith (.head 1) {} [4, 1, 5, 2, 6] = .ok (5, z) ∧
      schema.EachPart OmittedAtDefault z := by
  intro key schema x y z
  have hx : x.entries = [((0, 2, ()), 6), ((9, 1, ()), 5)] := rfl
  have hy : y.entries = [((0, 1, ()), 5), ((7, 2, ()), 6)] := rfl
  -- The entries of the one map correspond to those of the other one, in the opposite order.
  have hxy : schema.EqOnWire x y := by
    simp only [schema, key, EqOnWire, Fields.EqOnWire, hx, hy]
    refine ⟨[((7, 2, ()), 6), ((0, 1, ()), 5)], .cons ?_ (.cons ?_ .nil), .swap _ _ _⟩
    · exact ⟨⟨trivial, nofun, fun _ => rfl, trivial⟩, rfl⟩
    · exact ⟨⟨trivial, nofun, fun _ => rfl, trivial⟩, rfl⟩
  have hmarshal : schema.marshalWith (.head 1) x = .ok [4, 1, 5, 2, 6] := by
    let keyShape : Shape :=
      .record (.absent "seen" .omit (.present "tag" .default (.integer 8) .nil))
    -- The larger key of the map has the smaller form.
    have hforms : List.Forall₂
        (EncodedEntry.FormOf (key.encode keyShape) ((uint .u8).encode (.integer 8))) x.entries
        [⟨[2], [6]⟩, ⟨[1], [5]⟩] :=
      .cons ⟨rfl, rfl⟩ (.cons ⟨rfl, rfl⟩ .nil)
    have hascending : EncodedEntry.Ascending [⟨[1], [5]⟩, ⟨[2], [6]⟩] :=
      List.pairwise_pair.mpr (by decide)
    exact marshalWith_ok.mpr ⟨.map keyShape (.integer 8) (.fixed 1), rfl,
      Encoder.entries_ok.mpr ⟨_, _, [4], hforms, .swap _ _ _, hascending, rfl, rfl⟩⟩
  have hunmarshal : schema.unmarshalWith (.head 1) {} [4, 1, 5, 2, 6] = .ok (5, z) := by
    have hrun : (schema.unmarshalWith (.head 1) {} [4, 1, 5, 2, 6]).map
        (fun r => (r.1, r.2.entries)) = .ok (5, z.entries) := by
      simp only [schema, z, key]
      decide +kernel
    -- A map is its entries, so it is enough to look at them.
    obtain ⟨⟨n, z'⟩, hok, heq⟩ := Except.map_ok.mp hrun
    obtain ⟨rfl, hentries⟩ := Prod.mk.inj heq
    rw [hok, Dict.ext hentries]
  obtain ⟨hsame, hdefaults⟩ := omitted_invisible schema (.head 1)
  exact ⟨hmarshal, hsame x y _ hxy hmarshal, hunmarshal, hdefaults _ _ _ _ hunmarshal⟩

/-- An omitted field takes the default that its own type states, here the largest limit. -/
example :
    let limit : Schema (BitVec 8 × Unit) :=
      .record "Limit" (.cons ⟨"most", .default, "u8"⟩ (.uint .u8) .nil) (fun _ => .ok ())
        (some (255, ()))
    let schema : Schema ((BitVec 8 × Unit) × BitVec 8 × Unit) :=
      .record "Hello"
        (.cons ⟨"limit", .omit, "Limit"⟩ limit (.cons ⟨"id", .default, "u8"⟩ (.uint .u8) .nil))
        fun _ => .ok ()
    schema.unmarshalWith .default {} [7] = .ok (1, ((255, ()), 7, ())) := rfl

end Schema

end TlsWire
