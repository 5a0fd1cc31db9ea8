import TlsWire.Proofs.Components
import TlsWire.Proofs.Encode.EntryOrder
import TlsWire.Proofs.Encode.Forms
import TlsWire.Proofs.WireForm.Shrink

/-!
# Which values can be written

A value is written exactly when every component that goes on the wire is `Sendable`
(`Schema.encode_verdict`, `Schema.marshalWith_succeeds_iff`), and otherwise an error about the value
comes out. `Verdict cond outcome` is this dichotomy for a single outcome: there is one rule for
steps in a row (`Verdict.bind`) and one for each way of building an encoder, each with the condition
that its own step adds.
-/

namespace TlsWire

variable {α β κ : Type}

/-- Errors that a value can be at fault for. The others are about directives and shapes. -/
def EncodeError.OfValue : EncodeError → Prop
  | .invalidDirective _ | .shapeMismatch _ _ | .missingField _ => False
  | _ => True

/-- The outcome is a success where the condition holds, and otherwise an error about the value. -/
inductive Verdict (cond : Prop) : Except EncodeError α → Prop where
  | ok {x : α} (holds : cond) : Verdict cond (.ok x)
  | error {e : EncodeError} (fails : ¬ cond) (ofValue : e.OfValue) : Verdict cond (.error e)

namespace Verdict

variable {cond cond' : Prop} {r : Except EncodeError α} {e : EncodeError}

/-- Whether there is a result is decided by the condition alone. -/
theorem succeeds_iff (h : Verdict cond r) : (∃ x, r = .ok x) ↔ cond := by
  cases h with
  | ok holds => exact ⟨fun _ => holds, fun _ => ⟨_, rfl⟩⟩
  | error fails _ => exact ⟨nofun, fun holds => absurd holds fails⟩

/-- An error that has a verdict is about the value. -/
theorem ofValue_of_error (h : Verdict cond (.error e : Except EncodeError α)) : e.OfValue := by
  cases h with
  | error _ ofValue => exact ofValue

/-- The condition may be put in another way. -/
theorem congr (h : Verdict cond r) (hiff : cond ↔ cond') : Verdict cond' r := by
  rwa [← hiff]

/-- The second step is only asked where the first one has succeeded. -/
theorem bind {f : α → Except EncodeError β} (h : Verdict cond r)
    (hf : ∀ x, r = .ok x → Verdict cond' (f x)) : Verdict (cond ∧ cond') (r >>= f) := by
  cases h with
  | error fails ofValue => exact .error (fun hboth => fails hboth.1) ofValue
  | @ok x holds =>
    refine (hf x rfl).congr ?_
    rw [and_iff_right holds]

/-- What is done with a result does not decide whether there is one. -/
theorem bind_pure {f : α → β} (h : Verdict cond r) :
    Verdict cond (r >>= fun x => pure (f x)) := by
  have hpure : ∀ x, r = .ok x → Verdict True (pure (f x) : Except EncodeError β) :=
    fun _ _ => .ok trivial
  exact (h.bind hpure).congr (and_iff_left trivial)

end Verdict

/-- Every byte more multiplies the range by 256. -/
theorem byteRange_eq_two_pow (width : Nat) : byteRange width = 2 ^ (8 * width) := by
  induction width with
  | zero => rfl
  | succ width ih => rw [byteRange, ih, Nat.mul_add, Nat.pow_add]

/-- Pieces of known lengths add up. -/
theorem Pieces.length_eq {form : α → Bytes → Prop} {length : α → Nat} {xs : List α} {b : Bytes}
    (h : Pieces form xs b) (hform : ∀ x ∈ xs, ∀ p, form x p → p.length = length x) :
    b.length = (xs.map length).sum := by
  induction h with
  | nil => rfl
  | @cons x xs p b head _ ih =>
    have hp : p.length = length x := hform x List.mem_cons_self p head
    have htail := ih fun y hy => hform y (List.mem_cons_of_mem _ hy)
    rw [List.length_append, List.map_cons, List.sum_cons, hp, htail]

namespace Encoder

open EncodedEntry

variable {cond cond' : Prop}

/-! ## One after another -/

/-- The second encoder starts behind what the first one has written, and only appends to it. So it
can be judged on its own. -/
theorem bind_verdict {d e : Encoder Unit} (happend : AppendsOnly e)
    (hd : Verdict cond d.standalone) (he : Verdict cond' e.standalone) :
    Verdict (cond ∧ cond') (d >>= fun _ => e).standalone := by
  rw [standalone_bind happend]
  exact hd.bind fun _ _ => he.bind_pure

/-- All elements can be written exactly when each of them can. -/
theorem each_verdict {encode : α → Encoder Unit} {p : α → Prop} {xs : List α}
    (happend : ∀ x, AppendsOnly (encode x)) (h : ∀ x ∈ xs, Verdict (p x) (encode x).standalone) :
    Verdict (∀ x ∈ xs, p x) (each encode xs).standalone := by
  induction xs with
  | nil => exact .ok nofun
  | cons x xs ih =>
    have hx : Verdict (p x) (encode x).standalone := h x List.mem_cons_self
    have hxs := ih fun y hy => h y (List.mem_cons_of_mem _ hy)
    rw [each]
    exact (bind_verdict (.each happend xs) hx hxs).congr List.forall_mem_cons.symm

/-! ## Heads -/

section Heads

variable {d : Directive} {h : Head}

/-- Numbers that fit the width are written. The verdict is for heads and integers of at most eight
bytes, where the largest number is not cut off. -/
theorem uint_verdict {width : Nat} (hwidth : width ≤ 8) (n : Nat) :
    Verdict (n < byteRange width) (uint width n).standalone := by
  have hmax : Uint.max width = byteRange width - 1 := by rw [Uint.max, Nat.min_eq_left hwidth]
  have hpos : 0 < byteRange width := byteRange_pos width
  rw [uint, standalone_emit]
  -- The largest number that is written and the first one that is not are next to each other.
  cases hencode : Uint.encode width n with
  | ok b =>
    obtain ⟨hle, _⟩ := Uint.encode_eq_ok.mp hencode
    exact .ok (by omega)
  | error o =>
    obtain ⟨hlt, _⟩ := Uint.encode_eq_error.mp hencode
    exact .error (by omega) trivial

/-- Varints end two bits before a word does, since the two bits tell the class. -/
theorem varint_verdict (n : Nat) : Verdict (n < 2 ^ 62) (varint n).standalone := by
  have hmax : Varint.max = 2 ^ 62 - 1 := by decide
  rw [varint, standalone_emit]
  cases hencode : Varint.encode n with
  | ok b =>
    have hle : n ≤ Varint.max := (Varint.form_of_encode hencode).le_max
    exact .ok (by omega)
  | error o =>
    obtain ⟨hlt, _⟩ := Varint.encode_eq_error.mp hencode
    exact .error (by omega) trivial

/-- A head can be written if the length of the content fits into it. Without one any length does.
-/
theorem head_verdict (hhead : d.head? = some h) (length : Nat) :
    Verdict (h.Admits length) (head h length).standalone := by
  cases h with
  | fixed width =>
    have hnarrow : width ≤ 8 := Directive.narrow_of_head? hhead
    have hpos : 0 < 2 ^ (8 * width) := Nat.two_pow_pos _
    rw [head]
    -- A head of a fixed width is a number of at most three bytes.
    refine (uint_verdict hnarrow length).congr ?_
    rw [byteRange_eq_two_pow, Head.Admits]
    omega
  | varint =>
    rw [head]
    refine (varint_verdict length).congr ?_
    rw [Head.Admits]
    omega
  | unbounded => exact .ok trivial

/-- The directive selects one head, so that it makes no difference whether it is named or
quantified. -/
theorem admits_iff (hhead : d.head? = some h) {length : Nat} :
    h.Admits length ↔ ∀ head, d.head? = some head → head.Admits length := by
  constructor
  · intro hadmits head heq
    rw [hhead] at heq
    cases heq
    exact hadmits
  · intro hall
    exact hall h hhead

/-- The head is asked for the length that the content has if there is content. -/
theorem framed_verdict {content : Encoder Unit} {length : Nat} (hhead : d.head? = some h)
    (hcontent : Verdict cond content.standalone)
    (hlength : ∀ b, content.standalone = .ok b → b.length = length) :
    Verdict (cond ∧ h.Admits length) (framed h content).standalone := by
  rw [standalone_framed]
  refine hcontent.bind fun body hbody => ?_
  -- The length is known from the value, without looking at what has been written.
  rw [hlength body hbody]
  exact (head_verdict hhead length).bind_pure

end Heads

/-! ## Entries -/

section Entries

variable {type : String} {d : Directive} {h : Head} {key : κ → Encoder Unit}
  {value : β → Encoder Unit} {es : List (κ × β)} {forms : List EncodedEntry}
  {pk : κ → Prop} {pv : β → Prop}

/-- Entries are encoded key by key and value by value, and the first failure counts. -/
theorem ofEntries_verdict (hkey : ∀ k, Verdict (pk k) (key k).standalone)
    (hvalue : ∀ v, Verdict (pv v) (value v).standalone) :
    Verdict (∀ e ∈ es, pk e.1 ∧ pv e.2) (ofEntries key value es) := by
  induction es with
  | nil => exact .ok nofun
  | cons e es ih =>
    rw [ofEntries]
    refine ((hkey e.1).bind fun _ _ => (hvalue e.2).bind fun _ _ => ih.bind_pure).congr ?_
    rw [List.forall_mem_cons, and_assoc]

/-- That no two keys have the same form can be said of every pair of entries. -/
theorem not_keysCollide_iff :
    ¬ KeysCollide key es ↔ es.Pairwise fun a b =>
      ¬ ∃ form, (key a.1).standalone = .ok form ∧ (key b.1).standalone = .ok form := by
  -- Two entries in a row of entries are a sublist of length two.
  rw [List.pairwise_iff_forall_sublist]
  constructor
  · intro hnone a b hsub hsame
    exact hnone ⟨a, b, hsub, hsame⟩
  · intro hdiffer hcollide
    obtain ⟨a, b, hsub, hsame⟩ := hcollide
    exact hdiffer hsub hsame

/-- Once all entries have forms, only two equal forms of keys keep them from being arranged. -/
theorem arrange_verdict (hforms : List.Forall₂ (FormOf key value) es forms) :
    Verdict (¬ KeysCollide key es) (arrange type forms) := by
  have hcollide : KeysCollide key es ↔ ¬ (forms.map EncodedEntry.key).Nodup :=
    keysCollide_iff hforms
  cases harrange : arrange type forms with
  | ok sorted =>
    obtain ⟨hperm, hasc⟩ := arrange_ok.mp harrange
    have hnodup : (forms.map EncodedEntry.key).Nodup := (hperm.map _).nodup_iff.mp hasc.nodup
    exact .ok fun hc => hcollide.mp hc hnodup
  | error err =>
    obtain ⟨rfl, hrepeated⟩ := arrange_error.mp harrange
    exact .error (not_not_intro (hcollide.mpr hrepeated)) trivial

/-- Arranging entries does not change how much room they take. -/
theorem length_arranged {lk : κ → Nat} {lv : β → Nat} {sorted : List EncodedEntry}
    (hforms : List.Forall₂ (FormOf key value) es forms) (hperm : sorted.Perm forms)
    (hk : ∀ k b, (key k).standalone = .ok b → b.length = lk k)
    (hv : ∀ v b, (value v).standalone = .ok b → b.length = lv v) :
    (sorted.flatMap EncodedEntry.bytes).length = (es.map fun e => lk e.1 + lv e.2).sum := by
  -- The length does not depend on the order, so it is counted in the order of the entries.
  rw [(hperm.flatMap_right EncodedEntry.bytes).length_eq]
  refine (pieces_flatMap hforms).length_eq ?_
  intro e _ p hp
  obtain ⟨f, hform, rfl⟩ := hp
  rw [EncodedEntry.bytes, List.length_append, hk e.1 _ hform.key, hv e.2 _ hform.value]

/-- Entries are written if all keys and values can be, if no two keys have the same form, and if
what comes out fits the head. Each condition is asked only where the ones before it hold. -/
theorem entries_verdict {lk : κ → Nat} {lv : β → Nat} (hhead : d.head? = some h)
    (hkey : ∀ k, Verdict (pk k) (key k).standalone)
    (hvalue : ∀ v, Verdict (pv v) (value v).standalone)
    (hk : ∀ k b, (key k).standalone = .ok b → b.length = lk k)
    (hv : ∀ v b, (value v).standalone = .ok b → b.length = lv v) :
    Verdict ((∀ e ∈ es, pk e.1 ∧ pv e.2) ∧ ¬ KeysCollide key es ∧
        h.Admits (es.map fun e => lk e.1 + lv e.2).sum)
      (entries type h key value es).standalone := by
  rw [standalone_entries]
  refine (ofEntries_verdict hkey hvalue).bind fun forms hrun => ?_
  have hforms : List.Forall₂ (FormOf key value) es forms := ofEntries_ok.mp hrun
  refine (arrange_verdict hforms).bind fun sorted hsorted => ?_
  obtain ⟨hperm, _⟩ := arrange_ok.mp hsorted
  -- The forms are there, so nothing but their length is left to ask.
  have hcontent : Verdict True (append (sorted.flatMap EncodedEntry.bytes)).standalone := by
    rw [standalone_append]
    exact .ok trivial
  refine (framed_verdict hhead hcontent fun b hb => ?_).congr (and_iff_right trivial)
  rw [standalone_append] at hb
  cases hb
  exact length_arranged hforms hperm hk hv

end Entries

end Encoder

/-! ## Kinds of types -/

namespace Schema

open Encoder Component

/-- The length of a form is what the encoder makes of the value on its own. -/
theorem length_formLength {schema : Schema α} {shape : Shape}
    (hresolve : schema.resolve .default = .ok shape) (x : α) (b : Bytes)
    (hb : (schema.encode shape x).standalone = .ok b) : b.length = schema.formLength x := by
  rw [formLength, marshal_eq hresolve, hb]

/-- The verdict on every value of a type that has resolved. -/
abbrev Judged (schema : Schema α) (d : Directive) (shape : Shape) : Prop :=
  ∀ x, Verdict (Throughout Sendable ⟨schema, d, x⟩) (schema.encode shape x).standalone

/-- The verdict on the fields of every record. -/
abbrev Fields.Judged (fields : Fields α) (shapes : Shape.Fields) : Prop :=
  ∀ x, Verdict (∀ c, fields.Part x c → c.Throughout Sendable) (fields.encode shapes x).standalone

section Kinds

variable {type : String} {d : Directive} {shape keyShape valueShape : Shape} {head : Head}

/-- An integer can always be written. A varint can be if it is in the range of varints. -/
theorem uint_judged {t : UintType} (hresolve : (Schema.uint t).resolve d = .ok shape) :
    (Schema.uint t).Judged d shape := by
  intro n
  rw [encode, throughout_uint]
  rcases resolve_uint.mp hresolve with ⟨rfl, rfl⟩ | ⟨rfl, rfl⟩
  · -- Every number of the type has a form in the width of the type.
    have hroom : n.toNat < byteRange t.bytes := by
      rw [byteRange_eq_two_pow]
      exact n.isLt
    have hwidth : t.bytes ≤ 8 := by cases t <;> decide
    rw [ofUint]
    exact (uint_verdict hwidth n.toNat).congr ⟨fun _ hd => (by cases hd), fun _ => hroom⟩
  · rw [ofUint]
    exact (varint_verdict n.toNat).congr ⟨fun h _ => h, fun h => h rfl⟩

/-- An array adds no condition to those of its elements. -/
theorem array_judged {elem : Schema α} {length : Nat} (helem : elem.Judged .default shape) :
    (Schema.array type elem length).Judged d (.array shape length) := by
  intro xs
  rw [encode, ofArray, throughout_array]
  exact each_verdict (elem.encode_appendsOnly shape) fun x _ => helem x

/-- A vector adds one condition to those of its elements: together they fit the head. -/
theorem vector_judged {elem : Schema α} (hresolve : elem.resolve .default = .ok shape)
    (helem : elem.Judged .default shape) (hhead : d.head? = some head) :
    (Schema.vector type elem).Judged d (.vector shape head) := by
  intro xs
  have hcontent : Verdict (∀ x ∈ xs, Throughout Sendable ⟨elem, .default, x⟩)
      (each (elem.encode shape) xs).standalone :=
    each_verdict (elem.encode_appendsOnly shape) fun x _ => helem x
  -- The length of the content is the sum of what the elements take.
  have hlength : ∀ b, (each (elem.encode shape) xs).standalone = .ok b →
      b.length = (xs.map elem.formLength).sum := by
    intro b hb
    have hpieces := (each_ok (elem.encode_appendsOnly shape)).mp hb
    exact hpieces.length_eq fun x _ => length_formLength hresolve x
  rw [encode, ofVector, throughout_vector]
  refine (framed_verdict hhead hcontent hlength).congr (and_congr_right fun _ => ?_)
  exact admits_iff hhead

/-- A map adds two conditions: no two keys have the same form, and the content fits the head. -/
theorem map_judged {kind : MapKind} {order : KeyOrder κ} {key : Schema κ} {value : Schema β}
    (hresolveKey : key.resolve .default = .ok keyShape) (hkey : key.Judged .default keyShape)
    (hresolveValue : value.resolve .default = .ok valueShape)
    (hvalue : value.Judged .default valueShape) (hhead : d.head? = some head) :
    (Schema.map type kind order key value).Judged d (.map keyShape valueShape head) := by
  intro dict
  rw [encode, ofMap, throughout_map]
  refine (entries_verdict hhead hkey hvalue (length_formLength hresolveKey)
    (length_formLength hresolveValue)).congr ?_
  refine and_congr_right fun _ => ?_
  rw [Writable, not_keysCollide_iff]
  simp only [marshal_eq hresolveKey]
  exact and_congr_right fun _ => admits_iff hhead

/-- A pointer adds no condition to those of its target. -/
theorem box_judged {content : Schema α} (hcontent : content.Judged d shape) :
    (Schema.box type content).Judged d (.pointer shape) := by
  intro x
  rw [encode, ofBox, throughout_box]
  exact hcontent x

/-- With a flag both are written, and the content must be if it is there. -/
theorem option_judged_optional {content : Schema α} (hcontent : content.Judged .default shape) :
    (Schema.option type content).Judged .optional (.optional shape) := by
  intro x
  rw [encode]
  cases x with
  | none =>
    rw [throughout_none, ofOption, standalone_append]
    exact .ok rfl
  | some x =>
    rw [throughout_some, if_pos rfl, ofOption]
    have hflag : Verdict True (append [1]).standalone := by
      rw [standalone_append]
      exact .ok trivial
    have happend := content.encode_appendsOnly shape x
    exact (bind_verdict happend hflag (hcontent x)).congr (and_iff_right trivial)

/-- Without a flag only something can be written. -/
theorem option_judged_pointer {content : Schema α} (hd : d ≠ .optional)
    (hcontent : content.Judged d shape) :
    (Schema.option type content).Judged d (.pointer shape) := by
  intro x
  rw [encode]
  cases x with
  | none =>
    rw [throughout_none, ofOption, standalone_throw]
    exact .error hd trivial
  | some x =>
    rw [throughout_some, if_neg hd, ofOption]
    exact hcontent x

/-- A record is asked for its own opinion first, and then its fields are. -/
theorem record_judged {fields : Fields α} {validate : α → Except String Unit}
    {placeholder : Option α} {shapes : Shape.Fields} (hfields : fields.Judged shapes) :
    (Schema.record type fields validate placeholder).Judged d (.record shapes) := by
  intro x
  rw [encode, ofRecord, throughout_record]
  cases hvalidate : validate x with
  | error reason => exact .error (fun h => by cases h.1) trivial
  | ok u => exact (hfields x).congr (and_iff_right rfl).symm

/-- A hook is asked whether it accepts the value, and then has to come up with bytes. -/
theorem custom_judged {hook : Hook α} : (Schema.custom hook).Judged d .custom := by
  intro x
  rw [encode, ofHook, throughout_custom]
  cases hvalidate : hook.validate x with
  | error reason => exact .error (fun h => by cases h.1) trivial
  | ok u =>
    show Verdict _ (emit ((hook.encode x).mapError (.hookFailed hook.type))).standalone
    rw [standalone_emit]
    cases hencode : hook.encode x with
    | error reason =>
      refine .error (fun h => ?_) trivial
      obtain ⟨_, b, hb⟩ := h
      cases hb
    | ok b => exact .ok ⟨rfl, b, rfl⟩

/-- Without fields there is nothing that could not be written. -/
theorem Fields.nil_judged {shapes : Shape.Fields} : Fields.nil.Judged shapes := by
  intro x
  rw [Fields.encode, standalone_pure]
  exact .ok nofun

/-- An omitted field is no component that goes on the wire, so it adds no condition. -/
theorem Fields.absent_judged {info : FieldInfo} {schema : Schema α} {rest : Fields β}
    {shapes : Shape.Fields} (homit : info.directive = .omit) (hrest : rest.Judged shapes) :
    (Fields.cons info schema rest).Judged (.absent info.name info.directive shapes) := by
  intro x
  obtain ⟨x, xs⟩ := x
  rw [Fields.encode]
  refine (hrest xs).congr ⟨fun h c hc => ?_, fun h c hc => h c (.inr hc)⟩
  -- A component on the wire is never in the omitted field.
  cases hc with
  | inl hfield => exact absurd homit hfield.1
  | inr hrest => exact h c hrest

/-- A field on the wire adds the conditions of its own components to those of the other fields. -/
theorem Fields.present_judged {info : FieldInfo} {schema : Schema α} {rest : Fields β}
    {shapes : Shape.Fields} (hon : info.directive ≠ .omit)
    (hfield : schema.Judged info.directive shape) (hrest : rest.Judged shapes) :
    (Fields.cons info schema rest).Judged (.present info.name info.directive shape shapes) := by
  intro x
  obtain ⟨x, xs⟩ := x
  rw [Fields.encode]
  refine (bind_verdict (rest.encode_appendsOnly shapes xs) (hfield x) (hrest xs)).congr ?_
  constructor
  · intro h c hc
    cases hc with
    | inl hfield => exact hfield.2 ▸ h.1
    | inr hrest => exact h.2 c hrest
  · intro h
    exact ⟨h _ (.inl ⟨hon, rfl⟩), fun c hc => h c (.inr hc)⟩

end Kinds

/-! ## All types -/

mutual

/-- A value is written if all that goes on the wire can be, and otherwise it is at fault. -/
theorem encode_verdict : {α : Type} → (schema : Schema α) → {d : Directive} → {shape : Shape} →
    schema.resolve d = .ok shape → schema.Judged d shape
  | _, .uint _, _, _, hresolve => uint_judged hresolve
  | _, .array _ elem _, _, _, hresolve => by
    obtain ⟨_, elemShape, helem, _, rfl⟩ := resolve_array.mp hresolve
    exact array_judged (encode_verdict elem helem)
  | _, .vector _ elem, _, _, hresolve => by
    obtain ⟨head, elemShape, hhead, helem, _, rfl⟩ := resolve_vector.mp hresolve
    exact vector_judged helem (encode_verdict elem helem) hhead
  | _, .map _ _ _ key value, _, _, hresolve => by
    obtain ⟨head, keyShape, valueShape, hhead, hkey, _, hvalue, _, rfl⟩ := resolve_map.mp hresolve
    exact map_judged hkey (encode_verdict key hkey) hvalue (encode_verdict value hvalue) hhead
  | _, .box _ content, _, _, hresolve => by
    obtain ⟨_, target, hcontent, rfl⟩ := resolve_box.mp hresolve
    exact box_judged (encode_verdict content hcontent)
  | _, .option _ content, _, _, hresolve => by
    rcases resolve_option.mp hresolve with
      ⟨rfl, target, hcontent, rfl⟩ | ⟨hd, target, hcontent, rfl⟩
    · exact option_judged_optional (encode_verdict content hcontent)
    · exact option_judged_pointer hd (encode_verdict content hcontent)
  | _, .record _ fields _ _, _, _, hresolve => by
    obtain ⟨_, shapes, hfields, _, rfl⟩ := resolve_record.mp hresolve
    exact record_judged (Fields.encode_verdict fields hfields)
  | _, .custom _, _, _, hresolve => by
    obtain ⟨_, rfl⟩ := resolve_custom.mp hresolve
    exact custom_judged

/-- Field by field. Whether a field is on the wire is decided by its directive. -/
theorem Fields.encode_verdict : {α : Type} → (fields : Fields α) → {shapes : Shape.Fields} →
    fields.resolve = .ok shapes → fields.Judged shapes
  | _, .nil, _, _ => Fields.nil_judged
  | _, .cons _ schema rest, _, hresolve => by
    rcases Fields.resolve_cons.mp hresolve with
      ⟨homit, restShapes, hrest, rfl⟩ | ⟨hon, shape, restShapes, hshape, hrest, rfl⟩
    · exact Fields.absent_judged homit (Fields.encode_verdict rest hrest)
    · exact Fields.present_judged hon (encode_verdict schema hshape)
        (Fields.encode_verdict rest hrest)

end

/-- Success as one equivalence. The directive is the only thing besides the components that
matters. -/
theorem exists_marshalWith_iff {schema : Schema α} {d : Directive} {x : α} :
    (∃ b, schema.marshalWith d x = .ok b) ↔
      (∃ shape, schema.resolve d = .ok shape) ∧ ∀ c, OnWire ⟨schema, d, x⟩ c → c.Sendable := by
  rw [marshalWith]
  cases hresolve : schema.resolve d with
  | error e =>
    constructor
    · intro h
      obtain ⟨b, hb⟩ := h
      cases hb
    · intro h
      obtain ⟨⟨shape, hshape⟩, _⟩ := h
      cases hshape
  | ok shape =>
    have hiff := (encode_verdict schema hresolve x).succeeds_iff
    exact hiff.trans (and_iff_right ⟨shape, rfl⟩).symm

/-- A type that always fails to be written cannot be sent as a part of anything. -/
theorem marshalWith_broken {schema : Schema α} {d d' : Directive} {x : α}
    (h : OnWire ⟨schema, d, x⟩ ⟨.custom .broken, d', ()⟩) (b : Bytes) :
    schema.marshalWith d x ≠ .ok b := by
  intro hb
  obtain ⟨_, hform⟩ := ((exists_marshalWith_iff.mp ⟨b, hb⟩).2 _ h).writable
  cases hform

/-- A value is written exactly when its type resolves and all that goes on the wire can be sent. So
nothing is ever sent with a component in it that its own type rejects. -/
theorem marshalWith_succeeds_iff (schema : Schema α) (d : Directive) (x : α) :
    ((∃ b, schema.marshalWith d x = .ok b) ↔
      (∃ shape, schema.resolve d = .ok shape) ∧ ∀ c, OnWire ⟨schema, d, x⟩ c → c.Sendable) ∧
    ∀ c reason, OnWire ⟨schema, d, x⟩ c → c.schema.validate c.value = .error reason →
      ∀ b, schema.marshalWith d x ≠ .ok b := by
  refine ⟨exists_marshalWith_iff, fun c reason honwire hrejected b hb => ?_⟩
  -- If it had been written, the component would have been accepted.
  have hsend : c.Sendable := (exists_marshalWith_iff.mp ⟨b, hb⟩).2 c honwire
  have haccepted := hsend.accepted
  rw [hrejected] at haccepted
  cases haccepted

/-- Seals are never accepted. In an omitted field nobody asks, in a vector each one is asked. -/
theorem marshalWith_succeeds_iff_sealed :
    let schema : Schema (List Unit × Unit × Unit) :=
      .record "Letter"
        (.cons ⟨"seals", .head 1, "Vec<Sealed>"⟩ (.vector "Vec<Sealed>" (.custom .sealed))
          (.cons ⟨"spare", .omit, "Sealed"⟩ (.custom .sealed) .nil))
        fun _ => .ok ()
    (∀ c, OnWire ⟨schema, .default, ([], (), ())⟩ c → c.Sendable) ∧
      ∀ b, schema.marshalWith .default ([()], (), ()) ≠ .ok b := by
  intro schema
  have hwritten : schema.marshalWith .default ([], (), ()) = .ok [0] := rfl
  -- The vector is on the wire, and with it every seal in it.
  have hseals : OnWire ⟨schema, .default, ([()], (), ())⟩
      ⟨.vector "Vec<Sealed>" (.custom .sealed), .head 1, [()]⟩ :=
    .single (.inl ⟨by decide, rfl⟩)
  have hseal : OnWire ⟨schema, .default, ([()], (), ())⟩ ⟨.custom .sealed, .default, ()⟩ :=
    hseals.tail ⟨(), List.mem_cons_self, rfl⟩
  refine ⟨((marshalWith_succeeds_iff schema .default _).1.mp ⟨_, hwritten⟩).2, ?_⟩
  exact (marshalWith_succeeds_iff schema .default _).2 _ "sealed" hseal rfl

end Schema

end TlsWire
