import TlsWire.Proofs.Canonical
import TlsWire.Proofs.Encode.EntryOrder

/-!
# Forms in the order of values

The forms of numbers, flags and what is made of them compare as the values do. One equation says
this for every kind of type (`Encoder.Ordered`): whatever bytes follow two forms, the values decide
first, and what follows decides only between equal values. Stated in this way, with what follows, it
composes: a form that is a concatenation is compared part by part, and no form is a proper prefix of
another one.

* `compareBytes_bigEndian`, `Varint.compareBytes_encode` — numbers; a varint of a smaller class is
  told from a larger one by the first byte;
* `Schema.encode_ordered` — values, by induction on the schema;
* `Schema.marshalWith_ordered` — what it means for keys: a map is written in its own order.
-/

namespace TlsWire

variable {α β κ : Type}

/-! ## Comparing bytes -/

/-- Bytes compare lexicographically. -/
abbrev compareBytes : Bytes → Bytes → Ordering := KeyOrder.byte.list.cmp

/-- One byte after the other, until two of them differ. -/
theorem compareBytes_cons (a b : UInt8) (s t : Bytes) :
    compareBytes (a :: s) (b :: t) = (compare a.toNat b.toNat).then (compareBytes s t) :=
  List.compareLex_cons_cons

/-- What is smaller in this order is smaller as a list of bytes, which is how a map sorts its
entries. A list that ends first comes first in both. -/
theorem compareBytes_eq_lt {a b : Bytes} : compareBytes a b = .lt ↔ a < b := by
  induction a generalizing b with
  | nil =>
    cases b with
    | nil => exact ⟨nofun, fun h => absurd h (List.not_lt_nil [])⟩
    | cons y b => exact ⟨fun _ => List.nil_lt_cons y b, fun _ => rfl⟩
  | cons x a ih =>
    cases b with
    | nil => exact ⟨nofun, fun h => absurd h (List.not_lt_nil _)⟩
    | cons y b =>
      rw [compareBytes_cons, Ordering.then_eq_lt, Nat.compare_eq_lt, Nat.compare_eq_eq, ih,
        List.cons_lt_cons_iff, UInt8.lt_iff_toNat_lt, UInt8.toNat_inj]

/-- The first byte decides. -/
theorem compareBytes_of_lt {a b : UInt8} (h : a.toNat < b.toNat) (s t : Bytes) :
    compareBytes (a :: s) (b :: t) = .lt := by
  rw [compareBytes_cons, Nat.compare_eq_lt.mpr h]
  rfl

/-- Digits compare from the left. -/
theorem compare_mul_add {a b r c d : Nat} (hc : c < r) (hd : d < r) :
    compare (a * r + c) (b * r + d) = (compare a b).then (compare c d) := by
  -- If the leading digits differ, they do so by a whole `r`, which the last digit cannot make up
  -- for.
  rcases Nat.lt_trichotomy a b with hab | rfl | hab
  · have hle : (a + 1) * r ≤ b * r := Nat.mul_le_mul_right r hab
    rw [Nat.add_mul, Nat.one_mul] at hle
    rw [Nat.compare_eq_lt.mpr hab, Nat.compare_eq_lt.mpr (by omega)]
    rfl
  · rw [Nat.compare_eq_eq.mpr rfl, Ordering.eq_then]
    rcases Nat.lt_trichotomy c d with hcd | rfl | hcd
    · rw [Nat.compare_eq_lt.mpr hcd, Nat.compare_eq_lt.mpr (by omega)]
    · rw [Nat.compare_eq_eq.mpr rfl, Nat.compare_eq_eq.mpr rfl]
    · rw [Nat.compare_eq_gt.mpr hcd, Nat.compare_eq_gt.mpr (by omega)]
  · have hle : (b + 1) * r ≤ a * r := Nat.mul_le_mul_right r hab
    rw [Nat.add_mul, Nat.one_mul] at hle
    rw [Nat.compare_eq_gt.mpr hab, Nat.compare_eq_gt.mpr (by omega)]
    rfl

/-- Big-endian forms of one width compare as what they hold. -/
theorem compareBytes_bigEndian_mod (width m n : Nat) (s t : Bytes) :
    compareBytes (bigEndian width m ++ s) (bigEndian width n ++ t) =
      (compare (m % byteRange width) (n % byteRange width)).then (compareBytes s t) := by
  induction width with
  | zero => simp [bigEndian, byteRange, Nat.mod_one]
  | succ width ih =>
    -- The first byte is the leading digit, and the others are a form of the remaining ones.
    have hdigits : ∀ k : Nat, k % byteRange (width + 1) =
        (UInt8.ofNat (k / byteRange width)).toNat * byteRange width + k % byteRange width := by
      intro k
      rw [byteRange, Nat.mod_mul, UInt8.toNat_ofNat', Nat.mul_comm, Nat.add_comm]
    have hpos := byteRange_pos width
    rw [bigEndian, bigEndian, List.cons_append, List.cons_append, compareBytes_cons, ih,
      hdigits m, hdigits n, compare_mul_add (Nat.mod_lt _ hpos) (Nat.mod_lt _ hpos),
      Ordering.then_assoc]

/-- Where both numbers fit, nothing has been cut off, and the numbers themselves are compared. -/
theorem compareBytes_bigEndian {width m n : Nat} (hm : m < byteRange width)
    (hn : n < byteRange width) (s t : Bytes) :
    compareBytes (bigEndian width m ++ s) (bigEndian width n ++ t) =
      (compare m n).then (compareBytes s t) := by
  rw [compareBytes_bigEndian_mod, Nat.mod_eq_of_lt hm, Nat.mod_eq_of_lt hn]

namespace Varint

/-- A form of a smaller class comes first, whatever follows. -/
theorem compareBytes_of_class_lt {cls cls' m n : Nat} (hcls' : cls' < 4) (hlt : cls < cls')
    (hm : m < room cls) (hn : n < room cls') (s t : Bytes) :
    compareBytes (bigEndian (formLength cls) (cls * room cls + m) ++ s)
      (bigEndian (formLength cls') (cls' * room cls' + n) ++ t) = .lt := by
  have hcls : cls < 4 := by omega
  -- The class stands in the highest bits of the first byte, so this byte already decides.
  obtain ⟨first, tail, hform, hfirst⟩ := head_form hcls hm
  obtain ⟨first', tail', hform', hfirst'⟩ := head_form hcls' hn
  rw [hform, hform']
  exact compareBytes_of_lt (by omega) _ _

/-- A number in a smaller class is smaller. -/
theorem lt_of_class_lt {m n cls cls' : Nat} (hm : class? m = some cls) (hn : class? n = some cls')
    (hlt : cls < cls') : m < n := by
  have hroom : room cls ≤ n := Nat.not_lt.mp fun hn' => by
    have hle := class?_le hn hn'
    omega
  exact Nat.lt_of_lt_of_le (class?_eq_some hm).2 hroom

/-- Shortest forms compare as the numbers. -/
theorem compareBytes_encode {m n : Nat} {b b' : Bytes} (hm : encode m = .ok b)
    (hn : encode n = .ok b') (s t : Bytes) :
    compareBytes (b ++ s) (b' ++ t) = (compare m n).then (compareBytes s t) := by
  obtain ⟨cls, hclass, rfl⟩ := encode_ok.mp hm
  obtain ⟨cls', hclass', rfl⟩ := encode_ok.mp hn
  obtain ⟨hcls, hroom⟩ := class?_eq_some hclass
  obtain ⟨hcls', hroom'⟩ := class?_eq_some hclass'
  -- In the same class the forms are as long as each other, and the class bits cancel.
  rcases Nat.lt_trichotomy cls cls' with hlt | rfl | hlt
  · rw [compareBytes_of_class_lt hcls' hlt hroom hroom',
      Nat.compare_eq_lt.mpr (lt_of_class_lt hclass hclass' hlt)]
    rfl
  · rw [compareBytes_bigEndian (class_mul_room_add_lt hcls hroom)
      (class_mul_room_add_lt hcls' hroom'), compare_mul_add hroom hroom',
      Nat.compare_eq_eq.mpr rfl, Ordering.eq_then]
  · have hgt : compareBytes (bigEndian (formLength cls) (cls * room cls + m) ++ s)
        (bigEndian (formLength cls') (cls' * room cls' + n) ++ t) = .gt :=
      KeyOrder.byte.list.gt_iff_lt.mpr (compareBytes_of_class_lt hcls hlt hroom' hroom t s)
    rw [hgt, Nat.compare_eq_gt.mpr (lt_of_class_lt hclass' hclass hlt)]
    rfl

end Varint

/-! ## Kinds of types -/

namespace Encoder

/-- Forms compare as what they are forms of, and only between equal values what follows decides. -/
def Ordered (order : KeyOrder α) (encode : α → Encoder Unit) : Prop :=
  ∀ x y b b', (encode x).standalone = .ok b → (encode y).standalone = .ok b' →
    ∀ s t, compareBytes (b ++ s) (b' ++ t) = (order.cmp x y).then (compareBytes s t)

section Kinds

variable {type : String} {order : KeyOrder α} {shape target : Shape}

/-- A number is written in big-endian order, as an integer of a fixed width or as the shortest
varint. Both times the form is compared as the number is. -/
theorem ofUint_ordered {t : UintType} :
    Ordered (.bitVec t.bits) fun n : BitVec t.bits => ofUint t shape n.toNat := by
  intro m n b b' hb hb' s u
  show compareBytes _ _ = (compare m.toNat n.toNat).then _
  cases shape with
  | integer bits =>
    simp only [ofUint, uint, standalone_emit, Except.mapError_ok, Uint.encode_eq_ok] at hb hb'
    obtain ⟨hm, rfl⟩ := hb
    obtain ⟨hn, rfl⟩ := hb'
    have hmax := Uint.max_lt t.bytes
    exact compareBytes_bigEndian (Nat.lt_of_le_of_lt hm hmax) (Nat.lt_of_le_of_lt hn hmax) s u
  | varint bits =>
    simp only [ofUint, varint, standalone_emit, Except.mapError_ok] at hb hb'
    exact Varint.compareBytes_encode hb hb' s u
  | _ => cases hb

/-- Items of equal number compare one by one. -/
theorem each_ordered {encode : α → Encoder Unit} (h : Ordered order encode)
    (happend : ∀ x, AppendsOnly (encode x)) {xs ys : List α} (hlen : xs.length = ys.length)
    {b b' : Bytes} (hb : (each encode xs).standalone = .ok b)
    (hb' : (each encode ys).standalone = .ok b') (s t : Bytes) :
    compareBytes (b ++ s) (b' ++ t) = (order.list.cmp xs ys).then (compareBytes s t) := by
  induction xs generalizing ys b b' with
  | nil =>
    obtain rfl := List.eq_nil_of_length_eq_zero hlen.symm
    cases hb
    cases hb'
    rfl
  | cons x xs ih =>
    obtain ⟨y, ys, rfl⟩ := List.exists_cons_of_length_eq_add_one hlen.symm
    rw [each, standalone_bind_ok (.each happend xs)] at hb
    rw [each, standalone_bind_ok (.each happend ys)] at hb'
    obtain ⟨p, u, hp, hu, rfl⟩ := hb
    obtain ⟨q, v, hq, hv, rfl⟩ := hb'
    -- The first items decide, or the lists behind them do. That is the order of lists as well.
    have hcons : order.list.cmp (x :: xs) (y :: ys) =
        (order.cmp x y).then (order.list.cmp xs ys) := List.compareLex_cons_cons
    rw [List.append_assoc, List.append_assoc, h x y p q hp hq, ih (Nat.succ.inj hlen) hu hv, hcons,
      Ordering.then_assoc]

/-- The length is not written, and it need not be: it is the same for both values. -/
theorem ofArray_ordered {elem : Shape → α → Encoder Unit} {length shapeLength : Nat}
    (helem : Ordered order (elem shape)) (happend : ∀ x, AppendsOnly (elem shape x)) :
    Ordered (order.list.onKey Subtype.val fun _ _ => Subtype.ext)
      fun items : Tuple α length => ofArray type elem (.array shape shapeLength) items.val :=
  fun xs ys _ _ hb hb' => each_ordered helem happend (xs.property.trans ys.property.symm) hb hb'

/-- With a flag, no value comes before any value, as it does in the order of options. Without one
there is always a value on the wire. -/
theorem ofOption_ordered {content : Shape → α → Encoder Unit}
    (hshape : shape = .optional target ∨ shape = .pointer target)
    (hcontent : Ordered order (content target)) (happend : ∀ x, AppendsOnly (content target x)) :
    Ordered order.option (ofOption type content shape) := by
  have hsome : ∀ x y, order.option.cmp (some x) (some y) = order.cmp x y := by
    intro x y
    show List.compareLex order.cmp [x] [y] = order.cmp x y
    rw [List.compareLex_cons_cons, List.compareLex_nil_nil, Ordering.then_eq]
  intro x y b b' hb hb' s t
  rcases hshape with rfl | rfl
  -- The flags decide unless both values are there. Then the contents do.
  · cases x with
    | none =>
      cases hb
      cases y with
      | none =>
        cases hb'
        rfl
      | some y =>
        obtain ⟨q, _, rfl⟩ := (ofOption_some_ok (happend y)).mp hb'
        exact compareBytes_of_lt (by decide) _ _
    | some x =>
      obtain ⟨p, hp, rfl⟩ := (ofOption_some_ok (happend x)).mp hb
      cases y with
      | none =>
        cases hb'
        exact KeyOrder.byte.list.gt_iff_lt.mpr (compareBytes_of_lt (by decide) _ _)
      | some y =>
        obtain ⟨q, hq, rfl⟩ := (ofOption_some_ok (happend y)).mp hb'
        rw [List.cons_append, List.cons_append, compareBytes_cons, hcontent x y p q hp hq, hsome]
        rfl
  · -- Without a flag a missing value has no form.
    cases x with
    | none => cases hb
    | some x =>
      cases y with
      | none => cases hb'
      | some y => exact hsome x y ▸ hcontent x y b b' hb hb' s t

/-- Validation lets a value pass or stops it. It does not change what is written. -/
theorem ofRecord_ordered {validate : α → Except String Unit}
    {fields : Shape.Fields → α → Encoder Unit} {shapes : Shape.Fields}
    (h : Ordered order (fields shapes)) :
    Ordered order (ofRecord type validate fields (.record shapes)) :=
  fun x y b b' hb hb' => h x y b b' (ofRecord_ok.mp hb).2 (ofRecord_ok.mp hb').2

end Kinds

/-- Two forms are told apart, and ordered, without looking at what follows. -/
theorem Ordered.cmp_eq {order : KeyOrder α} {encode : α → Encoder Unit} (h : Ordered order encode)
    {x y : α} {b b' : Bytes} (hb : (encode x).standalone = .ok b)
    (hb' : (encode y).standalone = .ok b') : order.cmp x y = compareBytes b b' := by
  have heq := h x y b b' hb hb' [] []
  rw [List.append_nil, List.append_nil] at heq
  rw [heq]
  exact Ordering.then_eq.symm

/-! ## Maps -/

section Maps

open EncodedEntry

variable {type : String} {h : Head} {order : KeyOrder κ} {key : κ → Encoder Unit}
  {value : β → Encoder Unit}

/-- Entries that ascend in the order of their keys have forms that ascend on the wire. -/
theorem Ordered.ascending (hkey : Ordered order key) {es : List (κ × β)}
    {forms : List EncodedEntry} (hes : TlsWire.Ascending order es)
    (hforms : List.Forall₂ (FormOf key value) es forms) : EncodedEntry.Ascending forms := by
  induction hforms with
  | nil => exact .nil
  | @cons e f es fs hform htail ih =>
    -- The first entry is below every other one, and its form is below their forms.
    obtain ⟨hfirst, hrest⟩ := List.pairwise_cons.mp hes
    refine List.pairwise_cons.mpr ⟨fun f' hf' => ?_, ih hrest⟩
    obtain ⟨e', he', hform'⟩ := exists_entry_of_mem htail hf'
    have hlt : order.cmp e.1 e'.1 = .lt := hfirst e' he'
    rw [hkey.cmp_eq hform.key hform'.key] at hlt
    exact compareBytes_eq_lt.mp hlt

/-- A dictionary is written as it is. -/
theorem Ordered.entries_ok (hkey : Ordered order key) {dict : Dict order β} {b : Bytes}
    (hb : (entries type h key value dict.entries).standalone = .ok b) :
    ∃ forms front, List.Forall₂ (FormOf key value) dict.entries forms ∧
      (head h (forms.flatMap EncodedEntry.bytes).length).standalone = .ok front ∧
      b = front ++ forms.flatMap EncodedEntry.bytes := by
  obtain ⟨forms, sorted, front, hforms, hperm, hsorted, hfront, rfl⟩ := Encoder.entries_ok.mp hb
  -- The sorted forms are an arrangement of those in the order of the map. As these ascend already,
  -- they are the same list.
  obtain rfl := eq_of_perm hperm hsorted (hkey.ascending dict.ascending hforms)
  exact ⟨sorted, front, hforms, hfront, rfl⟩

/-- A dictionary has no repeated key, so one that is reported comes from inside. -/
theorem Ordered.exists_of_duplicateKey (hkey : Ordered order key) {dict : Dict order β} {t : String}
    (herr : (entries type h key value dict.entries).standalone = .error (.duplicateKey t)) :
    ∃ e ∈ dict.entries, (key e.1).standalone = .error (.duplicateKey t) ∨
      (value e.2).standalone = .error (.duplicateKey t) := by
  by_cases hall : AllEncode key value dict.entries
  · obtain ⟨forms, hforms⟩ := exists_forms hall
    -- If every entry can be encoded, two of the keys must have the same form. But they ascend
    -- strictly.
    have hcollide := ((entries_duplicateKey hall).mp herr).2
    exact absurd (hkey.ascending dict.ascending hforms).nodup ((keysCollide_iff hforms).mp hcollide)
  · have hfailed : ∃ e ∈ dict.entries, ∃ err,
        ((key e.1).standalone = .error err ∨ (value e.2).standalone = .error err) ∧
          (entries type h key value dict.entries).standalone = .error err :=
      exists_of_entries_error hall
    obtain ⟨e, he, err, hfails, hrun⟩ := hfailed
    rw [hrun] at herr
    cases herr
    exact ⟨e, he, hfails⟩

end Maps

/-- A number is out of range, or it is not of the shape, and nothing else can be wrong with it. -/
theorem ofUint_ne_duplicateKey {t : UintType} {shape : Shape} {n : Nat} {type : String} :
    (ofUint t shape n).standalone ≠ .error (.duplicateKey type) := by
  intro h
  cases shape with
  | integer bits =>
    rw [ofUint, uint, standalone_emit] at h
    cases hencode : Uint.encode t.bytes n <;> rw [hencode] at h <;> cases h
  | varint bits =>
    rw [ofUint, varint, standalone_emit] at h
    cases hencode : Varint.encode n <;> rw [hencode] at h <;> cases h
  | _ => cases h

end Encoder

/-! ## Schemas -/

namespace Schema

open Encoder

mutual

/-- Whether a type is made of numbers, by arrays, indirections, options and records that write
all of their fields. -/
def Scalar : {α : Type} → Schema α → Prop
  | _, .uint _ => True
  | _, .array _ elem _ => elem.Scalar
  | _, .vector _ _ => False
  | _, .map _ _ _ _ _ => False
  | _, .box _ content => content.Scalar
  | _, .option _ content => content.Scalar
  | _, .record _ fields _ _ => fields.Scalar
  | _, .custom _ => False

/-- Whether all fields are on the wire and are made of numbers. -/
def Fields.Scalar : {α : Type} → Fields α → Prop
  | _, .nil => True
  | _, .cons info schema rest => info.directive ≠ .omit ∧ schema.Scalar ∧ rest.Scalar

end

mutual

/-- Along a resolved shape forms compare as their values. -/
theorem encode_ordered : {α : Type} → (schema : Schema α) → schema.Scalar → {d : Directive} →
    {shape : Shape} → schema.resolve d = .ok shape →
    Ordered schema.order (schema.encode shape)
  | _, .uint _, _, _, _, _ => by
    -- The order of a type is read off its schema, so both sides unfold along with the type.
    simp only [order, encode]
    exact ofUint_ordered
  | _, .array _ elem _, hscalar, _, _, hresolve => by
    obtain ⟨_, elemShape, helem, _, rfl⟩ := resolve_array.mp hresolve
    simp only [order, encode]
    exact ofArray_ordered (encode_ordered elem hscalar helem) (elem.encode_appendsOnly elemShape)
  | _, .vector _ _, hscalar, _, _, _ => hscalar.elim
  | _, .map _ _ _ _ _, hscalar, _, _, _ => hscalar.elim
  | _, .box _ content, hscalar, _, _, hresolve => by
    obtain ⟨_, target, htarget, rfl⟩ := resolve_box.mp hresolve
    simp only [order, encode]
    exact encode_ordered content hscalar htarget
  | _, .option _ content, hscalar, _, _, hresolve => by
    simp only [order, encode]
    rcases resolve_option.mp hresolve with ⟨_, target, htarget, rfl⟩ | ⟨_, target, htarget, rfl⟩
    · exact ofOption_ordered (.inl rfl) (encode_ordered content hscalar htarget)
        (content.encode_appendsOnly target)
    · exact ofOption_ordered (.inr rfl) (encode_ordered content hscalar htarget)
        (content.encode_appendsOnly target)
  | _, .record _ fields _ _, hscalar, _, _, hresolve => by
    obtain ⟨_, shapes, hshapes, _, rfl⟩ := resolve_record.mp hresolve
    simp only [order, encode]
    exact ofRecord_ordered (Fields.encode_ordered fields hscalar hshapes)
  | _, .custom _, hscalar, _, _, _ => hscalar.elim

/-- The first fields that differ decide. -/
theorem Fields.encode_ordered : {α : Type} → (fields : Fields α) → fields.Scalar →
    {shapes : Shape.Fields} → fields.resolve = .ok shapes →
    Ordered fields.order (fields.encode shapes)
  | _, .nil, _, _, _ => by
    intro _ _ b b' hb hb' s t
    rw [Fields.encode] at hb hb'
    cases hb
    cases hb'
    rfl
  | _, .cons _ schema rest, hscalar, _, hresolve => by
    obtain ⟨hon, hfield, hrest⟩ := hscalar
    obtain ⟨shape, shapes, hshape, hshapes, rfl⟩ := Fields.resolve_cons_present hon hresolve
    rintro ⟨x, xs⟩ ⟨y, ys⟩ b b' hb hb' s t
    obtain ⟨p, u, hp, hu, rfl⟩ := Fields.encode_present_ok.mp hb
    obtain ⟨q, v, hq, hv, rfl⟩ := Fields.encode_present_ok.mp hb'
    -- What follows the first field is the other fields and then whatever follows the record.
    rw [List.append_assoc, List.append_assoc,
      Schema.encode_ordered schema hfield hshape x y p q hp hq,
      Fields.encode_ordered rest hrest hshapes xs ys u v hu hv, Fields.order,
      ← Ordering.then_assoc]
    rfl

end

mutual

/-- Without a map there is no repeated key to be found. -/
theorem Scalar.ne_duplicateKey : {α : Type} → (schema : Schema α) → schema.Scalar →
    {d : Directive} → {shape : Shape} → schema.resolve d = .ok shape → (x : α) → (t : String) →
    (schema.encode shape x).standalone ≠ .error (.duplicateKey t)
  | _, .uint _, _, _, _, _, _, _ => by
    rw [encode]
    exact ofUint_ne_duplicateKey
  | _, .array _ elem _, hscalar, _, _, hresolve, items, t => by
    obtain ⟨_, elemShape, helem, _, rfl⟩ := resolve_array.mp hresolve
    intro herr
    rw [encode, ofArray] at herr
    obtain ⟨x, _, hx⟩ := exists_of_each_error (elem.encode_appendsOnly elemShape) herr
    exact Scalar.ne_duplicateKey elem hscalar helem x t hx
  | _, .vector _ _, hscalar, _, _, _, _, _ => hscalar.elim
  | _, .map _ _ _ _ _, hscalar, _, _, _, _, _ => hscalar.elim
  | _, .box _ content, hscalar, _, _, hresolve, x, t => by
    obtain ⟨_, target, htarget, rfl⟩ := resolve_box.mp hresolve
    rw [encode]
    exact Scalar.ne_duplicateKey content hscalar htarget x t
  | _, .option _ content, hscalar, _, _, hresolve, x, t => by
    rw [encode]
    rcases resolve_option.mp hresolve with ⟨_, target, htarget, rfl⟩ | ⟨_, target, htarget, rfl⟩
    · cases x with
      | none => exact nofun
      | some x =>
        rw [ne_eq, ofOption_some_error (content.encode_appendsOnly target x)]
        exact Scalar.ne_duplicateKey content hscalar htarget x t
    · cases x with
      | none => exact nofun
      | some x => exact Scalar.ne_duplicateKey content hscalar htarget x t
  | _, .record _ fields _ _, hscalar, _, _, hresolve, x, t => by
    obtain ⟨_, shapes, hshapes, _, rfl⟩ := resolve_record.mp hresolve
    rw [encode, ofRecord]
    split
    · exact nofun
    · exact Fields.Scalar.ne_duplicateKey fields hscalar hshapes x t
  | _, .custom _, hscalar, _, _, _, _, _ => hscalar.elim

/-- No field has a map in it either. -/
theorem Fields.Scalar.ne_duplicateKey : {α : Type} → (fields : Fields α) → fields.Scalar →
    {shapes : Shape.Fields} → fields.resolve = .ok shapes → (x : α) → (t : String) →
    (fields.encode shapes x).standalone ≠ .error (.duplicateKey t)
  | _, .nil, _, _, _, _, _ => by
    rw [Fields.encode]
    exact nofun
  | _, .cons _ schema rest, hscalar, _, hresolve, (x, xs), t => by
    obtain ⟨hon, hfield, hrest⟩ := hscalar
    obtain ⟨shape, shapes, hshape, hshapes, rfl⟩ := Fields.resolve_cons_present hon hresolve
    intro herr
    rcases Fields.encode_present_error.mp herr with hx | ⟨_, _, hxs⟩
    · exact Schema.Scalar.ne_duplicateKey schema hfield hshape x t hx
    · exact Fields.Scalar.ne_duplicateKey rest hrest hshapes xs t hxs

end

/-- Once the directive has been resolved, a value is encoded on its own, with nothing before it. -/
theorem marshalWith_eq_standalone {schema : Schema α} {d : Directive} {shape : Shape}
    (hresolve : schema.resolve d = .ok shape) (x : α) :
    schema.marshalWith d x = (schema.encode shape x).standalone := by
  rw [marshalWith, hresolve]

/-- Keys that are made of numbers have forms that compare as they do. So a map with such keys is
written in its own order, and a repeated key can only be reported from inside one of its values. -/
theorem marshalWith_ordered {key : Schema κ} (hkey : key.Scalar) :
    (∀ d x y b b', key.marshalWith d x = .ok b → key.marshalWith d y = .ok b' →
      (key.order.cmp x y = .lt ↔ b < b') ∧ (x = y ↔ b = b')) ∧
    ∀ {β : Type} (value : Schema β) (type : String) (d : Directive) (dict : Dict key.order β),
      (∀ b, (map type .ordered key.order key value).marshalWith d dict = .ok b →
        ∃ head front forms, d.head? = some head ∧
          List.Forall₂ (fun e f => key.marshal e.1 = .ok f.key ∧ value.marshal e.2 = .ok f.value)
            dict.entries forms ∧
          (Encoder.head head (forms.flatMap EncodedEntry.bytes).length).standalone = .ok front ∧
          b = front ++ forms.flatMap EncodedEntry.bytes) ∧
      ∀ t, (map type .ordered key.order key value).marshalWith d dict = .error (.duplicateKey t) →
        ∃ e ∈ dict.entries, value.marshal e.2 = .error (.duplicateKey t) := by
  refine ⟨fun d x y b b' hb hb' => ?_,
    fun {β} value type d dict => ⟨fun b hb => ?_, fun t ht => ?_⟩⟩
  · obtain ⟨shape, hresolve, hx⟩ := marshalWith_ok.mp hb
    obtain ⟨_, hresolve', hy⟩ := marshalWith_ok.mp hb'
    cases hresolve.symm.trans hresolve'
    -- Both keys are encoded along the same shape, since they go by the same directive.
    have hcmp := (key.encode_ordered hkey hresolve).cmp_eq hx hy
    constructor
    · rw [hcmp, compareBytes_eq_lt]
    · rw [← key.order.cmp_eq_iff, hcmp, KeyOrder.cmp_eq_iff]
  · obtain ⟨shape, hresolve, hrun⟩ := marshalWith_ok.mp hb
    obtain ⟨head, keyShape, valueShape, hhead, hkeyShape, _, hvalueShape, _, rfl⟩ :=
      resolve_map.mp hresolve
    rw [encode, ofMap] at hrun
    obtain ⟨forms, front, hforms, hfront, rfl⟩ :=
      (key.encode_ordered hkey hkeyShape).entries_ok hrun
    -- Inside the map keys and values are encoded along their own directives, which are the
    -- defaults.
    refine ⟨head, front, forms, hhead, hforms.imp fun e f hform => ?_, hfront, rfl⟩
    exact ⟨marshalWith_ok.mpr ⟨keyShape, hkeyShape, hform.key⟩,
      marshalWith_ok.mpr ⟨valueShape, hvalueShape, hform.value⟩⟩
  · cases hresolve : (map type .ordered key.order key value).resolve d with
    | error e =>
      rw [marshalWith, hresolve] at ht
      cases ht
    | ok shape =>
      rw [marshalWith_eq_standalone hresolve] at ht
      obtain ⟨head, keyShape, valueShape, _, hkeyShape, _, hvalueShape, _, rfl⟩ :=
        resolve_map.mp hresolve
      rw [encode, ofMap] at ht
      obtain ⟨e, he, herr⟩ := (key.encode_ordered hkey hkeyShape).exists_of_duplicateKey ht
      -- A key has no map in it that could report this, so it comes from a value.
      rcases herr with hfirst | hsecond
      · exact absurd hfirst (Scalar.ne_duplicateKey key hkey hkeyShape e.1 t)
      · exact ⟨e, he, (marshalWith_eq_standalone hvalueShape e.2).trans hsecond⟩

/-- Two keys, each a varint and an option. The first varint is shorter and smaller, so the first key
is the smaller one and its entry is written first, whatever the options are. The same keys with a
map in the value: the repeated key is one of that map. -/
theorem marshalWith_ordered_varint_keys :
    let key : Schema (BitVec 16 × Option (BitVec 8) × Unit) :=
      .record "Key"
        (.cons ⟨"id", .varint, "u16"⟩ (uint .u16)
          (.cons ⟨"tag", .optional, "Option<u8>"⟩ (.option "Option<u8>" (uint .u8)) .nil))
        fun _ => .ok ()
    let schema : Schema (Dict key.order (BitVec 8)) :=
      .map "BTreeMap<Key, u8>" .ordered key.order key (uint .u8)
    let dict : Dict key.order (BitVec 8) :=
      .ofEntries [((300#16, none, ()), 7#8), ((5#16, some 9#8, ()), 1#8)]
    let bytes : Bytes := [8, 5, 1, 9, 1, 0x41, 0x2C, 0, 7]
    let tags : Schema (Dict KeyOrder.byte (BitVec 8) × Unit) :=
      .record "Tags"
        (.cons ⟨"seen", .head 1, "BTreeMap<Tag, u8>"⟩
          (.map "BTreeMap<Tag, u8>" .ordered .byte (.custom .tag) (uint .u8)) .nil)
        fun _ => .ok ()
    let nested : Dict key.order (Dict KeyOrder.byte (BitVec 8) × Unit) :=
      .ofEntries [((5#16, none, ()), .ofEntries [(1, 0#8), (17, 0#8)], ())]
    key.Scalar ∧ key.marshal (5#16, some 9#8, ()) = .ok [5, 1, 9] ∧
      key.marshal (300#16, none, ()) = .ok [0x41, 0x2C, 0] ∧
      key.order.cmp (5#16, some 9#8, ()) (300#16, none, ()) = .lt ∧
      schema.marshalWith (.head 1) dict = .ok bytes ∧
      (∃ head front forms, Directive.head? (.head 1) = some head ∧
        List.Forall₂ (fun e f => key.marshal e.1 = .ok f.key ∧
          (uint .u8).marshal e.2 = .ok f.value) dict.entries forms ∧
        (Encoder.head head (forms.flatMap EncodedEntry.bytes).length).standalone = .ok front ∧
        bytes = front ++ forms.flatMap EncodedEntry.bytes) ∧
      (map "BTreeMap<Key, Tags>" .ordered key.order key tags).marshalWith (.head 1) nested =
        .error (.duplicateKey "BTreeMap<Tag, u8>") ∧
      ∃ e ∈ nested.entries, tags.marshal e.2 = .error (.duplicateKey "BTreeMap<Tag, u8>") := by
  intro key schema dict bytes tags nested
  have hkey : key.Scalar := ⟨nofun, trivial, nofun, trivial, trivial⟩
  have hsmall : key.marshal (5#16, some 9#8, ()) = .ok [5, 1, 9] := rfl
  have hlarge : key.marshal (300#16, none, ()) = .ok [0x41, 0x2C, 0] := rfl
  let keyShape : Shape := .record (.present "id" .varint (.varint 16)
    (.present "tag" .optional (.optional (.integer 8)) .nil))
  let tagsShape : Shape :=
    .record (.present "seen" (.head 1) (.map .custom (.integer 8) (.fixed 1)) .nil)
  -- The two entries in their order, each with its key and value.
  have hbytes : schema.marshalWith (.head 1) dict = .ok bytes := by
    have hforms : List.Forall₂
        (EncodedEntry.FormOf (key.encode keyShape) ((uint .u8).encode (.integer 8))) dict.entries
        [⟨[5, 1, 9], [1]⟩, ⟨[0x41, 0x2C, 0], [7]⟩] :=
      .cons ⟨rfl, rfl⟩ (.cons ⟨rfl, rfl⟩ .nil)
    have hascending : EncodedEntry.Ascending [⟨[5, 1, 9], [1]⟩, ⟨[0x41, 0x2C, 0], [7]⟩] :=
      List.pairwise_pair.mpr (by decide)
    exact marshalWith_ok.mpr ⟨.map keyShape (.integer 8) (.fixed 1), rfl,
      Encoder.entries_ok.mpr ⟨_, _, [8], hforms, .refl _, hascending, rfl, rfl⟩⟩
  -- Tags 1 and 17 have one form, so the map in the value cannot be written.
  have hnested : (map "BTreeMap<Key, Tags>" .ordered key.order key tags).marshalWith (.head 1)
      nested = .error (.duplicateKey "BTreeMap<Tag, u8>") := by
    have hresolve : (map "BTreeMap<Key, Tags>" .ordered key.order key tags).resolve (.head 1) =
        .ok (.map keyShape tagsShape (.fixed 1)) := rfl
    have hinside : (tags.encode tagsShape (.ofEntries [(1, 0#8), (17, 0#8)], ())).standalone =
        .error (.duplicateKey "BTreeMap<Tag, u8>") := by
      rw [encode]
      exact Fields.encode_present_error.mpr (.inl Encoder.tags_repeated)
    have hform : (key.encode keyShape (5#16, none, ())).standalone = .ok [5, 0] := rfl
    rw [marshalWith_eq_standalone hresolve, encode]
    exact Encoder.entries_value_error hform hinside
  have hlt := (((marshalWith_ordered hkey).1 .default _ _ _ _ hsmall hlarge).1.mpr (by decide))
  exact ⟨hkey, hsmall, hlarge, hlt, hbytes,
    ((marshalWith_ordered hkey).2 (uint .u8) _ (.head 1) dict).1 _ hbytes, hnested,
    ((marshalWith_ordered hkey).2 tags _ (.head 1) nested).2 _ hnested⟩

/-- Keys that are numbers do not keep a map from failing with a repeated key, namely one of a map in
a value. Here another value is rejected by its type, but the first failure counts. -/
theorem marshalWith_duplicateKey_inside :
    let value : Schema (Dict KeyOrder.byte (BitVec 8) × Option Unit × Unit) :=
      .record "Entry"
        (.cons ⟨"seen", .head 1, "BTreeMap<Tag, u8>"⟩
          (.map "BTreeMap<Tag, u8>" .ordered .byte (.custom .tag) (uint .u8))
          (.cons ⟨"seal", .optional, "Option<Sealed>"⟩ (.option "Option<Sealed>" (.custom .sealed))
            .nil))
        fun _ => .ok ()
    let schema : Schema (Dict (uint .u8).order
        (Dict KeyOrder.byte (BitVec 8) × Option Unit × Unit)) :=
      .map "BTreeMap<u8, Entry>" .ordered (uint .u8).order (uint .u8) value
    let dict : Dict (uint .u8).order (Dict KeyOrder.byte (BitVec 8) × Option Unit × Unit) :=
      .ofEntries [(0#8, .ofEntries [(1, 0#8), (17, 0#8)], none, ()), (1#8, .empty, some (), ())]
    (uint .u8).Scalar ∧ ¬ ∀ t, schema.marshalWith (.head 1) dict ≠ .error (.duplicateKey t) := by
  intro value schema dict
  let valueShape : Shape := .record (.present "seen" (.head 1)
    (.map .custom (.integer 8) (.fixed 1)) (.present "seal" .optional (.optional .custom) .nil))
  have hrun : schema.marshalWith (.head 1) dict = .error (.duplicateKey "BTreeMap<Tag, u8>") := by
    have hresolve : schema.resolve (.head 1) = .ok (.map (.integer 8) valueShape (.fixed 1)) := rfl
    -- The first field of the first value fails. The second value is never looked at.
    have hinside : (value.encode valueShape
        (.ofEntries [(1, 0#8), (17, 0#8)], none, ())).standalone =
          .error (.duplicateKey "BTreeMap<Tag, u8>") := by
      rw [encode]
      exact Fields.encode_present_error.mpr (.inl Encoder.tags_repeated)
    have hform : ((uint .u8).encode (.integer 8) 0#8).standalone = .ok [0] := rfl
    rw [marshalWith_eq_standalone hresolve, encode]
    exact Encoder.entries_value_error hform hinside
  exact ⟨trivial, fun hnever => hnever _ hrun⟩

end Schema

end TlsWire
