import TlsWire.Proofs.Decode.Grammar
import Mathlib.Algebra.GroupWithZero.Nat

/-!
# No more elements than bytes

All vectors and maps in a decoded value have together no more elements than bytes were taken
(`Schema.elementCount_le`), although the bytes of an inner vector belong to an element of the outer
one as well. What pays for that element is the head of the inner vector: a value whose shape is not
greedy has a byte to spare (`Shape.spare`), and no element is greedy.
-/

namespace TlsWire

variable {α β κ : Type}

namespace Schema

mutual

/-- How many elements and entries the vectors and maps of a value have together. What is in omitted
fields or in values of hooks does not count. -/
def elementCount : {α : Type} → Schema α → α → Nat
  | _, .uint _, _ => 0
  | _, .array _ elem _, xs => (xs.val.map elem.elementCount).sum
  | _, .vector _ elem, xs => xs.length + (xs.map elem.elementCount).sum
  | _, .map _ _ _ key value, dict =>
    dict.size + (dict.entries.map fun e => key.elementCount e.1 + value.elementCount e.2).sum
  | _, .box _ content, x => content.elementCount x
  | _, .option _ content, x => (x.map content.elementCount).getD 0
  | _, .record _ fields _ _, x => fields.elementCount x
  | _, .custom _, _ => 0

/-- The count of all fields together. -/
def Fields.elementCount : {α : Type} → Fields α → α → Nat
  | _, .nil, _ => 0
  | _, .cons info schema rest, (x, xs) =>
    (if info.directive = .omit then 0 else schema.elementCount x) + rest.elementCount xs

end

end Schema

/-- How many bytes a value takes, if it takes any, beyond one for each element and entry in it. -/
def Shape.spare (shape : Shape) : Nat := (!shape.isGreedy).toNat

/-- The same for fields: one byte, unless the last of them is greedy. -/
def Shape.Fields.spare (shapes : Shape.Fields) : Nat := (!shapes.isGreedy).toNat

namespace Decoder

variable {type : String} {ctx : Context} {c c' : Cursor}

/-- Whatever is decoded takes a byte for each element and entry that is counted in it, and `spare`
bytes more if it takes any. -/
def Pays (d : Decoder α) (count : α → Nat) (spare : Nat) : Prop :=
  ∀ c x c', d c = .ok x c' → ∃ b, c.Advances b c' ∧ count x ≤ b.length - spare

/-- The elements of an array pay for what is in them. The array itself counts for nothing, so one
byte stays to spare as soon as there is an element. -/
theorem items_pays {elem : Context → Decoder α} {count : α → Nat}
    (h : ∀ ctx, Pays (elem ctx) count 1) {xs : List α} (hrun : Items ctx elem c xs c') :
    ∃ b, c.Advances b c' ∧ (xs.map count).sum ≤ b.length - 1 := by
  induction hrun with
  | nil => exact ⟨[], Cursor.advances_refl _, Nat.le_refl 0⟩
  | cons hrun _ ih =>
    obtain ⟨b, hadv, hcount⟩ := h _ _ _ _ hrun
    obtain ⟨b', hadv', hcount'⟩ := ih
    refine ⟨b ++ b', hadv.trans hadv', ?_⟩
    -- If the first element takes nothing, then nothing is counted in it either.
    rw [List.map_cons, List.sum_cons, List.length_append]
    omega

/-- Elements take at least one byte each, so what they have to spare pays for themselves. -/
theorem elements_pays {elem : Context → Decoder α} {count : α → Nat}
    (h : ∀ ctx, Pays (elem ctx) count 1) {n : Nat} {xs : List α}
    (hrun : Elements ctx elem n c xs) : xs.length + (xs.map count).sum ≤ c.remaining := by
  induction hrun with
  | nil _ => exact Nat.zero_le _
  | cons _ _ hrun hsolid _ ih =>
    obtain ⟨b, hadv, hcount⟩ := h _ _ _ _ hrun
    have hremaining := hadv.remaining
    -- The byte that the element has to spare is the one that it counts for.
    rw [List.length_cons, List.map_cons, List.sum_cons]
    omega

/-! ## Kinds of types -/

/-- Nothing is counted in a number, so every byte of it is to spare. -/
theorem ofUint_pays {t : UintType} {shape : Shape} {spare : Nat} :
    Pays (ofUint t ctx shape) (fun _ => 0) spare := by
  intro c n c' h
  obtain ⟨b, _, hadv⟩ := ofUint_ok.mp h
  exact ⟨b, hadv, Nat.zero_le _⟩

/-- What a hook makes of its bytes is not counted. -/
theorem ofHook_pays {hook : Hook α} {shape : Shape} {spare : Nat} :
    Pays (ofHook hook ctx shape) (fun _ => 0) spare := by
  intro c x c' h
  obtain ⟨b, _, _, hadv⟩ := ofHook_ok.mp h
  exact ⟨b, hadv, Nat.zero_le _⟩

/-- An array is its elements. -/
theorem ofArray_pays {elem : Context → Shape → Decoder α} {elemShape : Shape} {length : Nat}
    {count : α → Nat} (h : ∀ ctx, Pays (elem ctx elemShape) count 1) :
    Pays (ofArray type elem length ctx (.array elemShape length))
      (fun xs => (xs.val.map count).sum) 1 := by
  intro c xs c' hrun
  obtain ⟨_, heq, hitems⟩ := ofArray_ok.mp hrun
  cases heq
  exact items_pays h hitems

/-- The content of a sequence is what is left of the bytes taken when the head is taken off. -/
theorem ofHead_pays {head : Head} {d : Directive} {seq : Sequence}
    (hhead : d.head? = some head) (hopen : Sequence.ofHead ctx head c = .ok seq c') :
    ∃ b, c.Advances b c' ∧
      seq.scope.remaining ≤ b.length - if head = .unbounded then 0 else 1 := by
  obtain ⟨front, c₁, body, hfront, hadv, hadv', _, rfl⟩ := Sequence.ofHead_ok.mp hopen
  refine ⟨front ++ body, hadv.trans hadv', ?_⟩
  show body.length ≤ _
  rw [List.length_append]
  -- A head has at least one byte, and this is the one to spare. Without a head there is none.
  cases hfront with
  | @fixed width length hlt =>
    have hwidth := (Directive.head?_eq_fixed.mp hhead).2.1
    rw [length_bigEndian, if_neg nofun]
    omega
  | varint hform =>
    have hpos := hform.length_pos
    rw [if_neg nofun]
    omega
  | unbounded =>
    rw [if_pos rfl]
    omega

/-- The elements pay for themselves with the content, so the head is left over. -/
theorem ofVector_pays {elem : Context → Shape → Decoder α} {elemShape : Shape} {head : Head}
    {d : Directive} {count : α → Nat} (hhead : d.head? = some head)
    (h : ∀ ctx, Pays (elem ctx elemShape) count 1) :
    Pays (ofVector type elem ctx (.vector elemShape head))
      (fun xs => xs.length + (xs.map count).sum) (if head = .unbounded then 0 else 1) := by
  intro c xs c' hrun
  obtain ⟨_, _, seq, heq, hopen, helems⟩ := ofVector_ok.mp hrun
  cases heq
  obtain ⟨b, hadv, hcontent⟩ := ofHead_pays hhead hopen
  exact ⟨b, hadv, Nat.le_trans (elements_pays h helems) hcontent⟩

/-- An entry has to pay for itself once. Key and value both have a byte to spare, so there is one
more. -/
theorem entry_pays {key : Context → Decoder κ} {value : Context → Decoder β} {keyCount : κ → Nat}
    {valueCount : β → Nat} (hkey : ∀ ctx, Pays (key ctx) keyCount 1)
    (hvalue : ∀ ctx, Pays (value ctx) valueCount 1) (ctx : Context) :
    Pays (entry key value ctx) (fun e => keyCount e.1 + valueCount e.2) 1 := by
  intro c e c' hrun
  obtain ⟨c₁, hk, hv⟩ := entry_ok.mp hrun
  obtain ⟨b, hadv, hcount⟩ := hkey _ _ _ _ hk
  obtain ⟨b', hadv', hcount'⟩ := hvalue _ _ _ _ hv
  refine ⟨b ++ b', hadv.trans hadv', ?_⟩
  show keyCount e.1 + valueCount e.2 ≤ _
  rw [List.length_append]
  omega

/-- The entries pay for themselves with the content, as elements do. -/
theorem ofMap_pays {order : KeyOrder κ} {kind : MapKind} {key : Context → Shape → Decoder κ}
    {value : Context → Shape → Decoder β} {keyShape valueShape : Shape} {head : Head}
    {d : Directive} {keyCount : κ → Nat} {valueCount : β → Nat} (hhead : d.head? = some head)
    (hkey : ∀ ctx, Pays (key ctx keyShape) keyCount 1)
    (hvalue : ∀ ctx, Pays (value ctx valueShape) valueCount 1) :
    Pays (ofMap type kind.gatherer key value ctx (.map keyShape valueShape head))
      (fun dict : Dict order β =>
        dict.size + (dict.entries.map fun e => keyCount e.1 + valueCount e.2).sum)
      (if head = .unbounded then 0 else 1) := by
  intro c dict c' hrun
  obtain ⟨_, _, _, seq, es, heq, hopen, helems, hperm⟩ := ofMap_ok.mp hrun
  cases heq
  obtain ⟨b, hadv, hcontent⟩ := ofHead_pays hhead hopen
  have hcount := elements_pays (entry_pays hkey hvalue) helems
  -- Entries are put in order afterwards, which changes neither their number nor the sum.
  rw [hperm.length_eq, (hperm.map _).sum_nat] at hcount
  exact ⟨b, hadv, Nat.le_trans hcount hcontent⟩

/-- A pointer counts for nothing and takes nothing. -/
theorem ofBox_pays {content : Context → Shape → Decoder α} {target : Shape} {count : α → Nat}
    {spare : Nat} (h : Pays (content ctx target) count spare) :
    Pays (ofBox type content ctx (.pointer target)) count spare := by
  intro c x c' hrun
  obtain ⟨_, heq, hcontent⟩ := ofBox_ok.mp hrun
  cases heq
  exact h c x c' hcontent

/-- A flag is one more byte, which only helps. -/
theorem ofOption_pays {content : Context → Shape → Decoder α} {shape : Shape} {count : α → Nat}
    {spare : Nat} (h : ∀ target, shape = .optional target ∨ shape = .pointer target →
      Pays (content ctx target) count spare) :
    Pays (ofOption type content ctx shape) (fun x => (x.map count).getD 0) spare := by
  intro c x c' hrun
  -- Either nothing is there and the flag is all, or the value is, with the flag or without.
  rcases ofOption_ok.mp hrun with ⟨_, _, rfl, hadv⟩ | ⟨target, y, c₁, heq, rfl, hflag, hcontent⟩ |
    ⟨target, y, heq, rfl, hcontent⟩
  · exact ⟨[0], hadv, Nat.zero_le _⟩
  · obtain ⟨b, hadv, hcount⟩ := h target (.inl heq) _ _ _ hcontent
    refine ⟨[1] ++ b, hflag.trans hadv, ?_⟩
    show count y ≤ _
    rw [List.length_append]
    omega
  · exact h target (.inr heq) _ _ _ hcontent

/-- A record is its fields. -/
theorem ofRecord_pays {fields : Context → Shape.Fields → Decoder α} {shapes : Shape.Fields}
    {count : α → Nat} {spare : Nat} (h : Pays (fields ctx shapes) count spare) :
    Pays (ofRecord type fields ctx (.record shapes)) count spare := by
  intro c x c' hrun
  obtain ⟨_, heq, hfields⟩ := ofRecord_ok.mp hrun
  cases heq
  exact h c x c' hfields

end Decoder

namespace Shape

variable {type name : String} {directive : Directive} {shape : Shape} {rest : Fields}

/-- What is not greedy has a byte to spare. -/
theorem spare_of_bounded (h : shape.isGreedy = false) : shape.spare = 1 := by
  rw [spare, h]
  rfl

/-- A vector is greedy exactly if it has no head. -/
theorem spare_vector {elem : Shape} {head : Head} :
    (Shape.vector elem head).spare = if head = .unbounded then 0 else 1 := by
  cases head <;> rfl

/-- So is a map. -/
theorem spare_map {key value : Shape} {head : Head} :
    (Shape.map key value head).spare = if head = .unbounded then 0 else 1 := by
  cases head <;> rfl

/-- Nothing follows a greedy field, so a record has a byte to spare only where every field has. -/
theorem spare_present_le
    (h : (Fields.present name directive shape rest).checkGreedy type = .ok ()) :
    (Fields.present name directive shape rest).spare ≤ shape.spare ∧
      (Fields.present name directive shape rest).spare ≤ rest.spare := by
  have hlast := (checkGreedy_present.mp h).1
  -- If another field is on the wire then this one is not greedy, and the others decide. If none
  -- is, then this one decides, and the others take nothing.
  cases hany : rest.anyPresent with
  | true =>
    have hspare : (Fields.present name directive shape rest).spare = rest.spare := by
      rw [Fields.spare, isGreedy_present, if_pos hany, Fields.spare]
    rw [hspare, spare_of_bounded (hlast hany)]
    exact ⟨Bool.toNat_le _, Nat.le_refl _⟩
  | false =>
    have hspare : (Fields.present name directive shape rest).spare = shape.spare := by
      rw [Fields.spare, isGreedy_present, hany, spare]
      rfl
    have hrest : rest.spare = 1 := by
      rw [Fields.spare, isGreedy_of_anyPresent_false hany]
      rfl
    rw [hspare, hrest]
    exact ⟨Nat.le_refl _, Bool.toNat_le _⟩

end Shape

namespace Schema

open Decoder

/-- The first field and the others pay for what is in them. The byte to spare comes from whichever
of them takes any. -/
theorem Fields.decode_cons_pays {info : FieldInfo} {schema : Schema α} {rest : Fields β}
    {shapes : Shape.Fields} {type : String} {ctx : Context}
    (hresolve : (Fields.cons info schema rest).resolve = .ok shapes)
    (hcheck : shapes.checkGreedy type = .ok ())
    (hfield : ∀ shape ctx, schema.resolve info.directive = .ok shape →
      Pays (schema.decode ctx shape) schema.elementCount shape.spare)
    (hrest : ∀ restShapes, rest.resolve = .ok restShapes → restShapes.checkGreedy type = .ok () →
      Pays (rest.decode ctx restShapes) rest.elementCount restShapes.spare) :
    Pays ((Fields.cons info schema rest).decode ctx shapes)
      (Fields.cons info schema rest).elementCount shapes.spare := by
  rintro c ⟨x, xs⟩ c' hrun
  rw [elementCount]
  rcases Fields.resolve_cons.mp hresolve with ⟨homit, restShapes, hrestShapes, rfl⟩ |
    ⟨hon, shape, restShapes, hshape, hrestShapes, rfl⟩
  · rcases Fields.decode_ok.mp hrun with ⟨_, _, _, _, _, heq, _⟩ | ⟨_, _, _, heq, _, hxs⟩
    · cases heq
    · cases heq
      rw [if_pos homit, Nat.zero_add]
      rw [Shape.checkGreedy_absent] at hcheck
      rw [Shape.Fields.spare, Shape.isGreedy_absent]
      exact hrest restShapes hrestShapes hcheck c xs c' hxs
  · rcases Fields.decode_ok.mp hrun with ⟨_, _, _, _, c₁, heq, hx, hxs⟩ | ⟨_, _, _, heq, _⟩
    · cases heq
      have hcheckRest := (Shape.checkGreedy_present.mp hcheck).2
      obtain ⟨b, hadv, hcount⟩ := hfield shape _ hshape _ _ _ hx
      obtain ⟨b', hadv', hcount'⟩ := hrest restShapes hrestShapes hcheckRest _ _ _ hxs
      refine ⟨b ++ b', hadv.trans hadv', ?_⟩
      -- What the record has to spare, the field and the others have both.
      have hspare := Shape.spare_present_le hcheck
      have hone : restShapes.spare ≤ 1 := Bool.toNat_le _
      rw [if_neg hon, List.length_append]
      simp only at hcount hcount'
      omega
    · cases heq

mutual

/-- Every element and entry is paid for with a byte, and what is not greedy has one to spare. -/
theorem decode_pays : {α : Type} → (schema : Schema α) → {d : Directive} → {shape : Shape} →
    schema.resolve d = .ok shape → (ctx : Context) →
    Pays (schema.decode ctx shape) schema.elementCount shape.spare
  | _, .uint _, _, _, _, _ => by
    rw [decode]
    exact ofUint_pays
  | _, .array type elem length, _, _, h, _ => by
    obtain ⟨_, elemShape, helem, hbounded, rfl⟩ := resolve_array.mp h
    -- Elements are never greedy, so each has its byte to spare.
    have hpays := decode_pays elem helem
    rw [Shape.spare_of_bounded hbounded] at hpays
    rw [decode]
    exact ofArray_pays hpays
  | _, .vector type elem, _, _, h, _ => by
    obtain ⟨head, elemShape, hhead, helem, hbounded, rfl⟩ := resolve_vector.mp h
    have hpays := decode_pays elem helem
    rw [Shape.spare_of_bounded hbounded] at hpays
    rw [decode, Shape.spare_vector]
    exact ofVector_pays hhead hpays
  | _, .map type kind order key value, _, _, h, _ => by
    obtain ⟨head, keyShape, valueShape, hhead, hkey, hkeyBounded, hvalue, hvalueBounded, rfl⟩ :=
      resolve_map.mp h
    have hkeyPays := decode_pays key hkey
    have hvaluePays := decode_pays value hvalue
    rw [Shape.spare_of_bounded hkeyBounded] at hkeyPays
    rw [Shape.spare_of_bounded hvalueBounded] at hvaluePays
    rw [decode, Shape.spare_map]
    exact ofMap_pays hhead hkeyPays hvaluePays
  | _, .box type content, _, _, h, ctx => by
    obtain ⟨_, target, htarget, rfl⟩ := resolve_box.mp h
    rw [decode]
    exact ofBox_pays (decode_pays content htarget ctx)
  | _, .option type content, _, _, h, ctx => by
    rw [decode]
    refine ofOption_pays fun target hshape => ?_
    rcases resolve_option.mp h with ⟨_, _, htarget, rfl⟩ | ⟨_, _, htarget, rfl⟩
    · obtain ⟨⟨⟩⟩ | heq := hshape
      · exact decode_pays content htarget ctx
      · cases heq
    · obtain heq | ⟨⟨⟩⟩ := hshape
      · cases heq
      · exact decode_pays content htarget ctx
  | _, .record type fields _ _, _, _, h, ctx => by
    obtain ⟨_, shapes, hshapes, hcheck, rfl⟩ := resolve_record.mp h
    rw [decode]
    exact ofRecord_pays (Fields.decode_pays fields hshapes hcheck ctx)
  | _, .custom _, _, _, _, _ => by
    rw [decode]
    exact ofHook_pays

/-- By induction on the fields. That nothing follows a greedy field has been checked for the
record. -/
theorem Fields.decode_pays : {α : Type} → (fields : Fields α) → {shapes : Shape.Fields} →
    {type : String} → fields.resolve = .ok shapes → shapes.checkGreedy type = .ok () →
    (ctx : Context) → Pays (fields.decode ctx shapes) fields.elementCount shapes.spare
  | _, .nil, _, _, _, _, _ => by
    intro c x c' h
    rw [Fields.decode] at h
    obtain ⟨_, rfl⟩ := pure_ok.mp h
    exact ⟨[], c.advances_refl, Nat.zero_le _⟩
  | _, .cons _ schema rest, _, _, h, hcheck, ctx =>
    Fields.decode_cons_pays h hcheck (fun _ ctx hshape => Schema.decode_pays schema hshape ctx)
      fun _ hrest hcheck => Fields.decode_pays rest hrest hcheck ctx

end

/-- What is decoded from `n` bytes has no more than `n` elements and entries, at all depths
together. -/
theorem elementCount_le {schema : Schema α} {d : Directive} {config : Config} {data : Bytes}
    {n : Nat} {x : α} (h : schema.unmarshalWith d config data = .ok (n, x)) :
    schema.elementCount x ≤ n := by
  obtain ⟨shape, hresolve⟩ := resolve_of_unmarshalWith h
  obtain ⟨c, hrun, hn⟩ := (unmarshalWith_ok hresolve).mp h
  obtain ⟨b, hadv, hcount⟩ := schema.decode_pays hresolve _ _ _ _ hrun
  obtain ⟨hlen, _⟩ := Cursor.advances_ofBytes hadv
  omega

/-- Two vectors in a vector. The heads of the inner ones are the only bytes that are not elements
themselves, and they pay for the two elements of the outer one. -/
theorem elementCount_le_nested :
    let inner : Fields (List (BitVec 8) × Unit) :=
      .cons ⟨"body", .head 1, "Vec<u8>"⟩ (.vector "Vec<u8>" (.uint .u8)) .nil
    let schema : Schema (List (List (BitVec 8) × Unit)) :=
      .vector "Vec<Part>" (.record "Part" inner fun _ => .ok ())
    let data : Bytes := [2, 7, 8, 1, 9]
    let value : List (List (BitVec 8) × Unit) := [([7, 8], ()), ([9], ())]
    schema.unmarshalWith .headNone {} data = .ok (5, value) ∧ schema.elementCount value = 5 ∧
      schema.elementCount value ≤ 5 := by
  intro inner schema data value
  let innerShape : Shape.Fields :=
    .present "body" (.head 1) (.vector (.integer 8) (.fixed 1)) .nil
  have hitem : ∀ n : BitVec 8, WireForm.Solid ((uint .u8).WireForm (.integer 8)) n
      (bigEndian 1 n.toNat) := fun _ => ⟨.integer, nofun⟩
  -- A part is a head and its content, and its record is not greedy.
  have hpart : ∀ (xs : List (BitVec 8)) (body : Bytes), body.length < 256 →
      Pieces (WireForm.Solid ((uint .u8).WireForm (.integer 8))) xs body →
      WireForm.Solid ((record "Part" inner fun _ => .ok ()).WireForm (.record innerShape)) (xs, ())
        ((bigEndian 1 body.length ++ body) ++ []) := by
    intro xs body hlen hbody
    exact ⟨.intro (.present (.intro (.intro (.fixed hlen) hbody)) rfl), nofun⟩
  have hform : schema.WireForm (.vector (.record innerShape) .unbounded) value data :=
    .intro (.intro (h := []) .unbounded
      (.cons (hpart [7, 8] [7, 8] (by decide) (.cons (hitem 7) (.cons (hitem 8) .nil)))
        (.cons (hpart [9] [9] (by decide) (.cons (hitem 9) .nil)) .nil)))
  have hwithin : schema.EachPart (SizeWithin ({} : Config).maxCollect) value := by
    simp [schema, inner, value, EachPart, Fields.EachPart, SizeWithin]
  have hrun : schema.unmarshalWith .headNone {} data = .ok (5, value) :=
    unmarshalWith_of_wireForm (t := []) rfl hform hwithin fun _ => rfl
  exact ⟨hrun, rfl, elementCount_le hrun⟩

end Schema

end TlsWire
