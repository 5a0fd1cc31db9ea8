import TlsWire.Proofs.Decode.Success
import TlsWire.Proofs.Encode.Forms

/-!
# The fewest bytes of a type

`Shape.minLen` is the fewest bytes that a value occupies, up to a cap; `Shape.exactLen` is the same
number without the cap (`Shape.minLen_capped`). Three walks have to agree on it.

* Nothing shorter is written (`Schema.encode_atLeast`): where the bytes are a form of the grammar it
  is enough to look at heads, numbers and flags, and elements and fields add up.
* Nothing shorter is decoded (`Schema.decode_atLeast`). This has to be seen from the decoders, since
  what a hook takes need not be a form; it takes at least nothing.
* Without hooks and validation there is a value that is written in so many bytes
  (`Schema.shortest`): zeros, no elements, no entries, and nothing behind a presence flag.

`Schema.minLen_isLeast` puts them together.
-/

namespace TlsWire

variable {α β κ : Type}

/-! ## With and without a cap -/

namespace Shape

mutual

/-- The fewest bytes that a value of this shape occupies, however many these are. -/
def exactLen : Shape → Nat
  | .integer bits => bits / 8
  | .varint _ => 1
  | .array elem length => elem.exactLen * length
  | .vector _ head => head.minLen
  | .map _ _ head => head.minLen
  | .pointer target => target.exactLen
  | .optional _ => 1
  | .record fields => fields.exactLen
  | .custom => 0

/-- The fewest bytes that the present fields occupy together, however many these are. -/
def Fields.exactLen : Fields → Nat
  | .nil => 0
  | .present _ _ shape rest => shape.exactLen + rest.exactLen
  | .absent _ _ rest => rest.exactLen

end

/-- A length under the cap is exact, and no capped length is too large. -/
structure Capped (capped exact : Nat) : Prop where
  le : capped ≤ exact
  eq : exact ≤ lengthCap → capped = exact

namespace Capped

variable {a b a' b' : Nat}

/-- A length that has not been capped is exact. -/
theorem refl (a : Nat) : Capped a a := ⟨Nat.le_refl a, fun _ => rfl⟩

/-- Capped lengths are added up and capped again. If the sum stays under the cap so do both
summands. -/
theorem add (h : Capped a a') (h' : Capped b b') : Capped (cappedAdd a b) (a' + b') where
  le := by
    have hsum : a + b ≤ a' + b' := Nat.add_le_add h.le h'.le
    exact Nat.le_trans (Nat.min_le_left _ _) hsum
  eq hle := by
    have ha : a = a' := h.eq (by omega)
    have hb : b = b' := h'.eq (by omega)
    rw [cappedAdd, ha, hb, Nat.min_eq_left hle]

/-- The same for a length that is repeated. Nothing is said of the factor, which may be zero. -/
theorem mul (h : Capped a a') (n : Nat) : Capped (cappedMul a n) (a' * n) where
  le := Nat.le_trans (Nat.min_le_left _ _) (Nat.mul_le_mul_right n h.le)
  eq hle := by
    have hfactor : a * n = a' * n := by
      cases n with
      | zero => rfl
      | succ n =>
        -- A factor is no larger than the product, unless the other one is zero.
        have hself : a' ≤ a' * (n + 1) := Nat.le_mul_of_pos_right a' (Nat.succ_pos n)
        rw [h.eq (Nat.le_trans hself hle)]
    rw [cappedMul, hfactor, Nat.min_eq_left hle]

end Capped

mutual

/-- By induction on the shape. Lengths are put together by adding and repeating only. -/
theorem minLen_capped : (shape : Shape) → Capped shape.minLen shape.exactLen
  | .integer _ => .refl _
  | .varint _ => .refl _
  | .array elem length => by
    rw [minLen, exactLen]
    exact (minLen_capped elem).mul length
  | .vector _ _ => .refl _
  | .map _ _ _ => .refl _
  | .pointer target => by
    rw [minLen, exactLen]
    exact minLen_capped target
  | .optional _ => .refl _
  | .record fields => by
    rw [minLen, exactLen]
    exact Fields.minLen_capped fields
  | .custom => .refl _

/-- The fields on the wire are added up, the other ones do not count. -/
theorem Fields.minLen_capped : (fields : Fields) → Capped fields.minLen fields.exactLen
  | .nil => .refl _
  | .present _ _ shape rest => by
    rw [Fields.minLen, Fields.exactLen]
    exact (Shape.minLen_capped shape).add (Fields.minLen_capped rest)
  | .absent _ _ rest => by
    rw [Fields.minLen, Fields.exactLen]
    exact Fields.minLen_capped rest

end

end Shape

/-! ## The lengths of forms -/

/-- The width in bytes is the width in bits, which is a multiple of eight. -/
theorem UintType.bits_div_eight (t : UintType) : t.bits / 8 = t.bytes := by
  cases t <;> rfl

/-- A head of a fixed width always has this width, and a varint at least one byte. -/
theorem Head.Form.minLen_le {head : Head} {length : Nat} {b : Bytes} (h : head.Form length b) :
    head.minLen ≤ b.length := by
  cases h with
  | fixed => exact Nat.le_of_eq (length_bigEndian _ _).symm
  | varint h => exact h.length_pos
  | unbounded => exact Nat.le_refl 0

/-- No form of a number is shorter than the shape of the number says. -/
theorem WireForm.OfUint.exactLen_le {t : UintType} {d : Directive} {shape : Shape} {n : Nat}
    {b : Bytes} (h : WireForm.OfUint t shape n b)
    (hresolve : (Schema.uint t).resolve d = .ok shape) :
    shape.exactLen ≤ b.length := by
  rcases Schema.resolve_uint.mp hresolve with ⟨_, rfl⟩ | ⟨_, rfl⟩
  · cases h
    have hlen : t.bits / 8 = (bigEndian t.bytes n).length := by
      rw [t.bits_div_eight, length_bigEndian]
    exact Nat.le_of_eq hlen
  · cases h with
    | varint h => exact h.length_pos

/-! ## Nothing shorter is written -/

namespace Encoder

/-- Whatever is written has at least this length. -/
def AtLeast (encode : α → Encoder Unit) (len : Nat) : Prop :=
  ∀ x b, (encode x).standalone = .ok b → len ≤ b.length

section Kinds

variable {type : String} {h : Head} {shape keyShape valueShape : Shape} {len : Nat}

/-- As many elements as the type has, each of them with its bytes. -/
theorem ofArray_atLeast {elem : Shape → α → Encoder Unit} {length : Nat}
    (helem : AtLeast (elem shape) len) (happend : ∀ x, AppendsOnly (elem shape x)) :
    AtLeast (fun items : Tuple α length => ofArray type elem (.array shape length) items.val)
      (len * length) := by
  intro items b hb
  have hpieces := (each_ok happend).mp hb
  have hlen := hpieces.mul_length_le helem
  rwa [items.property] at hlen

/-- Only the head counts, because there need not be any content. -/
theorem framed_atLeast {content : α → Encoder Unit} :
    AtLeast (fun x => framed h (content x)) h.minLen := by
  intro x b hb
  obtain ⟨front, body, _, hfront, rfl⟩ := framed_ok.mp hb
  have hfrontLen : h.minLen ≤ front.length := (head_ok hfront).minLen_le
  rw [List.length_append]
  omega

/-- The same for entries, which are put in order between the head and the wire. -/
theorem entries_atLeast {key : κ → Encoder Unit} {value : β → Encoder Unit} :
    AtLeast (entries type h key value) h.minLen := by
  intro es b hb
  obtain ⟨_, sorted, front, _, _, _, hfront, rfl⟩ := entries_ok.mp hb
  have hfrontLen : h.minLen ≤ front.length := (head_ok hfront).minLen_le
  rw [List.length_append]
  omega

/-- The flag is there in any case, and possibly nothing else. -/
theorem ofOption_optional_atLeast {content : Shape → α → Encoder Unit} {target : Shape}
    (happend : ∀ x, AppendsOnly (content target x)) :
    AtLeast (ofOption type content (.optional target)) 1 := by
  intro x b hb
  cases x with
  | none =>
    rw [ofOption, standalone_append] at hb
    cases hb
    exact Nat.le_refl 1
  | some x =>
    obtain ⟨p, _, rfl⟩ := (ofOption_some_ok (happend x)).mp hb
    exact Nat.succ_le_succ (Nat.zero_le p.length)

/-- Without a flag there must be a value. -/
theorem ofOption_pointer_atLeast {content : Shape → α → Encoder Unit} {target : Shape}
    (hcontent : AtLeast (content target) len) :
    AtLeast (ofOption type content (.pointer target)) len := by
  intro x b hb
  cases x with
  | none => cases hb
  | some x => exact hcontent x b hb

end Kinds

end Encoder

namespace Schema

open Encoder

/-- The first field and the other ones add up, unless the first one is omitted. -/
theorem Fields.encode_cons_atLeast {info : FieldInfo} {schema : Schema α} {rest : Fields β}
    {shapes : Shape.Fields} (hresolve : (Fields.cons info schema rest).resolve = .ok shapes)
    (hfield : ∀ shape, schema.resolve info.directive = .ok shape →
      AtLeast (schema.encode shape) shape.exactLen)
    (hrest : ∀ shapes, rest.resolve = .ok shapes → AtLeast (rest.encode shapes) shapes.exactLen) :
    AtLeast ((Fields.cons info schema rest).encode shapes) shapes.exactLen := by
  rintro ⟨x, xs⟩ b hb
  rcases Fields.resolve_cons.mp hresolve with ⟨_, restShapes, hrestShapes, rfl⟩ |
    ⟨_, shape, restShapes, hshape, hrestShapes, rfl⟩
  · rw [Fields.encode] at hb
    exact hrest restShapes hrestShapes xs b hb
  · obtain ⟨p, t, hp, ht, rfl⟩ := Fields.encode_present_ok.mp hb
    have hfieldLen : shape.exactLen ≤ p.length := hfield shape hshape x p hp
    have hrestLen : restShapes.exactLen ≤ t.length := hrest restShapes hrestShapes xs t ht
    rw [Shape.Fields.exactLen, List.length_append]
    omega

mutual

/-- Nothing that is written along a resolved shape is shorter than the shape says. -/
theorem encode_atLeast : {α : Type} → (schema : Schema α) → {d : Directive} → {shape : Shape} →
    schema.resolve d = .ok shape → AtLeast (schema.encode shape) shape.exactLen
  | _, .uint _, _, _, hresolve => by
    intro n b hb
    rw [encode] at hb
    exact (ofUint_forms hb).exactLen_le hresolve
  | _, .array _ elem _, _, _, hresolve => by
    obtain ⟨_, elemShape, helem, _, rfl⟩ := resolve_array.mp hresolve
    intro items b hb
    rw [encode] at hb
    exact ofArray_atLeast (encode_atLeast elem helem) (elem.encode_appendsOnly elemShape) items b hb
  | _, .vector _ _, _, _, hresolve => by
    obtain ⟨head, elemShape, _, _, _, rfl⟩ := resolve_vector.mp hresolve
    intro items b hb
    rw [encode] at hb
    exact framed_atLeast items b hb
  | _, .map _ _ _ _ _, _, _, hresolve => by
    obtain ⟨head, keyShape, valueShape, _, _, _, _, _, rfl⟩ := resolve_map.mp hresolve
    intro dict b hb
    rw [encode] at hb
    exact entries_atLeast dict.entries b hb
  | _, .box _ content, _, _, hresolve => by
    obtain ⟨_, target, hcontent, rfl⟩ := resolve_box.mp hresolve
    intro x b hb
    rw [encode] at hb
    exact encode_atLeast content hcontent x b hb
  | _, .option _ content, _, _, hresolve => by
    intro x b hb
    rw [encode] at hb
    -- With a flag the content does not count, and without one nothing else does.
    rcases resolve_option.mp hresolve with ⟨_, target, _, rfl⟩ | ⟨_, target, hcontent, rfl⟩
    · exact ofOption_optional_atLeast (content.encode_appendsOnly target) x b hb
    · exact ofOption_pointer_atLeast (encode_atLeast content hcontent) x b hb
  | _, .record _ fields _ _, _, _, hresolve => by
    obtain ⟨_, shapes, hfields, _, rfl⟩ := resolve_record.mp hresolve
    intro x b hb
    rw [encode] at hb
    exact Fields.encode_atLeast fields hfields x b (ofRecord_ok.mp hb).2
  | _, .custom _, _, _, hresolve => by
    obtain ⟨_, rfl⟩ := resolve_custom.mp hresolve
    exact fun _ b _ => Nat.zero_le b.length

/-- By induction on the fields. -/
theorem Fields.encode_atLeast : {α : Type} → (fields : Fields α) → {shapes : Shape.Fields} →
    fields.resolve = .ok shapes → AtLeast (fields.encode shapes) shapes.exactLen
  | _, .nil, _, hresolve => by
    obtain rfl := Fields.resolve_nil.mp hresolve
    exact fun _ b _ => Nat.zero_le b.length
  | _, .cons _ schema rest, _, hresolve =>
    Fields.encode_cons_atLeast hresolve (fun _ => Schema.encode_atLeast schema)
      (fun _ => Fields.encode_atLeast rest)

end

end Schema

/-! ## Nothing shorter is decoded -/

namespace Decoder

/-- Whenever the decoder succeeds, it has taken at least so many bytes. -/
def AtLeast (d : Context → Decoder α) (len : Nat) : Prop :=
  ∀ ctx c x c', d ctx c = .ok x c' → c.consumed + len ≤ c'.consumed

section Kinds

variable {type : String} {shape : Shape} {len : Nat}

/-- What has been taken is a form of the number. -/
theorem ofUint_atLeast {t : UintType} {d : Directive}
    (hresolve : (Schema.uint t).resolve d = .ok shape) :
    AtLeast (fun ctx => ofUint t ctx shape) shape.exactLen := by
  intro ctx c n c' hrun
  obtain ⟨b, hform, hadv⟩ := ofUint_ok.mp hrun
  have hlen : shape.exactLen ≤ b.length := hform.exactLen_le hresolve
  rw [hadv.consumed]
  omega

/-- Elements one after the other, each of which has moved the cursor far enough. -/
theorem items_atLeast {elem : Context → Decoder α} (helem : AtLeast elem len) {ctx : Context}
    {c c' : Cursor} {xs : List α} (h : Items ctx elem c xs c') :
    c.consumed + len * xs.length ≤ c'.consumed := by
  induction h with
  | nil => exact Nat.le_refl _
  | cons hrun _ ih =>
    have hfirst := helem _ _ _ _ hrun
    rw [List.length_cons, Nat.mul_succ]
    omega

/-- An array has as many elements as its type, which is also the length in the shape. -/
theorem ofArray_atLeast {elem : Context → Shape → Decoder α} {length : Nat}
    (helem : AtLeast (fun ctx => elem ctx shape) len) :
    AtLeast (fun ctx => ofArray type elem length ctx (.array shape length)) (len * length) := by
  intro ctx c xs c' hrun
  obtain ⟨elemShape, heq, hitems⟩ := ofArray_ok.mp hrun
  cases heq
  have hlen := items_atLeast helem hitems
  rwa [xs.property] at hlen

/-- The content may be empty, the head is not. -/
theorem ofHead_atLeast {head : Head} {ctx : Context} {c c' : Cursor} {seq : Sequence}
    (h : Sequence.ofHead ctx head c = .ok seq c') : c.consumed + head.minLen ≤ c'.consumed := by
  obtain ⟨front, c₁, body, hfront, hadv, hbody, _⟩ := Sequence.ofHead_ok.mp h
  have hlen : head.minLen ≤ front.length := hfront.minLen_le
  rw [hbody.consumed, hadv.consumed]
  omega

/-- A vector has taken its head at least. -/
theorem ofVector_atLeast {elem : Context → Shape → Decoder α} {head : Head} :
    AtLeast (fun ctx => ofVector type elem ctx (.vector shape head)) head.minLen := by
  intro ctx c xs c' hrun
  obtain ⟨_, _, seq, heq, hhead, _⟩ := ofVector_ok.mp hrun
  cases heq
  exact ofHead_atLeast hhead

/-- So has a map. -/
theorem ofMap_atLeast {order : KeyOrder κ} {kind : MapKind} {key : Context → Shape → Decoder κ}
    {value : Context → Shape → Decoder β} {keyShape valueShape : Shape} {head : Head} :
    AtLeast (fun ctx => ofMap type (kind.gatherer : Gatherer order β) key value ctx
      (.map keyShape valueShape head)) head.minLen := by
  intro ctx c dict c' hrun
  obtain ⟨_, _, _, seq, _, heq, hhead, _⟩ := ofMap_ok.mp hrun
  cases heq
  exact ofHead_atLeast hhead

/-- A flag has been taken, whatever comes after it. -/
theorem ofOption_optional_atLeast {content : Context → Shape → Decoder α} {target : Shape}
    (hcontent : AtLeast (fun ctx => content ctx target) len) :
    AtLeast (fun ctx => ofOption type content ctx (.optional target)) 1 := by
  intro ctx c x c' hrun
  rcases ofOption_ok.mp hrun with ⟨_, _, _, hflag⟩ | ⟨_, y, c₁, heq, _, hflag, hy⟩ | ⟨_, _, heq, _⟩
  · exact Nat.le_of_eq hflag.consumed.symm
  · cases heq
    have hbehind : c₁.consumed + len ≤ c'.consumed := hcontent ctx c₁ y c' hy
    have hbefore : c₁.consumed = c.consumed + 1 := hflag.consumed
    omega
  · cases heq

/-- There is no flag, so what has been taken is the value. -/
theorem ofOption_pointer_atLeast {content : Context → Shape → Decoder α} {target : Shape}
    (hcontent : AtLeast (fun ctx => content ctx target) len) :
    AtLeast (fun ctx => ofOption type content ctx (.pointer target)) len := by
  intro ctx c x c' hrun
  rcases ofOption_ok.mp hrun with ⟨_, heq, _⟩ | ⟨_, _, _, heq, _⟩ | ⟨_, y, heq, _, hy⟩
  · cases heq
  · cases heq
  · cases heq
    exact hcontent ctx c y c' hy

/-- A hook may have taken nothing, and nothing is what its shape says. -/
theorem ofHook_atLeast {hook : Hook α} : AtLeast (fun ctx => ofHook hook ctx shape) 0 := by
  intro ctx c x c' hrun
  obtain ⟨b, _, _, hadv⟩ := ofHook_ok.mp hrun
  rw [hadv.consumed]
  omega

end Kinds

end Decoder

namespace Schema

open Decoder

/-- The cursor is moved by the first field and then by the other ones. -/
theorem Fields.decode_cons_atLeast {info : FieldInfo} {schema : Schema α} {rest : Fields β}
    {shapes : Shape.Fields} (hresolve : (Fields.cons info schema rest).resolve = .ok shapes)
    (hfield : ∀ shape, schema.resolve info.directive = .ok shape →
      AtLeast (fun ctx => schema.decode ctx shape) shape.exactLen)
    (hrest : ∀ shapes, rest.resolve = .ok shapes →
      AtLeast (fun ctx => rest.decode ctx shapes) shapes.exactLen) :
    AtLeast (fun ctx => (Fields.cons info schema rest).decode ctx shapes) shapes.exactLen := by
  intro ctx c x c' hrun
  -- Whether the first field is on the wire is told by the directive, and by the shape in the same
  -- way.
  rcases Fields.resolve_cons.mp hresolve with ⟨_, restShapes, hrestShapes, rfl⟩ |
    ⟨_, shape, restShapes, hshape, hrestShapes, rfl⟩
  · rcases Fields.decode_ok.mp hrun with ⟨_, _, _, _, _, heq, _⟩ | ⟨_, _, _, heq, _, hxs⟩
    · cases heq
    · cases heq
      exact hrest restShapes hrestShapes ctx c x.2 c' hxs
  · rcases Fields.decode_ok.mp hrun with ⟨_, _, _, _, c₁, heq, hx, hxs⟩ | ⟨_, _, _, heq, _⟩
    · cases heq
      have hfieldLen := hfield shape hshape _ _ _ _ hx
      have hrestLen := hrest restShapes hrestShapes _ _ _ _ hxs
      rw [Shape.Fields.exactLen]
      omega
    · cases heq

mutual

/-- Nothing that is decoded along a resolved shape is shorter than the shape says. -/
theorem decode_atLeast : {α : Type} → (schema : Schema α) → {d : Directive} → {shape : Shape} →
    schema.resolve d = .ok shape → AtLeast (fun ctx => schema.decode ctx shape) shape.exactLen
  | _, .uint _, _, _, hresolve => by
    simp only [decode]
    exact ofUint_atLeast hresolve
  | _, .array _ elem _, _, _, hresolve => by
    obtain ⟨_, elemShape, helem, _, rfl⟩ := resolve_array.mp hresolve
    simp only [decode, Shape.exactLen]
    exact ofArray_atLeast (decode_atLeast elem helem)
  | _, .vector _ _, _, _, hresolve => by
    obtain ⟨head, elemShape, _, _, _, rfl⟩ := resolve_vector.mp hresolve
    simp only [decode, Shape.exactLen]
    exact ofVector_atLeast
  | _, .map _ _ _ _ _, _, _, hresolve => by
    obtain ⟨head, keyShape, valueShape, _, _, _, _, _, rfl⟩ := resolve_map.mp hresolve
    simp only [decode, Shape.exactLen]
    exact ofMap_atLeast
  | _, .box _ content, _, _, hresolve => by
    obtain ⟨_, target, hcontent, rfl⟩ := resolve_box.mp hresolve
    simp only [decode, Shape.exactLen]
    exact decode_atLeast content hcontent
  | _, .option _ content, _, _, hresolve => by
    rcases resolve_option.mp hresolve with ⟨_, target, hcontent, rfl⟩ | ⟨_, target, hcontent, rfl⟩
    · simp only [decode, Shape.exactLen]
      exact ofOption_optional_atLeast (decode_atLeast content hcontent)
    · simp only [decode, Shape.exactLen]
      exact ofOption_pointer_atLeast (decode_atLeast content hcontent)
  | _, .record _ fields _ _, _, _, hresolve => by
    obtain ⟨_, shapes, hfields, _, rfl⟩ := resolve_record.mp hresolve
    simp only [decode, Shape.exactLen]
    exact Fields.decode_atLeast fields hfields
  | _, .custom _, _, _, hresolve => by
    obtain ⟨_, rfl⟩ := resolve_custom.mp hresolve
    simp only [decode, Shape.exactLen]
    exact ofHook_atLeast

/-- By induction on the fields. -/
theorem Fields.decode_atLeast : {α : Type} → (fields : Fields α) → {shapes : Shape.Fields} →
    fields.resolve = .ok shapes → AtLeast (fun ctx => fields.decode ctx shapes) shapes.exactLen
  | _, .nil, _, hresolve => by
    obtain rfl := Fields.resolve_nil.mp hresolve
    intro ctx c x c' hrun
    simp only [Fields.decode, pure_ok] at hrun
    have hstay : c.consumed + 0 = c'.consumed := by rw [← hrun.2, Nat.add_zero]
    exact Nat.le_of_eq hstay
  | _, .cons _ schema rest, _, hresolve =>
    Fields.decode_cons_atLeast hresolve (fun _ => Schema.decode_atLeast schema)
      (fun _ => Fields.decode_atLeast rest)

end

end Schema

end TlsWire
