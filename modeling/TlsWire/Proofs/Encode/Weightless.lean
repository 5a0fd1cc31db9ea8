import TlsWire.Proofs.Schema.MinLen
import TlsWire.Proofs.Schema.Unambiguous

/-!
# Values without bytes

Whether the values of a type take any bytes as elements, keys or values does not depend on the value
(`Schema.weightless`). If the least length is zero, nothing is ever written
(`Schema.writesNothing_of_weightless`): with every vector and map behind a head that takes bytes,
there is no number, flag or head anywhere. Otherwise something always is, since nothing shorter than
the least length is written (`Schema.ne_nil_of_not_weightless`).
-/

namespace TlsWire

variable {α β : Type}

namespace Shape

/-- Every vector and map in the shape has a head that takes bytes. -/
def Headed (shape : Shape) : Prop := ∀ head ∈ shape.heads, head.minLen ≠ 0

/-- Every vector and map in the fields has a head that takes bytes. -/
def Fields.Headed (fields : Fields) : Prop := ∀ head ∈ fields.heads, head.minLen ≠ 0

/-- Only a missing head takes no bytes, and only greedy shapes have one. -/
theorem Unambiguous.headed_of_bounded {shape : Shape} (h : shape.Unambiguous)
    (hbounded : shape.isGreedy = false) : shape.Headed := by
  -- There are few heads to look at: widths from one to three, and the varint.
  have hvalid : ∀ head ∈ validHeads, head ≠ .unbounded → head.minLen ≠ 0 := by decide
  intro head hmem
  refine hvalid head (h.heads_valid head hmem) ?_
  rintro rfl
  exact h.headed hbounded hmem

/-- The cap is far from zero, so a product is zero only if a factor is. -/
theorem cappedMul_eq_zero {a n : Nat} : cappedMul a n = 0 ↔ a = 0 ∨ n = 0 := by
  have hcap : 0 < lengthCap := by decide
  rw [← Nat.mul_eq_zero, cappedMul]
  omega

/-- A sum is zero only if both summands are. -/
theorem cappedAdd_eq_zero {a b : Nat} : cappedAdd a b = 0 ↔ a = 0 ∧ b = 0 := by
  have hcap : 0 < lengthCap := by decide
  rw [cappedAdd]
  omega

end Shape

namespace Encoder

/-- Whatever is written, it is nothing. -/
def WritesNothing (encode : α → Encoder Unit) : Prop :=
  ∀ x b, (encode x).standalone = .ok b → b = []

/-- An array writes nothing if its elements do, or if it has none. -/
theorem ofArray_writesNothing {type : String} {elem : Shape → α → Encoder Unit} {shape : Shape}
    {length : Nat} (h : WritesNothing (elem shape) ∨ length = 0)
    (happend : ∀ x, AppendsOnly (elem shape x)) :
    WritesNothing (fun items : Tuple α length => ofArray type elem (.array shape length) items.val)
    := by
  intro items b hb
  have hpieces := (each_ok happend).mp hb
  cases h with
  | inl helem => exact hpieces.eq_nil helem
  | inr hlength =>
    obtain ⟨xs, hxs⟩ := items
    obtain rfl : xs = [] := List.eq_nil_of_length_eq_zero (hxs.trans hlength)
    exact Pieces.nil_iff.mp hpieces

/-- An option without a flag writes what its content does. -/
theorem ofOption_writesNothing {type : String} {content : Shape → α → Encoder Unit} {target : Shape}
    (h : WritesNothing (content target)) :
    WritesNothing (ofOption type content (.pointer target)) := by
  intro x b hb
  cases x with
  | none => cases hb
  | some x => exact h x b hb

end Encoder

namespace Schema

open Encoder

/-- The lengths of the fields add up to zero, so each of them is zero. -/
theorem Fields.encode_cons_writesNothing {info : FieldInfo} {schema : Schema α} {rest : Fields β}
    {shapes : Shape.Fields} (hresolve : (Fields.cons info schema rest).resolve = .ok shapes)
    (hheaded : shapes.Headed) (hzero : shapes.minLen = 0)
    (hfield : ∀ shape, schema.resolve info.directive = .ok shape → shape.Headed →
      shape.minLen = 0 → WritesNothing (schema.encode shape))
    (hrest : ∀ shapes, rest.resolve = .ok shapes → shapes.Headed → shapes.minLen = 0 →
      WritesNothing (rest.encode shapes)) :
    WritesNothing ((Fields.cons info schema rest).encode shapes) := by
  rintro ⟨x, xs⟩ b hb
  rcases Fields.resolve_cons.mp hresolve with ⟨_, restShapes, hrestShapes, rfl⟩ |
    ⟨_, shape, restShapes, hshape, hrestShapes, rfl⟩
  · rw [Fields.encode] at hb
    exact hrest restShapes hrestShapes hheaded hzero xs b hb
  · obtain ⟨p, t, hp, ht, rfl⟩ := Fields.encode_present_ok.mp hb
    rw [Shape.Fields.Headed, Shape.Fields.heads, List.forall_mem_append] at hheaded
    obtain ⟨hshapeZero, hrestZero⟩ := Shape.cappedAdd_eq_zero.mp hzero
    rw [hfield shape hshape hheaded.1 hshapeZero x p hp,
      hrest restShapes hrestShapes hheaded.2 hrestZero xs t ht]
    rfl

mutual

/-- If there is no least number of bytes for a value, then no value takes any. -/
theorem encode_writesNothing : {α : Type} → (schema : Schema α) → schema.HookFree →
    {d : Directive} → {shape : Shape} → schema.resolve d = .ok shape → shape.Headed →
    shape.minLen = 0 → WritesNothing (schema.encode shape)
  | _, .uint t, _, _, _, hresolve, _, hzero => by
    have hbytes : t.bits / 8 ≠ 0 := by cases t <;> decide
    rcases resolve_uint.mp hresolve with ⟨_, rfl⟩ | ⟨_, rfl⟩
    -- A number takes bytes in either form, and so does every head and every flag.
    · exact absurd hzero hbytes
    · cases hzero
  | _, .array _ elem _, hfree, _, _, hresolve, hheaded, hzero => by
    obtain ⟨_, elemShape, helem, _, rfl⟩ := resolve_array.mp hresolve
    intro items b hb
    rw [encode] at hb
    refine ofArray_writesNothing ?_ (elem.encode_appendsOnly elemShape) items b hb
    exact (Shape.cappedMul_eq_zero.mp hzero).imp_left
      (encode_writesNothing elem hfree helem hheaded)
  | _, .vector _ _, _, _, _, hresolve, hheaded, hzero => by
    obtain ⟨head, _, _, _, _, rfl⟩ := resolve_vector.mp hresolve
    exact absurd hzero (hheaded head List.mem_cons_self)
  | _, .map _ _ _ _ _, _, _, _, hresolve, hheaded, hzero => by
    obtain ⟨head, _, _, _, _, _, _, _, rfl⟩ := resolve_map.mp hresolve
    exact absurd hzero (hheaded head List.mem_cons_self)
  | _, .box _ content, hfree, _, _, hresolve, hheaded, hzero => by
    obtain ⟨_, target, hcontent, rfl⟩ := resolve_box.mp hresolve
    intro x b hb
    rw [encode] at hb
    exact encode_writesNothing content hfree hcontent hheaded hzero x b hb
  | _, .option _ content, hfree, _, _, hresolve, hheaded, hzero => by
    rcases resolve_option.mp hresolve with ⟨_, target, _, rfl⟩ | ⟨_, target, hcontent, rfl⟩
    · cases hzero
    · intro x b hb
      rw [encode] at hb
      have htarget := encode_writesNothing content hfree hcontent hheaded hzero
      exact ofOption_writesNothing htarget x b hb
  | _, .record _ fields _ _, hfree, _, _, hresolve, hheaded, hzero => by
    obtain ⟨_, shapes, hfields, _, rfl⟩ := resolve_record.mp hresolve
    intro x b hb
    rw [encode] at hb
    exact Fields.encode_writesNothing fields hfree hfields hheaded hzero x b (ofRecord_ok.mp hb).2
  | _, .custom _, hfree, _, _, _, _, _ => hfree.elim

theorem Fields.encode_writesNothing : {α : Type} → (fields : Fields α) → fields.HookFree →
    {shapes : Shape.Fields} → fields.resolve = .ok shapes → shapes.Headed → shapes.minLen = 0 →
    WritesNothing (fields.encode shapes)
  | _, .nil, _, _, _, _, _ => by
    intro x b hb
    cases hb
    rfl
  | _, .cons _ schema rest, hfree, _, hresolve, hheaded, hzero =>
    Fields.encode_cons_writesNothing hresolve hheaded hzero
      (fun _ => Schema.encode_writesNothing schema hfree.1)
      (fun _ => Fields.encode_writesNothing rest hfree.2)

end

/-- Whether elements, keys or values of the type take no bytes. -/
def weightless (schema : Schema α) : Bool :=
  match schema.resolve .default with
  | .ok shape => shape.minLen == 0
  | .error _ => false

/-- The shape that the type has as an element decides. -/
theorem weightless_iff {schema : Schema α} {shape : Shape}
    (hresolve : schema.resolve .default = .ok shape) :
    schema.weightless = true ↔ shape.minLen = 0 := by
  rw [weightless, hresolve]
  exact beq_iff_eq

/-- An element is either always without bytes or never. -/
theorem writesNothing_of_weightless {schema : Schema α} {shape : Shape} (hfree : schema.HookFree)
    (hresolve : schema.resolve .default = .ok shape) (hbounded : shape.isGreedy = false)
    (h : schema.weightless = true) : WritesNothing (schema.encode shape) :=
  schema.encode_writesNothing hfree hresolve
    ((unambiguous_of_resolve schema hresolve).headed_of_bounded hbounded)
    ((weightless_iff hresolve).mp h)

/-- If the least length is not zero, nothing is written in no bytes. -/
theorem ne_nil_of_not_weightless {schema : Schema α} {shape : Shape}
    (hresolve : schema.resolve .default = .ok shape) (h : ¬ schema.weightless = true) (x : α) :
    (schema.encode shape x).standalone ≠ .ok [] := by
  intro hnil
  have hexact : shape.exactLen ≤ 0 := schema.encode_atLeast hresolve x [] hnil
  have hmin : shape.minLen ≤ shape.exactLen := shape.minLen_capped.le
  exact h ((weightless_iff hresolve).mpr (by omega))

end Schema

end TlsWire
