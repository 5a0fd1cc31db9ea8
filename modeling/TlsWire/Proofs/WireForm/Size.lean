import TlsWire.Proofs.Parts
import TlsWire.Proofs.Schema.Resolve
import TlsWire.Proofs.WireForm

/-!
# The size of what has a wire form

Every element of a vector and every entry of a map takes at least one byte. So a limit on elements
that is no less than the length of a form is never reached (`Schema.WireForm.sizeWithin`).
-/

namespace TlsWire

variable {α β κ : Type}

namespace WireForm

variable {form : Shape → α → Bytes → Prop} {shape : Shape} {b : Bytes} {limit : Nat}

/-- What holds of everything with a form of limited length holds of the items of a longer form. -/
theorem forall_of_pieces {form : α → Bytes → Prop} {xs : List α} {p : α → Prop}
    (h : Pieces form xs b) (hlimit : b.length ≤ limit)
    (hp : ∀ x b, form x b → b.length ≤ limit → p x) : ∀ x ∈ xs, p x := by
  intro x hx
  obtain ⟨b', hb', hlen⟩ := h.exists_form hx
  exact hp x b' hb' (Nat.le_trans hlen hlimit)

/-- Behind a head there are no more items than there are bytes, and no longer ones. -/
theorem Framed.forall_items {form : α → Bytes → Prop} {head : Head} {xs : List α} {p : α → Prop}
    (h : Framed head (Pieces (Solid form) xs) b) (hlimit : b.length ≤ limit)
    (hp : ∀ x b, form x b → b.length ≤ limit → p x) :
    xs.length ≤ limit ∧ ∀ x ∈ xs, p x := by
  cases h with
  | @intro front body _ hbody =>
    rw [List.length_append] at hlimit
    have hshort : body.length ≤ limit := by omega
    -- Behind a head no item is empty, so there are at least as many bytes as items.
    have hlen := hbody.length_le fun _ _ _ hsolid => hsolid.2
    exact ⟨by omega, forall_of_pieces hbody hshort fun x b hx => hp x b hx.1⟩

/-- Neither the key nor the value is longer than their entry. -/
theorem OfEntry.both {key : κ → Bytes → Prop} {value : β → Bytes → Prop} {e : κ × β}
    {p : κ → Prop} {q : β → Prop} (h : OfEntry key value e b) (hlimit : b.length ≤ limit)
    (hp : ∀ x b, key x b → b.length ≤ limit → p x)
    (hq : ∀ y b, value y b → b.length ≤ limit → q y) : p e.1 ∧ q e.2 := by
  cases h with
  | intro ha hb =>
    rw [List.length_append] at hlimit
    exact ⟨hp _ _ ha (by omega), hq _ _ hb (by omega)⟩

end WireForm

namespace Schema

mutual

/-- A form of limited length has no larger vector or map in it. -/
theorem WireForm.sizeWithin {limit : Nat} : {α : Type} → (schema : Schema α) → {d : Directive} →
    {shape : Shape} → schema.resolve d = .ok shape → (x : α) → (b : Bytes) →
    schema.WireForm shape x b → b.length ≤ limit → schema.EachPart (SizeWithin limit) x
  | _, .uint _, _, _, _, _, _, _, _ => by
    simp only [EachPart, SizeWithin]
  | _, .array _ elem _, _, _, hresolve, _, _, hform, hlimit => by
    obtain ⟨_, elemShape, helem, _, rfl⟩ := resolve_array.mp hresolve
    simp only [WireForm, EachPart, SizeWithin, true_and] at hform ⊢
    cases hform with
    | intro h => exact WireForm.forall_of_pieces h hlimit (WireForm.sizeWithin elem helem)
  | _, .vector _ elem, _, _, hresolve, _, _, hform, hlimit => by
    obtain ⟨head, elemShape, _, helem, _, rfl⟩ := resolve_vector.mp hresolve
    simp only [WireForm, EachPart, SizeWithin] at hform ⊢
    cases hform with
    | intro h => exact h.forall_items hlimit (WireForm.sizeWithin elem helem)
  | _, .map _ _ _ key value, _, _, hresolve, _, _, hform, hlimit => by
    obtain ⟨head, keyShape, valueShape, _, hkey, _, hvalue, _, rfl⟩ := resolve_map.mp hresolve
    simp only [WireForm, EachPart, SizeWithin] at hform ⊢
    cases hform with
    | intro hperm h =>
      -- An entry is no longer than the map, and neither part of it is longer than the entry.
      have hentry : ∀ e b,
          WireForm.OfEntry (key.WireForm keyShape) (value.WireForm valueShape) e b →
          b.length ≤ limit →
          key.EachPart (SizeWithin limit) e.1 ∧ value.EachPart (SizeWithin limit) e.2 :=
        fun e b h hlen =>
          h.both hlen (WireForm.sizeWithin key hkey) (WireForm.sizeWithin value hvalue)
      obtain ⟨hlen, hall⟩ := h.forall_items hlimit hentry
      rw [Dict.size, ← hperm.length_eq]
      -- The form has the entries in an order that need not be that of the dictionary.
      exact ⟨hlen, fun e he => hall e (hperm.mem_iff.mpr he)⟩
  | _, .box _ content, _, _, hresolve, _, _, hform, hlimit => by
    obtain ⟨_, target, hcontent, rfl⟩ := resolve_box.mp hresolve
    simp only [WireForm, EachPart, SizeWithin, true_and] at hform ⊢
    cases hform with
    | intro h => exact WireForm.sizeWithin content hcontent _ _ h hlimit
  | _, .option _ content, _, _, hresolve, _, _, hform, hlimit => by
    simp only [WireForm, EachPart, SizeWithin, true_and] at hform ⊢
    rcases resolve_option.mp hresolve with ⟨_, target, hcontent, rfl⟩ | ⟨_, target, hcontent, rfl⟩
    · cases hform with
      | absent => exact nofun
      | present h =>
        rintro _ ⟨⟩
        exact WireForm.sizeWithin content hcontent _ _ h (Nat.le_of_succ_le hlimit)
    · cases hform with
      | required h =>
        rintro _ ⟨⟩
        exact WireForm.sizeWithin content hcontent _ _ h hlimit
  | _, .record _ fields _ _, _, _, hresolve, _, _, hform, hlimit => by
    obtain ⟨_, shapes, hfields, _, rfl⟩ := resolve_record.mp hresolve
    simp only [WireForm, EachPart, SizeWithin, true_and] at hform ⊢
    cases hform with
    | intro h => exact Fields.WireForm.sizeWithin fields hfields _ _ h hlimit
  | _, .custom _, _, _, _, _, _, _, _ => by
    simp only [EachPart, SizeWithin]

theorem Fields.WireForm.sizeWithin {limit : Nat} : {α : Type} → (fields : Fields α) →
    {shapes : Shape.Fields} → fields.resolve = .ok shapes → (x : α) → (b : Bytes) →
    fields.WireForm shapes x b → b.length ≤ limit → fields.EachPart (SizeWithin limit) x
  | _, .nil, _, _, _, _, _, _ => by
    simp only [Fields.EachPart]
  | _, .cons _ schema rest, _, hresolve, (x, xs), _, hform, hlimit => by
    simp only [Fields.WireForm, Fields.EachPart] at hform ⊢
    rcases Fields.resolve_cons.mp hresolve with ⟨homit, restShapes, hrest, rfl⟩ |
      ⟨_, shape, restShapes, hshape, hrest, rfl⟩
    · cases hform with
      | absent h =>
        exact ⟨fun hon => absurd homit hon, Fields.WireForm.sizeWithin rest hrest _ _ h hlimit⟩
    · cases hform with
      | present hx hxs =>
        -- The forms of the field and of the rest are parts of the whole form.
        rw [List.length_append] at hlimit
        exact ⟨fun _ => Schema.WireForm.sizeWithin schema hshape _ _ hx (by omega),
          Fields.WireForm.sizeWithin rest hrest _ _ hxs (by omega)⟩

end

end Schema

end TlsWire
