import TlsWire.Proofs.Decode.Success
import TlsWire.Proofs.Hook

/-!
# Elements that hooks read

Nothing frames what a hook reads, so a vector or map goes by what the hook says it took. A hook that
takes nothing would be asked for ever, so its elements are refused and only empty content is decoded
(`Schema.decode_vector_of_takesNothing`). A hook that takes all there is leaves nothing for a second
element (`Schema.decode_vector_of_takesAll`, `Schema.decode_map_of_takesAll`), although its shape is
not greedy and such a vector has any shape that others have.
-/

namespace TlsWire

variable {α κ β : Type}

/-! ## Runs of elements -/

namespace Elements

variable {ctx : Context} {elem : Context → Decoder α} {count : Nat} {c : Cursor} {as : List α}

/-- Behind an element that leaves nothing there is no other. -/
theorem length_le_one (h : ∀ ctx c a c', elem ctx c = .ok a c' → c'.rest = [])
    (hrun : Elements ctx elem count c as) : as.length ≤ 1 := by
  cases hrun with
  | nil _ => exact Nat.zero_le 1
  | cons _ _ hfirst _ tail =>
    cases tail with
    | nil _ => exact Nat.le_refl 1
    | cons hrest _ _ _ _ => exact absurd (h _ _ _ _ hfirst) hrest

/-- An element that takes nothing is refused, so there can be none. -/
theorem eq_nil (h : ∀ ctx c a c', elem ctx c = .ok a c' → c'.remaining = c.remaining)
    (hrun : Elements ctx elem count c as) : as = [] := by
  cases hrun with
  | nil _ => rfl
  | cons _ _ hfirst hsolid _ =>
    rw [h _ _ _ _ hfirst] at hsolid
    exact absurd hsolid (Nat.lt_irrefl _)

end Elements

/-! ## Hooks -/

namespace Decoder

variable {hook : Hook α} {ctx : Context} {shape : Shape} {c c' : Cursor} {x : α}

/-- A hook that takes all there is leaves its scope empty. -/
theorem rest_of_takesAll (h : hook.TakesAll) (hrun : ofHook hook ctx shape c = .ok x c') :
    c'.rest = [] := by
  obtain ⟨b, _, hdecode, hadv⟩ := ofHook_ok.mp hrun
  have hlength : b.length = c.rest.length := h _ _ _ hdecode
  rw [hadv.rest, List.length_append] at hlength
  exact List.eq_nil_of_length_eq_zero (by omega)

/-- A hook that takes nothing leaves its scope as it is. -/
theorem remaining_of_takesNothing (h : hook.TakesNothing)
    (hrun : ofHook hook ctx shape c = .ok x c') : c'.remaining = c.remaining := by
  obtain ⟨b, _, hdecode, hadv⟩ := ofHook_ok.mp hrun
  have hlength : b.length = 0 := h _ _ _ hdecode
  rw [hadv.remaining, hlength, Nat.zero_add]

end Decoder

namespace Schema

open Decoder

variable {hook : Hook α} {type : String} {ctx : Context} {shape : Shape} {c c' : Cursor}

/-- Such a hook has no elements: content that is not empty is refused. -/
theorem decode_vector_of_takesNothing (h : hook.TakesNothing) {xs : List α}
    (hrun : (vector type (custom hook)).decode ctx shape c = .ok xs c') : xs = [] := by
  rw [decode] at hrun
  obtain ⟨_, _, _, _, _, helems⟩ := ofVector_ok.mp hrun
  refine helems.eq_nil fun ctx c x c' helem => ?_
  rw [decode] at helem
  exact remaining_of_takesNothing h helem

/-- Such a hook has one element at the most. -/
theorem decode_vector_of_takesAll (h : hook.TakesAll) {xs : List α}
    (hrun : (vector type (custom hook)).decode ctx shape c = .ok xs c') : xs.length ≤ 1 := by
  rw [decode] at hrun
  obtain ⟨_, _, _, _, _, helems⟩ := ofVector_ok.mp hrun
  refine helems.length_le_one fun ctx c x c' helem => ?_
  rw [decode] at helem
  exact rest_of_takesAll h helem

/-- The value of the first entry takes what would be the second one. -/
theorem decode_map_of_takesAll (h : hook.TakesAll) {kind : MapKind} {order : KeyOrder κ}
    {key : Schema κ} {dict : Dict order α}
    (hrun : (map type kind order key (custom hook)).decode ctx shape c = .ok dict c') :
    dict.size ≤ 1 := by
  rw [decode] at hrun
  obtain ⟨_, _, _, _, es, _, _, helems, hperm⟩ := ofMap_ok.mp hrun
  rw [Dict.size, ← hperm.length_eq]
  refine helems.length_le_one fun ctx c e c' helem => ?_
  -- The key stands in front, so the value is what takes the rest.
  obtain ⟨c₁, _, hvalue⟩ := entry_ok.mp helem
  rw [decode] at hvalue
  exact rest_of_takesAll h hvalue

/-- The two bytes are one element. They are none to a hook that only looks at them. -/
example :
    (vector "Vec<Rest>" (custom .rest)).unmarshalWith (.head 1) {} [2, 5, 6] = .ok (3, [[5, 6]]) ∧
    (vector "Vec<Peek>" (custom .peek)).unmarshalWith (.head 1) {} [2, 5, 6] =
      .error (.malformed [⟨"[]", 1⟩] .emptyElement) := by
  decide +kernel

end Schema

end TlsWire
