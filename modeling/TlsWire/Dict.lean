import TlsWire.KeyOrder

/-!
# Dictionaries

A `Dict` holds at most one value for each key. Its entries are kept strictly ascending in the
order of their keys, so two dictionaries with the same entries are equal, however they were built.

* `mem_entries_insert` — inserting adds an entry, takes away the one it replaces, keeps the rest;
* `ext_mem` — a dictionary is determined by the entries in it.
-/

namespace TlsWire

/-- Whether the entries are strictly ascending by key. -/
def Ascending {κ β : Type} (order : KeyOrder κ) (es : List (κ × β)) : Prop :=
  es.Pairwise fun a b => order.cmp a.1 b.1 = .lt

/-- Entries strictly ascending by key. -/
structure Dict {κ : Type} (order : KeyOrder κ) (β : Type) where
  entries : List (κ × β)
  ascending : Ascending order entries

namespace Dict

variable {κ β : Type} {order : KeyOrder κ}

def empty : Dict order β where
  entries := []
  ascending := .nil

def size (d : Dict order β) : Nat := d.entries.length

/-- Puts an entry at its place among ascending entries, over one with the same key. -/
def place (order : KeyOrder κ) (k : κ) (v : β) : List (κ × β) → List (κ × β)
  | [] => [(k, v)]
  | e :: es =>
    match order.cmp k e.1 with
    | .lt => (k, v) :: e :: es
    | .eq => (k, v) :: es
    | .gt => e :: place order k v es

theorem ne_of_lt {a b : κ × β} (h : order.cmp a.1 b.1 = .lt) : b.1 ≠ a.1 := by
  intro hab
  rw [hab, order.cmp_self] at h
  cases h

theorem mem_place {k : κ} {v : β} {e : κ × β} {es : List (κ × β)} (h : Ascending order es) :
    e ∈ place order k v es ↔ e = (k, v) ∨ e ∈ es ∧ e.1 ≠ k := by
  induction es with
  | nil => simp [place]
  | cons d ds ih =>
    obtain ⟨hd, hds⟩ := List.pairwise_cons.mp h
    rw [place]
    split
    case h_1 hlt =>
      have hfresh : ∀ x ∈ d :: ds, x.1 ≠ k := by
        intro x hx
        rcases List.mem_cons.mp hx with rfl | hx
        · exact ne_of_lt (a := (k, v)) hlt
        · exact ne_of_lt (a := (k, v)) (order.lt_trans hlt (hd x hx))
      rw [List.mem_cons]
      exact or_congr_right ⟨fun hx => ⟨hx, hfresh e hx⟩, And.left⟩
    case h_2 heq =>
      have hk : k = d.1 := order.cmp_eq_iff.mp heq
      have hfresh : ∀ x ∈ ds, x.1 ≠ k := fun x hx => hk ▸ ne_of_lt (hd x hx)
      rw [List.mem_cons, List.mem_cons]
      refine or_congr_right ⟨fun hx => ⟨.inr hx, hfresh e hx⟩, ?_⟩
      rintro ⟨rfl | hx, hne⟩
      · exact absurd hk.symm hne
      · exact hx
    case h_3 hgt =>
      have hne : d.1 ≠ k := (ne_of_lt (b := (k, v)) (order.gt_iff_lt.mp hgt)).symm
      rw [List.mem_cons, ih hds, List.mem_cons]
      constructor
      · rintro (rfl | rfl | ⟨hx, hxk⟩)
        · exact .inr ⟨.inl rfl, hne⟩
        · exact .inl rfl
        · exact .inr ⟨.inr hx, hxk⟩
      · rintro (rfl | ⟨rfl | hx, hxk⟩)
        · exact .inr (.inl rfl)
        · exact .inl rfl
        · exact .inr (.inr ⟨hx, hxk⟩)

theorem ascending_place (k : κ) (v : β) {es : List (κ × β)} (h : Ascending order es) :
    Ascending order (place order k v es) := by
  induction es with
  | nil => simp [place, Ascending]
  | cons d ds ih =>
    obtain ⟨hd, hds⟩ := List.pairwise_cons.mp h
    rw [place]
    split
    case h_1 hlt =>
      refine List.pairwise_cons.mpr ⟨fun e he => ?_, h⟩
      rcases List.mem_cons.mp he with rfl | he
      · exact hlt
      · exact order.lt_trans hlt (hd e he)
    case h_2 heq =>
      have hk : k = d.1 := order.cmp_eq_iff.mp heq
      exact List.pairwise_cons.mpr ⟨fun e he => hk ▸ hd e he, hds⟩
    case h_3 hgt =>
      refine List.pairwise_cons.mpr ⟨fun e he => ?_, ih hds⟩
      rcases (mem_place hds).mp he with rfl | ⟨he, _⟩
      · exact order.gt_iff_lt.mp hgt
      · exact hd e he

/-- Sets the value under a key. -/
def insert (d : Dict order β) (k : κ) (v : β) : Dict order β where
  entries := place order k v d.entries
  ascending := ascending_place k v d.ascending

/-- Whether there is a value under the key. -/
def contains (d : Dict order β) (k : κ) : Bool := d.entries.any fun e => order.same k e.1

/-- The dictionary of the given entries. Of two entries with one key the later one counts. -/
def ofEntries (es : List (κ × β)) : Dict order β :=
  es.foldl (fun d e => d.insert e.1 e.2) empty

@[simp] theorem entries_empty : (empty : Dict order β).entries = [] := rfl

theorem mem_entries_insert {d : Dict order β} {k : κ} {v : β} {e : κ × β} :
    e ∈ (d.insert k v).entries ↔ e = (k, v) ∨ e ∈ d.entries ∧ e.1 ≠ k :=
  mem_place d.ascending

@[ext] theorem ext {a b : Dict order β} (h : a.entries = b.entries) : a = b := by
  cases a
  cases b
  simp_all

/-- Two ascending entry lists with the same members are the same list. -/
theorem eq_of_mem_iff {es fs : List (κ × β)} (hes : Ascending order es)
    (hfs : Ascending order fs) (h : ∀ e, e ∈ es ↔ e ∈ fs) : es = fs := by
  induction es generalizing fs with
  | nil =>
    cases fs with
    | nil => rfl
    | cons f fs => exact absurd ((h f).mpr List.mem_cons_self) (by simp)
  | cons e es ih =>
    cases fs with
    | nil => exact absurd ((h e).mp List.mem_cons_self) (by simp)
    | cons f fs =>
      obtain ⟨he, htail⟩ := List.pairwise_cons.mp hes
      obtain ⟨hf, htail'⟩ := List.pairwise_cons.mp hfs
      have hef : e = f := by
        rcases List.mem_cons.mp ((h e).mp List.mem_cons_self) with hmem | hmem
        · exact hmem
        rcases List.mem_cons.mp ((h f).mpr List.mem_cons_self) with hmem' | hmem'
        · exact hmem'.symm
        · exact absurd rfl (ne_of_lt (order.lt_trans (hf e hmem) (he f hmem')))
      subst hef
      congr 1
      refine ih htail htail' fun x => ?_
      have hx := h x
      simp only [List.mem_cons] at hx
      constructor
      · intro hmem
        rcases hx.mp (.inr hmem) with rfl | hmem'
        · exact absurd rfl (ne_of_lt (he x hmem))
        · exact hmem'
      · intro hmem
        rcases hx.mpr (.inr hmem) with rfl | hmem'
        · exact absurd rfl (ne_of_lt (hf x hmem))
        · exact hmem'

/-- A dictionary is determined by the entries in it. -/
theorem ext_mem {a b : Dict order β} (h : ∀ e, e ∈ a.entries ↔ e ∈ b.entries) : a = b :=
  ext (eq_of_mem_iff a.ascending b.ascending h)

end Dict

/-- Dictionaries compare as the lists of their entries. -/
def KeyOrder.dict {κ β : Type} {order : KeyOrder κ} (keys : KeyOrder κ) (values : KeyOrder β) :
    KeyOrder (Dict order β) :=
  (keys.pair values).list.onKey Dict.entries fun _ _ => Dict.ext

end TlsWire
