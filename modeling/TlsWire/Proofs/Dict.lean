import TlsWire.Proofs.Run
import Mathlib.Data.List.Perm.Lattice
import Mathlib.Data.List.Perm.Subperm

/-!
# Gathering entries

A dictionary is determined by its entries in any order (`Dict.ext_perm`), and inserting entries
with new keys adds exactly these entries. Both ways of gathering come to the same thing: entries
are gathered exactly when their keys differ, and what is gathered then are these entries
(`MapKind.gather_ok`).
-/

namespace TlsWire

variable {κ β : Type} {order : KeyOrder κ}

namespace Dict

/-- The keys of a list of entries. -/
abbrev keys (es : List (κ × β)) : List κ := es.map Prod.fst

theorem nodup_keys (d : Dict order β) : (keys d.entries).Nodup := by
  rw [List.Nodup, List.pairwise_map]
  exact d.ascending.imp fun hlt => (ne_of_lt hlt).symm

theorem nodup_entries (d : Dict order β) : d.entries.Nodup := List.Nodup.of_map _ d.nodup_keys

/-- The order in which entries are listed makes no difference to a dictionary. -/
theorem ext_perm {a b : Dict order β} (h : a.entries.Perm b.entries) : a = b :=
  ext_mem fun _ => h.mem_iff

/-- Inserting under a new key adds an entry and takes none away. -/
theorem entries_insert_perm {d : Dict order β} {k : κ} {v : β} (hnew : k ∉ keys d.entries) :
    (d.insert k v).entries.Perm ((k, v) :: d.entries) := by
  have hne : ∀ e ∈ d.entries, e.1 ≠ k := fun e he h => hnew (h ▸ List.mem_map_of_mem he)
  have hnodup : ((k, v) :: d.entries).Nodup :=
    List.nodup_cons.mpr ⟨fun hmem => hne _ hmem rfl, d.nodup_entries⟩
  -- No entry occurs twice on either side, so it is enough that they have the same entries.
  refine (List.perm_ext_iff_of_nodup (nodup_entries _) hnodup).mpr fun e => ?_
  rw [mem_entries_insert, List.mem_cons]
  exact or_congr_right ⟨And.left, fun he => ⟨he, hne e he⟩⟩

/-- Inserting entries with new keys, one after another, adds all of them. -/
theorem entries_foldl_insert_perm {es : List (κ × β)} {d : Dict order β}
    (h : (keys (d.entries ++ es)).Nodup) :
    (es.foldl (fun d e => d.insert e.1 e.2) d).entries.Perm (d.entries ++ es) := by
  -- By induction on the entries to come, for every dictionary of those before.
  induction es generalizing d with
  | nil => simp
  | cons e es ih =>
    have hnew : e.1 ∉ keys d.entries := by
      rw [keys, List.map_append, List.map_cons] at h
      exact fun hmem => (List.nodup_append.mp h).2.2 _ hmem _ List.mem_cons_self rfl
    have hinsert : (d.insert e.1 e.2).entries.Perm (e :: d.entries) := entries_insert_perm hnew
    -- The entry has moved from the list to the dictionary, and the keys are the same as before.
    have hmiddle : ((d.insert e.1 e.2).entries ++ es).Perm (d.entries ++ e :: es) :=
      (hinsert.append_right es).trans List.perm_middle.symm
    refine (ih ?_).trans hmiddle
    exact (hmiddle.map Prod.fst).nodup_iff.mpr h

/-- Entries with different keys all end up in their dictionary. -/
theorem entries_ofEntries_perm {es : List (κ × β)} (h : (keys es).Nodup) :
    (ofEntries es : Dict order β).entries.Perm es :=
  entries_foldl_insert_perm h

/-- Inserting makes up no entries. A key that is known may replace one, hence no equality. -/
theorem subset_foldl_insert {es : List (κ × β)} {d : Dict order β} :
    (es.foldl (fun d e => d.insert e.1 e.2) d).entries ⊆ d.entries ++ es := by
  induction es generalizing d with
  | nil => simp
  | cons e es ih =>
    refine fun x hx => ?_
    rcases List.mem_append.mp (ih hx) with hx | hx
    · rcases mem_entries_insert.mp hx with rfl | ⟨hx, _⟩
      · exact List.mem_append_right _ List.mem_cons_self
      · exact List.mem_append_left _ hx
    · exact List.mem_append_right _ (List.mem_cons_of_mem _ hx)

/-- A dictionary has no other entries than those it is made of. -/
theorem subset_ofEntries {es : List (κ × β)} : (ofEntries es : Dict order β).entries ⊆ es :=
  subset_foldl_insert

theorem size_ofEntries_le {es : List (κ × β)} : (ofEntries es : Dict order β).size ≤ es.length :=
  (List.subperm_of_subset (nodup_entries _) subset_ofEntries).length_le

end Dict

/-! ## Gatherers -/

/-- How the state of a gatherer stands for the entries gathered so far, latest first. An entry is
turned away exactly when its key has been gathered. -/
structure Gatherer.View (g : Gatherer order β) where
  Holds : g.State → List (κ × β) → Prop
  start : Holds g.start []
  add_new {s : g.State} {es : List (κ × β)} {k : κ} (v : β) (h : Holds s es)
    (hnew : k ∉ Dict.keys es) : ∃ s', g.add s k v = some s' ∧ Holds s' ((k, v) :: es)
  add_known {s : g.State} {es : List (κ × β)} {k : κ} (v : β) (h : Holds s es)
    (hknown : k ∈ Dict.keys es) : g.add s k v = none
  finish {s : g.State} {es : List (κ × β)} (h : Holds s es) (hnodup : (Dict.keys es).Nodup) :
    (g.finish s).entries.Perm es

namespace Gatherer

theorem any_same {k : κ} {es : List (κ × β)} :
    es.any (fun e => order.same k e.1) = true ↔ k ∈ Dict.keys es := by
  simp only [List.any_eq_true, order.same_iff, Dict.keys, List.mem_map]
  constructor
  · rintro ⟨e, he, rfl⟩
    exact ⟨e, he, rfl⟩
  · rintro ⟨e, he, rfl⟩
    exact ⟨e, he, rfl⟩

/-- An ordered gatherer is the dictionary of what it holds. -/
def View.ofOrdered : View (ordered : Gatherer order β) where
  Holds d es := d.entries.Perm es
  start := .nil
  add_new {d es k} v h hnew := by
    have hnew' : k ∉ Dict.keys d.entries := fun hmem => hnew ((h.map Prod.fst).mem_iff.mp hmem)
    have hcontains : ¬ d.contains k = true := fun hc => hnew' (any_same.mp hc)
    refine ⟨d.insert k v, by simp [ordered, hcontains], ?_⟩
    exact (Dict.entries_insert_perm hnew').trans (h.cons (k, v))
  add_known {d es k} v h hknown := by
    have hcontains : d.contains k = true := any_same.mpr ((h.map Prod.fst).mem_iff.mpr hknown)
    simp [ordered, hcontains]
  finish h _ := h

/-- A hashed gatherer is the list of what it holds. -/
def View.ofHashed : View (hashed : Gatherer order β) where
  Holds s es := s = es
  start := rfl
  add_new {s es k} v h hnew := by
    subst h
    have hany : ¬ s.any (fun e => order.same k e.1) = true := fun ha => hnew (any_same.mp ha)
    exact ⟨(k, v) :: s, by simp only [hashed, hany]; rfl, rfl⟩
  add_known {s es k} v h hknown := by
    subst h
    have hany : s.any (fun e => order.same k e.1) = true := any_same.mpr hknown
    simp only [hashed, hany, if_true]
  finish h hnodup := by
    subst h
    -- The list has its keys only once, so all of it ends up in the dictionary.
    exact Dict.entries_ofEntries_perm hnodup

/-- Adds an entry, or fails if there is one with its key. -/
def gather (g : Gatherer order β) (duplicate : DecodeError) (s : g.State) (e : κ × β) :
    Except DecodeError g.State :=
  match g.add s e.1 e.2 with
  | some s => .ok s
  | none => .error duplicate

variable {g : Gatherer order β} {duplicate : DecodeError}

/-- An entry with a new key is gathered. -/
theorem View.gather_new (view : View g) (duplicate : DecodeError) {s : g.State}
    {known : List (κ × β)} {e : κ × β} (h : view.Holds s known) (hnew : e.1 ∉ Dict.keys known) :
    ∃ s', g.gather duplicate s e = .ok s' ∧ view.Holds s' (e :: known) := by
  obtain ⟨s', hadd, hholds⟩ := view.add_new e.2 h hnew
  exact ⟨s', by rw [gather, hadd], hholds⟩

/-- An entry with a known key is reported. -/
theorem View.gather_known (view : View g) {s : g.State} {known : List (κ × β)} {e : κ × β}
    (h : view.Holds s known) (hknown : e.1 ∈ Dict.keys known) :
    g.gather duplicate s e = .error duplicate := by
  rw [gather, view.add_known e.2 h hknown]

/-- A run that succeeds has met no key twice, and holds everything it has met. -/
theorem View.holds_of_foldlM (view : View g) {es known : List (κ × β)} {s s' : g.State}
    (h : view.Holds s known) (hnodup : (Dict.keys known).Nodup)
    (hrun : es.foldlM (g.gather duplicate) s = .ok s') :
    view.Holds s' (es.reverse ++ known) ∧ (Dict.keys (es.reverse ++ known)).Nodup := by
  -- By induction on the run, for every state and the entries it holds.
  induction es generalizing s known with
  | nil =>
    cases hrun
    exact ⟨h, hnodup⟩
  | cons e es ih =>
    rw [List.foldlM_cons, Except.bind_ok] at hrun
    obtain ⟨s₁, hstep, hrun⟩ := hrun
    -- The step has succeeded, so the key was new.
    have hnew : e.1 ∉ Dict.keys known := fun hknown => by
      rw [view.gather_known h hknown] at hstep
      cases hstep
    obtain ⟨s₂, hstep', hholds⟩ := view.gather_new duplicate h hnew
    rw [hstep] at hstep'
    cases hstep'
    rw [List.reverse_cons, List.append_assoc]
    exact ih hholds (List.nodup_cons.mpr ⟨hnew, hnodup⟩) hrun

/-- A run over entries with different keys succeeds. -/
theorem View.exists_foldlM (view : View g) (duplicate : DecodeError) {es known : List (κ × β)}
    {s : g.State} (h : view.Holds s known) (hnodup : (Dict.keys (es ++ known)).Nodup) :
    ∃ s', es.foldlM (g.gather duplicate) s = .ok s' := by
  induction es generalizing s known with
  | nil => exact ⟨s, rfl⟩
  | cons e es ih =>
    -- The entry has moved from the ones to come to the ones that are known.
    have hmiddle : (Dict.keys (es ++ e :: known)).Nodup :=
      ((List.perm_middle.map Prod.fst).nodup_iff).mpr hnodup
    have hnew : e.1 ∉ Dict.keys known := by
      rw [Dict.keys, List.map_append, List.map_cons] at hmiddle
      exact (List.nodup_cons.mp (List.nodup_append.mp hmiddle).2.1).1
    obtain ⟨s₁, hstep, hholds⟩ := view.gather_new duplicate h hnew
    obtain ⟨s', hrun⟩ := ih hholds hmiddle
    refine ⟨s', ?_⟩
    rw [List.foldlM_cons, hstep]
    exact hrun

/-- The only thing that can be wrong with a run is a key that it has met. -/
theorem eq_duplicate_of_foldlM {es : List (κ × β)} {s : g.State} {e : DecodeError}
    (h : es.foldlM (g.gather duplicate) s = .error e) : e = duplicate := by
  induction es generalizing s with
  | nil => cases h
  | cons entry es ih =>
    rw [List.foldlM_cons, Except.bind_error] at h
    -- Either this entry is turned away or a later one.
    rcases h with hstep | ⟨s', _, hrun⟩
    · unfold gather at hstep
      split at hstep
      · cases hstep
      · cases hstep
        rfl
    · exact ih hrun

end Gatherer

/-- Either kind of map has a view. -/
def MapKind.view : (kind : MapKind) → (kind.gatherer : Gatherer order β).View
  | .ordered => .ofOrdered
  | .hashed => .ofHashed

/-- Entries are gathered exactly when their keys differ, and make up the dictionary that has
them. -/
theorem MapKind.gather_ok (kind : MapKind) {duplicate : DecodeError} {es : List (κ × β)}
    {dict : Dict order β} :
    (∃ s, es.foldlM ((kind.gatherer : Gatherer order β).gather duplicate) kind.gatherer.start
        = .ok s ∧ kind.gatherer.finish s = dict) ↔ es.Perm dict.entries := by
  have hstart := (kind.view : (kind.gatherer : Gatherer order β).View).start
  constructor
  · rintro ⟨s, hrun, rfl⟩
    obtain ⟨hholds, hnodup⟩ := kind.view.holds_of_foldlM hstart List.nodup_nil hrun
    rw [List.append_nil] at hholds hnodup
    exact (List.reverse_perm es).symm.trans (kind.view.finish hholds hnodup).symm
  · intro hperm
    have hkeys : (Dict.keys (es ++ [])).Nodup := by
      rw [List.append_nil]
      exact (hperm.map Prod.fst).nodup_iff.mpr dict.nodup_keys
    obtain ⟨s, hrun⟩ := kind.view.exists_foldlM duplicate hstart hkeys
    obtain ⟨hholds, hnodup⟩ := kind.view.holds_of_foldlM hstart List.nodup_nil hrun
    rw [List.append_nil] at hholds hnodup
    refine ⟨s, hrun, Dict.ext_perm ?_⟩
    exact (kind.view.finish hholds hnodup).trans ((List.reverse_perm es).trans hperm)

/-- Where a key occurs twice, gathering fails. -/
theorem MapKind.gather_error (kind : MapKind) {duplicate : DecodeError} {es : List (κ × β)}
    (h : ¬ (Dict.keys es).Nodup) :
    es.foldlM ((kind.gatherer : Gatherer order β).gather duplicate) kind.gatherer.start =
      .error duplicate := by
  cases hrun : es.foldlM ((kind.gatherer : Gatherer order β).gather duplicate)
      kind.gatherer.start with
  | error e => rw [Gatherer.eq_duplicate_of_foldlM hrun]
  -- What has been gathered has its keys only once, and it is what was to be gathered.
  | ok s =>
    have hperm : es.Perm (kind.gatherer.finish s).entries := kind.gather_ok.mp ⟨s, hrun, rfl⟩
    exact absurd ((hperm.map Prod.fst).nodup_iff.mpr (Dict.nodup_keys _)) h

end TlsWire
