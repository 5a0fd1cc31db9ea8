import TlsWire.Proofs.Encode.Standalone
import Mathlib.Data.List.Perm.Basic

/-!
# Entries in wire order

The forms of the entries of a map are put in the one order in which their keys ascend strictly
(`EncodedEntry.arrange_ok`); there is none when two keys have the same form. So what is written
depends on the entries and not on the order they come in (`EncodedEntry.eq_of_perm`).
-/

namespace TlsWire

variable {κ β : Type}

namespace EncodedEntry

/-- The order on the wire: no two entries have the same key. -/
abbrev Ascending (es : List EncodedEntry) : Prop := es.Pairwise fun a b => a.key < b.key

theorem key_le {a b : EncodedEntry} : le a b = true ↔ a.key ≤ b.key := by
  rw [le, decide_eq_true_eq]

/-- Sorting puts the keys in order, equal ones next to each other. -/
theorem pairwise_mergeSort (es : List EncodedEntry) :
    (es.mergeSort le).Pairwise fun a b => a.key ≤ b.key := by
  -- The order of the keys is transitive and total.
  refine (List.pairwise_mergeSort ?_ ?_ es).imp key_le.mp
  · intro a b c hab hbc
    exact key_le.mpr (List.le_trans (key_le.mp hab) (key_le.mp hbc))
  · intro a b
    rw [Bool.or_eq_true]
    exact (List.le_total a.key b.key).imp key_le.mpr key_le.mpr

theorem lt_of_le_of_ne {a b : Bytes} (hle : a ≤ b) (hne : a ≠ b) : a < b := by
  rw [← List.not_le]
  exact fun hge => hne (List.le_antisymm hle hge)

/-- Among sorted entries it is enough to compare neighbours. -/
theorem anyRepeated_eq_false {es : List EncodedEntry}
    (h : es.Pairwise fun a b => a.key ≤ b.key) : anyRepeated es = false ↔ Ascending es := by
  -- By induction on the sorted entries. A first entry is compared with its neighbour only.
  induction es with
  | nil => simp [anyRepeated]
  | cons a es ih =>
    obtain ⟨ha, hes⟩ := List.pairwise_cons.mp h
    cases es with
    | nil => simp [anyRepeated]
    | cons b es =>
      rw [anyRepeated, Bool.or_eq_false_iff, ih hes, beq_eq_false_iff_ne]
      show _ ↔ List.Pairwise _ (a :: b :: es)
      rw [List.pairwise_cons]
      -- The rest ascends, so what is below the neighbour is below all of it.
      refine and_congr_left fun hasc => ?_
      constructor
      · intro hne c hc
        have hab : a.key < b.key := lt_of_le_of_ne (ha b List.mem_cons_self) hne
        rcases List.mem_cons.mp hc with rfl | hc
        · exact hab
        · exact List.lt_trans hab ((List.pairwise_cons.mp hasc).1 c hc)
      · intro hlt heq
        have hab := hlt b List.mem_cons_self
        rw [heq] at hab
        exact List.lt_irrefl _ hab

/-- Entries have at most one order in which their keys ascend. -/
theorem eq_of_perm {es fs : List EncodedEntry} (h : es.Perm fs) (hes : Ascending es)
    (hfs : Ascending fs) : es = fs :=
  h.eq_of_pairwise (fun _ _ _ _ hab hba => absurd hba (List.lt_asymm hab)) hes hfs

/-- Keys that ascend strictly are all different. -/
theorem Ascending.nodup {es : List EncodedEntry} (h : Ascending es) : (es.map key).Nodup := by
  rw [List.Nodup, List.pairwise_map]
  refine h.imp fun hlt heq => ?_
  rw [heq] at hlt
  exact List.lt_irrefl _ hlt

/-- Keys in order that are all different ascend strictly. -/
theorem ascending_of_nodup {es : List EncodedEntry} (h : es.Pairwise fun a b => a.key ≤ b.key)
    (hnodup : (es.map key).Nodup) : Ascending es := by
  rw [List.Nodup, List.pairwise_map] at hnodup
  exact List.Pairwise.imp₂ (fun _ _ => lt_of_le_of_ne) h hnodup

/-- Arranging succeeds exactly when there is an order in which the keys ascend, and finds this
order. -/
theorem arrange_ok {type : String} {es sorted : List EncodedEntry} :
    arrange type es = .ok sorted ↔ sorted.Perm es ∧ Ascending sorted := by
  have hperm := List.mergeSort_perm es le
  have hle := pairwise_mergeSort es
  have harrange : arrange type es = if anyRepeated (es.mergeSort le) then
      .error (.duplicateKey type) else .ok (es.mergeSort le) := rfl
  rw [harrange]
  constructor
  · intro h
    split at h
    case isTrue => cases h
    case isFalse hrep =>
      cases h
      exact ⟨hperm, (anyRepeated_eq_false hle).mp (Bool.eq_false_iff.mpr hrep)⟩
  · rintro ⟨hsorted, hasc⟩
    -- Sorting finds an order in which the keys ascend, and there is no other one.
    have hnodup : ((es.mergeSort le).map key).Nodup :=
      ((hperm.trans hsorted.symm).map key).nodup_iff.mpr hasc.nodup
    have hasc' := ascending_of_nodup hle hnodup
    rw [(anyRepeated_eq_false hle).mpr hasc', eq_of_perm (hperm.trans hsorted.symm) hasc' hasc]
    rfl

/-- Nothing but two keys with the same form can keep entries from being put in order. -/
theorem exists_arrange {type : String} {es : List EncodedEntry} (h : (es.map key).Nodup) :
    ∃ sorted, arrange type es = .ok sorted := by
  have hperm := List.mergeSort_perm es le
  have hasc := ascending_of_nodup (pairwise_mergeSort es) ((hperm.map key).nodup_iff.mpr h)
  exact ⟨_, arrange_ok.mpr ⟨hperm, hasc⟩⟩

/-! ## The forms of entries -/

section Forms

variable {key : κ → Encoder Unit} {value : β → Encoder Unit} {es : List (κ × β)}
  {forms : List EncodedEntry}

/-- The form of an entry is that of its key and that of its value. -/
structure FormOf (key : κ → Encoder Unit) (value : β → Encoder Unit) (e : κ × β)
    (f : EncodedEntry) : Prop where
  key : (key e.1).standalone = .ok f.key
  value : (value e.2).standalone = .ok f.value

/-- Entries are encoded one by one, each to a form of its own. -/
theorem ofEntries_ok :
    ofEntries key value es = .ok forms ↔ List.Forall₂ (FormOf key value) es forms := by
  induction es generalizing forms with
  | nil => rw [ofEntries, Except.ok.injEq, List.forall₂_nil_left_iff, eq_comm]
  | cons e es ih =>
    rw [ofEntries, List.forall₂_cons_left_iff]
    simp only [Except.bind_ok, Except.pure_ok, ih]
    constructor
    · rintro ⟨a, ha, b, hb, fs, hfs, rfl⟩
      exact ⟨⟨a, b⟩, fs, ⟨ha, hb⟩, hfs, rfl⟩
    · rintro ⟨f, fs, ⟨ha, hb⟩, hfs, rfl⟩
      exact ⟨f.key, ha, f.value, hb, fs, hfs, rfl⟩

/-- An error among the entries is the error of one key or of one value. -/
theorem exists_of_ofEntries_error {err : EncodeError} (h : ofEntries key value es = .error err) :
    ∃ e ∈ es, (key e.1).standalone = .error err ∨ (value e.2).standalone = .error err := by
  induction es with
  | nil => cases h
  | cons e es ih =>
    rw [ofEntries] at h
    simp only [Except.bind_error, Except.pure_ne_error, and_false, exists_false, or_false] at h
    -- The key of the first entry, its value, or an entry behind it.
    rcases h with ha | ⟨a, _, hb | ⟨b, _, hes⟩⟩
    · exact ⟨e, List.mem_cons_self, .inl ha⟩
    · exact ⟨e, List.mem_cons_self, .inr hb⟩
    · obtain ⟨e', he', herr⟩ := ih hes
      exact ⟨e', List.mem_cons_of_mem _ he', herr⟩

theorem exists_form_of_mem (h : List.Forall₂ (FormOf key value) es forms) {e : κ × β}
    (he : e ∈ es) : ∃ f ∈ forms, FormOf key value e f := by
  induction h with
  | nil => cases he
  | @cons d f es fs hdf _ ih =>
    rcases List.mem_cons.mp he with rfl | he
    · exact ⟨f, List.mem_cons_self, hdf⟩
    · obtain ⟨f', hf', hef'⟩ := ih he
      exact ⟨f', List.mem_cons_of_mem _ hf', hef'⟩

theorem exists_entry_of_mem (h : List.Forall₂ (FormOf key value) es forms) {f : EncodedEntry}
    (hf : f ∈ forms) : ∃ e ∈ es, FormOf key value e f := by
  induction h with
  | nil => cases hf
  | @cons e g es fs heg _ ih =>
    rcases List.mem_cons.mp hf with rfl | hf
    · exact ⟨e, List.mem_cons_self, heg⟩
    · obtain ⟨e', he', hef'⟩ := ih hf
      exact ⟨e', List.mem_cons_of_mem _ he', hef'⟩

/-- Forms in wire order are the forms of the entries in some order. -/
theorem exists_entries_of_perm {sorted : List EncodedEntry}
    (h : List.Forall₂ (FormOf key value) es forms) (hperm : sorted.Perm forms) :
    ∃ es', es'.Perm es ∧ List.Forall₂ (FormOf key value) es' sorted := by
  obtain ⟨es', hes', hforms⟩ := List.perm_comp_forall₂ hperm h.flip
  exact ⟨es', hforms, hes'.flip⟩

/-- Entries may be replaced by others that have their forms. -/
theorem forms_replace {S : κ × β → κ × β → Prop} {fs : List (κ × β)}
    (h : List.Forall₂ (FormOf key value) es forms) (hes : List.Forall₂ S es fs)
    (hform : ∀ e e' f, S e e' → FormOf key value e f → FormOf key value e' f) :
    List.Forall₂ (FormOf key value) fs forms := by
  induction hes generalizing forms with
  | nil => exact h
  | cons he _ ih =>
    cases h with
    | cons hhead htail => exact .cons (hform _ _ _ he hhead) (ih htail)

/-- Forms one after another are the pieces that the entries contribute. -/
theorem pieces_flatMap (h : List.Forall₂ (FormOf key value) es forms) :
    Pieces (fun e p => ∃ f, FormOf key value e f ∧ p = f.bytes) es (forms.flatMap bytes) := by
  induction h with
  | nil => exact .nil
  | @cons e f es fs hef _ ih => exact .cons ⟨f, hef, rfl⟩ ih

end Forms

end EncodedEntry

namespace Encoder

variable {type : String} {h : Head} {key : κ → Encoder Unit} {value : β → Encoder Unit}
  {es : List (κ × β)}

theorem standalone_each_append {xs : List EncodedEntry} :
    (each (fun e => append e.bytes) xs).standalone = .ok (xs.flatMap EncodedEntry.bytes) := by
  rw [each_ok fun _ => .append]
  induction xs with
  | nil => exact .nil
  | cons x xs ih => exact .cons standalone_append ih

/-- Entries are encoded, then arranged, then written after their head. -/
theorem standalone_entries :
    (entries type h key value es).standalone = (do
      let forms ← EncodedEntry.ofEntries key value es
      let sorted ← EncodedEntry.arrange type forms
      (framed h (append (sorted.flatMap EncodedEntry.bytes))).standalone) := by
  unfold entries
  cases EncodedEntry.ofEntries key value es with
  | error e => rfl
  | ok forms =>
    simp only [bind, Except.bind]
    cases EncodedEntry.arrange type forms with
    | error e => rfl
    | ok sorted =>
      simp only
      rw [standalone_framed, standalone_framed, standalone_each_append, standalone_append]

/-- A map is written exactly when each entry has a form and the forms can be arranged: the forms in
wire order stand behind a head that states their length. -/
theorem entries_ok {b : Bytes} :
    (entries type h key value es).standalone = .ok b ↔
      ∃ forms sorted front, List.Forall₂ (EncodedEntry.FormOf key value) es forms ∧
        sorted.Perm forms ∧ EncodedEntry.Ascending sorted ∧
        (head h (sorted.flatMap EncodedEntry.bytes).length).standalone = .ok front ∧
        b = front ++ sorted.flatMap EncodedEntry.bytes := by
  rw [standalone_entries]
  simp only [Except.bind_ok, EncodedEntry.ofEntries_ok, EncodedEntry.arrange_ok, framed_ok,
    standalone_append, Except.ok.injEq]
  constructor
  · rintro ⟨forms, hforms, sorted, ⟨hperm, hasc⟩, front, _, rfl, hfront, rfl⟩
    exact ⟨forms, sorted, front, hforms, hperm, hasc, hfront, rfl⟩
  · rintro ⟨forms, sorted, front, hforms, hperm, hasc, hfront, rfl⟩
    exact ⟨forms, hforms, sorted, ⟨hperm, hasc⟩, front, _, rfl, hfront, rfl⟩

end Encoder

end TlsWire
