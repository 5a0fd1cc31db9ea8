import TlsWire.Hook.Raw
import TlsWire.Hook.Refusing
import TlsWire.Proofs.Encode.Entries
import Mathlib.Data.List.Nodup

/-!
# Entries in any order

What is written for the entries of a map does not depend on the order they come in
(`Encoder.entries_perm`). Where all keys and values have forms, a repeated key is reported exactly
when two of the keys have the same form (`Encoder.entries_duplicateKey`); where some have none, an
error of one of these is passed on (`Encoder.exists_of_entries_error`), also when that error is
about a repeated key of a map inside. `Encoder.ofMap_canonical` puts these together.
-/

namespace TlsWire

variable {κ β : Type}

namespace EncodedEntry

variable {key : κ → Encoder Unit} {value : β → Encoder Unit} {es fs : List (κ × β)}
  {forms : List EncodedEntry}

/-- Every key and every value has a form. -/
def AllEncode (key : κ → Encoder Unit) (value : β → Encoder Unit) (es : List (κ × β)) : Prop :=
  ∀ e ∈ es, (∃ b, (key e.1).standalone = .ok b) ∧ ∃ b, (value e.2).standalone = .ok b

/-- Two of the keys have the same form. -/
def KeysCollide (key : κ → Encoder Unit) (es : List (κ × β)) : Prop :=
  ∃ a b, [a, b].Sublist es ∧
    ∃ form, (key a.1).standalone = .ok form ∧ (key b.1).standalone = .ok form

/-- Where every key and every value has a form, the entries have forms one by one. -/
theorem exists_forms (h : AllEncode key value es) :
    ∃ forms, List.Forall₂ (FormOf key value) es forms := by
  induction es with
  | nil => exact ⟨[], .nil⟩
  | cons e es ih =>
    obtain ⟨⟨a, ha⟩, b, hb⟩ := h e List.mem_cons_self
    obtain ⟨forms, hforms⟩ := ih fun x hx => h x (List.mem_cons_of_mem _ hx)
    exact ⟨⟨a, b⟩ :: forms, .cons ⟨ha, hb⟩ hforms⟩

/-- And the other way round: forms of the entries are forms of their keys and values. -/
theorem allEncode_of_forms (h : List.Forall₂ (FormOf key value) es forms) :
    AllEncode key value es := by
  intro e he
  obtain ⟨f, _, hform⟩ := exists_form_of_mem h he
  exact ⟨⟨f.key, hform.key⟩, f.value, hform.value⟩

/-- The forms move with their entries. -/
theorem exists_forms_of_perm (hperm : es.Perm fs) (h : List.Forall₂ (FormOf key value) es forms) :
    ∃ forms', List.Forall₂ (FormOf key value) fs forms' ∧ forms'.Perm forms :=
  List.perm_comp_forall₂ hperm.symm h

/-- Two keys have the same form where a form comes twice. -/
theorem keysCollide_iff (h : List.Forall₂ (FormOf key value) es forms) :
    KeysCollide key es ↔ ¬ (forms.map EncodedEntry.key).Nodup := by
  -- The outcomes for the keys are their forms, so that none of them is an error.
  have hkeys : es.map (fun e => (key e.1).standalone) =
      (forms.map EncodedEntry.key).map Except.ok := by
    induction h with
    | nil => rfl
    | cons hform _ ih => rw [List.map_cons, List.map_cons, List.map_cons, ih, hform.key]
  have hnodup : (forms.map EncodedEntry.key).Nodup ↔
      es.Pairwise fun a b => (key a.1).standalone ≠ (key b.1).standalone := by
    have hinjective : Function.Injective (Except.ok : Bytes → Except EncodeError Bytes) :=
      fun _ _ => Except.ok.inj
    rw [← List.nodup_map_iff hinjective, ← hkeys, List.Nodup, List.pairwise_map]
  -- That all are different is said of every pair of entries in their order, and so is a collision.
  rw [hnodup, List.pairwise_iff_forall_sublist]
  constructor
  · intro hcollide hdiffer
    obtain ⟨a, b, hsub, form, ha, hb⟩ := hcollide
    exact hdiffer hsub (ha.trans hb.symm)
  · intro hsame
    by_contra hnone
    refine hsame fun {a b} hsub heq => hnone ?_
    -- The key of an entry that is there has a form.
    have hmem : a ∈ es := hsub.subset List.mem_cons_self
    obtain ⟨form, ha⟩ := (allEncode_of_forms h a hmem).1
    exact ⟨a, b, hsub, form, ha, heq ▸ ha⟩

/-- Sorting fails with a repeated key and with nothing else, and exactly where a form comes twice.
-/
theorem arrange_error {type : String} {err : EncodeError} :
    arrange type forms = .error err ↔
      err = .duplicateKey type ∧ ¬ (forms.map EncodedEntry.key).Nodup := by
  cases harrange : arrange type forms with
  | ok sorted =>
    obtain ⟨hperm, hasc⟩ := arrange_ok.mp harrange
    have hnodup : (forms.map EncodedEntry.key).Nodup := (hperm.map _).nodup_iff.mp hasc.nodup
    simp [hnodup]
  | error err' =>
    have hrepeated : ¬ (forms.map EncodedEntry.key).Nodup := by
      intro hnodup
      obtain ⟨sorted, hsorted⟩ : ∃ sorted, arrange type forms = .ok sorted :=
        exists_arrange hnodup
      rw [hsorted] at harrange
      cases harrange
    -- There is only one error that it could be.
    have herr : err' = .duplicateKey type := by
      unfold arrange at harrange
      simp only at harrange
      split at harrange
      case isTrue =>
        cases harrange
        rfl
      case isFalse => cases harrange
    simp [hrepeated, herr, eq_comm]

end EncodedEntry

namespace Encoder

open EncodedEntry

/-! ## Any buffer -/

/-- An encoder that only appends does behind any buffer what it does from the start. -/
theorem AppendsOnly.run_ok {encoder : Encoder Unit} (h : AppendsOnly encoder) {dst out : Buffer} :
    encoder dst = .ok () out ↔ ∃ b, encoder.standalone = .ok b ∧ out = dst ++ b.toArray := by
  have hrun : encoder.run #[] = encoder #[] := rfl
  rw [h dst, standalone, hrun]
  cases encoder #[] with
  | ok u out' => simp [eq_comm]
  | error err out' => simp

/-- It also fails alike behind any buffer. What it leaves in the buffer is not told. -/
theorem AppendsOnly.run_error {encoder : Encoder Unit} (h : AppendsOnly encoder) {dst : Buffer}
    {err : EncodeError} :
    (∃ out, encoder dst = .error err out) ↔ encoder.standalone = .error err := by
  have hrun : encoder.run #[] = encoder #[] := rfl
  rw [h dst, standalone, hrun]
  cases encoder #[] with
  | ok u out' => simp
  | error err' out' => simp [eq_comm]

/-! ## Maps -/

/-- The only thing that can be wrong with a head is that the length does not fit. -/
theorem head_error {h : Head} {length : Nat} {err : EncodeError}
    (hrun : (head h length).standalone = .error err) : ∃ o, err = .overflow o := by
  cases h with
  | fixed width =>
    rw [head, uint, standalone_emit] at hrun
    cases hencode : Uint.encode width length with
    | ok bytes =>
      rw [hencode] at hrun
      cases hrun
    | error o =>
      rw [hencode] at hrun
      cases hrun
      exact ⟨o, rfl⟩
  | varint =>
    rw [head, varint, standalone_emit] at hrun
    cases hencode : Varint.encode length with
    | ok bytes =>
      rw [hencode] at hrun
      cases hrun
    | error o =>
      rw [hencode] at hrun
      cases hrun
      exact ⟨o, rfl⟩
  | unbounded => cases hrun

section Entries

variable {type : String} {h : Head} {key : κ → Encoder Unit} {value : β → Encoder Unit}
  {es fs : List (κ × β)}

/-- What is written for entries in one order is written for them in every order. -/
theorem entries_perm (hperm : es.Perm fs) {b : Bytes}
    (hrun : (entries type h key value es).standalone = .ok b) :
    (entries type h key value fs).standalone = .ok b := by
  obtain ⟨forms, sorted, front, hforms, hsorted, hasc, hfront, rfl⟩ := entries_ok.mp hrun
  obtain ⟨forms', hforms', hmoved⟩ := exists_forms_of_perm hperm hforms
  -- The forms are in another order, but there is only one in which they ascend.
  have hsorted' : sorted.Perm forms' := hsorted.trans hmoved.symm
  exact entries_ok.mpr ⟨forms', sorted, front, hforms', hsorted', hasc, hfront, rfl⟩

/-- Where everything has a form, nothing but two keys with the same form makes a repeated key. -/
theorem entries_duplicateKey (hall : AllEncode key value es) {t : String} :
    (entries type h key value es).standalone = .error (.duplicateKey t) ↔
      t = type ∧ KeysCollide key es := by
  obtain ⟨forms, hforms⟩ := exists_forms hall
  -- The entries have forms, so there are two steps left, sorting and framing.
  have hrun : (entries type h key value es).standalone = (do
      let sorted ← arrange type forms
      (framed h (append (sorted.flatMap EncodedEntry.bytes))).standalone) := by
    rw [standalone_entries, ofEntries_ok.mpr hforms]
    rfl
  rw [hrun, Except.bind_error, arrange_error, keysCollide_iff hforms,
    EncodeError.duplicateKey.injEq]
  constructor
  · intro hfails
    cases hfails with
    | inl harrange => exact harrange
    | inr hframed =>
      -- Arranged entries fail at most for their length.
      obtain ⟨sorted, _, hframed⟩ := hframed
      rw [framed_error, standalone_append] at hframed
      cases hframed with
      | inl hcontent => cases hcontent
      | inr hhead =>
        obtain ⟨_, _, hhead⟩ := hhead
        obtain ⟨o, ho⟩ := head_error hhead
        cases ho
  · exact .inl

/-- Where a key or a value has no form, an error of one of these is passed on. -/
theorem exists_of_entries_error (hnone : ¬ AllEncode key value es) :
    ∃ e ∈ es, ∃ err, ((key e.1).standalone = .error err ∨ (value e.2).standalone = .error err) ∧
      (entries type h key value es).standalone = .error err := by
  -- Encoding the entries comes first. It must fail, since otherwise everything would have a form.
  cases hforms : ofEntries key value es with
  | ok forms => exact absurd (allEncode_of_forms (ofEntries_ok.mp hforms)) hnone
  | error err =>
    obtain ⟨e, he, herr⟩ := exists_of_ofEntries_error hforms
    refine ⟨e, he, err, herr, ?_⟩
    rw [standalone_entries, hforms]
    rfl

/-- Entries are encoded one after another, so the first failure counts. -/
theorem entries_value_error {k : κ} {v : β} {a : Bytes} {err : EncodeError}
    (hkey : (key k).standalone = .ok a) (hvalue : (value v).standalone = .error err) :
    (entries type h key value ((k, v) :: es)).standalone = .error err := by
  rw [standalone_entries, ofEntries, hkey, hvalue]
  rfl

end Entries

section Maps

variable {type : String} {h : Head} {key : Shape → κ → Encoder Unit}
  {value : Shape → β → Encoder Unit} {keyShape valueShape : Shape} {es fs : List (κ × β)}

/-- Entries in any order are written alike or not at all: in the one order in which the forms of
their keys ascend. If everything has a form then a repeated key is reported exactly when two keys
have the same form, and if something has none then the error is one of those. -/
theorem ofMap_canonical (hperm : es.Perm fs) (dst : Buffer) :
    (∀ out, ofMap type key value (.map keyShape valueShape h) es dst = .ok () out ↔
      ofMap type key value (.map keyShape valueShape h) fs dst = .ok () out) ∧
    (∀ out, ofMap type key value (.map keyShape valueShape h) es dst = .ok () out →
      ∃ es' forms front, es'.Perm es ∧
        List.Forall₂ (FormOf (key keyShape) (value valueShape)) es' forms ∧
        EncodedEntry.Ascending forms ∧
        (head h (forms.flatMap EncodedEntry.bytes).length).standalone = .ok front ∧
        out = dst ++ (front ++ forms.flatMap EncodedEntry.bytes).toArray) ∧
    (AllEncode (key keyShape) (value valueShape) es → ∀ t,
      (∃ out, ofMap type key value (.map keyShape valueShape h) es dst =
        .error (.duplicateKey t) out) ↔ t = type ∧ KeysCollide (key keyShape) es) ∧
    (¬ AllEncode (key keyShape) (value valueShape) es → ∃ e ∈ es, ∃ err,
      ((key keyShape e.1).standalone = .error err ∨
        (value valueShape e.2).standalone = .error err) ∧
      ∃ out, ofMap type key value (.map keyShape valueShape h) es dst = .error err out) := by
  have happend : ∀ es, AppendsOnly (ofMap type key value (.map keyShape valueShape h) es) :=
    fun _ => .ofMap
  refine ⟨fun out => ?_, fun out hrun => ?_, fun hall t => ?_, fun hnone => ?_⟩
  · rw [(happend es).run_ok, (happend fs).run_ok]
    constructor
    · intro hrun
      obtain ⟨b, hb, hout⟩ := hrun
      exact ⟨b, entries_perm hperm hb, hout⟩
    · intro hrun
      obtain ⟨b, hb, hout⟩ := hrun
      exact ⟨b, entries_perm hperm.symm hb, hout⟩
  · obtain ⟨b, hb, hout⟩ := (happend es).run_ok.mp hrun
    obtain ⟨forms, sorted, front, hforms, hsorted, hasc, hfront, rfl⟩ := entries_ok.mp hb
    -- The sorted forms are those of the entries in some order.
    obtain ⟨es', hes', hforms'⟩ := exists_entries_of_perm hforms hsorted
    exact ⟨es', sorted, front, hes', hforms', hasc, hfront, hout⟩
  · rw [(happend es).run_error]
    exact entries_duplicateKey hall
  · obtain ⟨e, he, err, herr, hrun⟩ := exists_of_entries_error hnone
    exact ⟨e, he, err, herr, (happend es).run_error.mpr hrun⟩

/-- Two orders of two entries, two keys with the same form, and a value that has none. -/
theorem ofMap_canonical_options :
    let key : Shape → UInt8 → Encoder Unit := (Schema.custom Hook.tag).encode
    let value : Shape → Option (BitVec 8) → Encoder Unit :=
      (Schema.option "Option<u8>" (.uint .u8)).encode
    let write := fun es => ofMap "BTreeMap<Tag, Option<u8>>" key value
      (.map .custom (.pointer (.integer 8)) (.fixed 1)) es #[]
    (write [(2, some 7#8), (1, some 9#8)] = .ok () #[4, 1, 9, 2, 7] ∧
        write [(1, some 9#8), (2, some 7#8)] = .ok () #[4, 1, 9, 2, 7]) ∧
      (∃ out, write [(1, some 9#8), (17, some 7#8)] =
        .error (.duplicateKey "BTreeMap<Tag, Option<u8>>") out) ∧
      ∃ err out, write [(1, some 9#8), (17, none)] = .error err out := by
  intro key value write
  -- A tag keeps four bits, so that 1 and 17 have the same form.
  have hkey : ∀ k, ∃ b, (key .custom k).standalone = .ok b := fun k => ⟨[k &&& 0x0F], rfl⟩
  have hvalue : ∀ n, ∃ b, (value (.pointer (.integer 8)) (some n)).standalone = .ok b :=
    fun n => ⟨bigEndian 1 n.toNat, by
      show (emit ((Uint.encode 1 n.toNat).mapError .overflow)).standalone = _
      rw [standalone_emit, Except.mapError_ok, Uint.encode_eq_ok]
      have hlt := n.isLt
      exact ⟨Nat.le_of_lt_succ hlt, rfl⟩⟩
  refine ⟨?_, ?_, ?_⟩
  · have hperm : [(2, some 7#8), (1, some 9#8)].Perm [((1 : UInt8), some 9#8), (2, some 7#8)] :=
      .swap _ _ _
    have hforms : List.Forall₂ (FormOf (key .custom) (value (.pointer (.integer 8))))
        [(2, some 7#8), (1, some 9#8)] [⟨[2], [7]⟩, ⟨[1], [9]⟩] :=
      .cons ⟨rfl, rfl⟩ (.cons ⟨rfl, rfl⟩ .nil)
    have hascending : EncodedEntry.Ascending [⟨[1], [9]⟩, ⟨[2], [7]⟩] :=
      List.pairwise_pair.mpr (by decide)
    have hrun : write [(2, some 7#8), (1, some 9#8)] = .ok () #[4, 1, 9, 2, 7] :=
      AppendsOnly.ofMap.run_ok.mpr ⟨[4, 1, 9, 2, 7],
        entries_ok.mpr ⟨_, _, [4], hforms, .swap _ _ _, hascending, rfl, rfl⟩, rfl⟩
    exact ⟨hrun, ((ofMap_canonical hperm #[]).1 _).mp hrun⟩
  · have hall : AllEncode (key .custom) (value (.pointer (.integer 8)))
        [(1, some 9#8), (17, some 7#8)] := by
      intro e he
      simp only [List.mem_cons, List.not_mem_nil, or_false] at he
      rcases he with rfl | rfl
      · exact ⟨hkey _, hvalue _⟩
      · exact ⟨hkey _, hvalue _⟩
    have hcollide : KeysCollide (key .custom) [((1 : UInt8), some 9#8), (17, some 7#8)] :=
      ⟨_, _, .refl _, [1], rfl, rfl⟩
    exact ((ofMap_canonical (.refl _) #[]).2.2.1 hall _).mpr ⟨rfl, hcollide⟩
  -- The second value is missing where there is no flag to say so.
  · have hnone : ¬ AllEncode (key .custom) (value (.pointer (.integer 8)))
        [((1 : UInt8), some 9#8), (17, none)] := by
      intro hall
      obtain ⟨b, hb⟩ := (hall (17, none) (by simp)).2
      cases hb
    obtain ⟨_, _, err, _, hrun⟩ := (ofMap_canonical (.refl _) #[]).2.2.2 hnone
    exact ⟨err, hrun⟩

/-- A map with two tags that have the same form. -/
theorem tags_repeated :
    ((Schema.map "BTreeMap<Tag, u8>" .ordered .byte (.custom .tag) (.uint .u8)).encode
        (.map .custom (.integer 8) (.fixed 1)) (.ofEntries [(1, 0#8), (17, 0#8)])).standalone =
      .error (.duplicateKey "BTreeMap<Tag, u8>") := by
  rw [Schema.encode, ofMap, standalone_entries]
  show (arrange "BTreeMap<Tag, u8>" [⟨[1], [0]⟩, ⟨[1], [0]⟩] >>= _) = _
  rw [arrange_error.mpr ⟨rfl, by decide⟩]
  rfl

/-- The keys of the entries differ in form, but the map inside a value has a repeated key. The error
is passed on, so it is about a repeated key as well. -/
theorem ofMap_duplicateKey_inside :
    let value : Schema (Dict KeyOrder.byte (BitVec 8) × Option Unit × Unit) :=
      .record "Entry"
        (.cons ⟨"seen", .head 1, "BTreeMap<Tag, u8>"⟩
          (.map "BTreeMap<Tag, u8>" .ordered .byte (.custom .tag) (.uint .u8))
          (.cons ⟨"seal", .optional, "Option<Sealed>"⟩ (.option "Option<Sealed>" (.custom .sealed))
            .nil))
        fun _ => .ok ()
    let valueShape : Shape :=
      .record (.present "seen" (.head 1) (.map .custom (.integer 8) (.fixed 1))
        (.present "seal" .optional (.optional .custom) .nil))
    let key : Shape → BitVec 8 → Encoder Unit := (Schema.uint .u8).encode
    let es : List (BitVec 8 × Dict KeyOrder.byte (BitVec 8) × Option Unit × Unit) :=
      [(0#8, .ofEntries [(1, 0#8), (17, 0#8)], none, ()), (1#8, .empty, some (), ())]
    ¬ ((∃ t out, ofMap "BTreeMap<u8, Entry>" key value.encode
        (.map (.integer 8) valueShape (.fixed 1)) es #[] = .error (.duplicateKey t) out) ↔
      AllEncode (key (.integer 8)) (value.encode valueShape) es ∧
        KeysCollide (key (.integer 8)) es) := by
  intro value valueShape key es hiff
  have hvalue : (value.encode valueShape (.ofEntries [(1, 0#8), (17, 0#8)], none, ())).standalone =
      .error (.duplicateKey "BTreeMap<Tag, u8>") := by
    rw [Schema.encode]
    exact Schema.Fields.encode_present_error.mpr (.inl tags_repeated)
  have hmap : (ofMap "BTreeMap<u8, Entry>" key value.encode
      (.map (.integer 8) valueShape (.fixed 1)) es).standalone =
        .error (.duplicateKey "BTreeMap<Tag, u8>") :=
    entries_value_error (a := [0]) rfl hvalue
  obtain ⟨out, hrun⟩ := (AppendsOnly.run_error .ofMap).mpr hmap
  -- Then every value would have a form, but the first one has none.
  obtain ⟨b, hb⟩ := ((hiff.mp ⟨_, out, hrun⟩).1 _ List.mem_cons_self).2
  rw [hvalue] at hb
  cases hb

end Maps

end Encoder

end TlsWire
