import TlsWire.Proofs.Decode.Agreement
import TlsWire.Proofs.WireForm.Size
import TlsWire.Proofs.Schema.Resolve

/-!
# The decoder accepts its grammar

Along a shape that a schema resolves to, whatever is decoded has a wire form that the cursor has
moved over (`Schema.decode_sound`), and every wire form is decoded to its value
(`Schema.decode_complete`). For a whole input under a limit that it cannot reach, decoding and
having a wire form are the same (`Schema.unmarshalWith_eq_ok_iff`).
-/

namespace TlsWire

variable {α β : Type}

namespace Schema

/-- A field is decoded where it is present; a shape that has been resolved says where that is. -/
theorem Fields.decode_cons_sound {info : FieldInfo} {schema : Schema α} {rest : Fields β}
    {shapes : Shape.Fields} (hresolve : (Fields.cons info schema rest).resolve = .ok shapes)
    (hfield : ∀ shape, schema.resolve info.directive = .ok shape →
      Decoder.Sound (fun ctx => schema.decode ctx shape) (schema.WireForm shape)
        (fun limit => schema.EachPart (SizeWithin limit)))
    (hrest : ∀ shapes, rest.resolve = .ok shapes →
      Decoder.Sound (fun ctx => rest.decode ctx shapes) (rest.WireForm shapes)
        (fun limit => rest.EachPart (SizeWithin limit))) :
    Decoder.Sound (fun ctx => (Fields.cons info schema rest).decode ctx shapes)
      ((Fields.cons info schema rest).WireForm shapes)
      (fun limit => (Fields.cons info schema rest).EachPart (SizeWithin limit)) := by
  rintro ctx c ⟨x, xs⟩ c' h
  simp only [Fields.WireForm, Fields.EachPart]
  rcases Fields.resolve_cons.mp hresolve with ⟨homit, restShapes, hrestShapes, rfl⟩ |
    ⟨hon, shape, restShapes, hshape, hrestShapes, rfl⟩
  -- An omitted field takes up no bytes, and what is decoded for it is the default.
  · rcases Fields.decode_ok.mp h with ⟨_, _, _, _, _, heq, _⟩ | ⟨_, _, _, heq, hdefault, hrun⟩
    · cases heq
    · cases heq
      cases hdefault
      obtain ⟨b, hb, hadv, hwithin⟩ := hrest _ hrestShapes _ _ _ _ hrun
      exact ⟨b, .absent hb, hadv, fun hon => absurd homit hon, hwithin⟩
  · rcases Fields.decode_ok.mp h with ⟨_, _, _, _, c₁, heq, hx, hxs⟩ | ⟨_, _, _, heq, _⟩
    · cases heq
      -- The form of the field and the form of the rest stand one behind the other.
      obtain ⟨b, hb, hadv, hwithin⟩ := hfield _ hshape _ _ _ _ hx
      obtain ⟨b', hb', hadv', hwithin'⟩ := hrest _ hrestShapes _ _ _ _ hxs
      exact ⟨b ++ b', .present hb hb', hadv.trans hadv', fun _ => hwithin, hwithin'⟩
    · cases heq

/-- Without a present field there is nothing on the wire. -/
theorem Fields.eq_nil_of_anyPresent_false : {α : Type} → {fields : Fields α} →
    {shapes : Shape.Fields} → {x : α} → {b : Bytes} → fields.WireForm shapes x b →
    shapes.anyPresent = false → b = []
  | _, .nil, _, _, _, h, _ => by
    rwa [Fields.WireForm] at h
  | _, .cons _ _ _, _, _, _, h, hany => by
    rw [Fields.WireForm] at h
    cases h with
    | present => cases hany
    | absent hrest => exact Fields.eq_nil_of_anyPresent_false hrest hany

/-- Only the last present field may be greedy, so the fields before it do not need the end of the
scope. -/
theorem Fields.decode_cons_complete {info : FieldInfo} {schema : Schema α} {rest : Fields β}
    {shapes : Shape.Fields} {type : String}
    (hresolve : (Fields.cons info schema rest).resolve = .ok shapes)
    (hcheck : shapes.checkGreedy type = .ok ())
    (hfield : ∀ shape, schema.resolve info.directive = .ok shape →
      Decoder.Complete (fun ctx => schema.decode ctx shape) (schema.WireForm shape)
        (fun limit => schema.EachPart (SizeWithin limit)) shape.isGreedy)
    (hrest : ∀ shapes, rest.resolve = .ok shapes → shapes.checkGreedy type = .ok () →
      Decoder.Complete (fun ctx => rest.decode ctx shapes) (rest.WireForm shapes)
        (fun limit => rest.EachPart (SizeWithin limit)) shapes.isGreedy) :
    Decoder.Complete (fun ctx => (Fields.cons info schema rest).decode ctx shapes)
      ((Fields.cons info schema rest).WireForm shapes)
      (fun limit => (Fields.cons info schema rest).EachPart (SizeWithin limit))
      shapes.isGreedy := by
  rintro ctx c ⟨x, xs⟩ b c' hform hadv hwithin hgreedy
  simp only [Fields.WireForm, Fields.EachPart] at hform hwithin
  rcases Fields.resolve_cons.mp hresolve with ⟨homit, restShapes, hrestShapes, rfl⟩ |
    ⟨hon, shape, restShapes, hshape, hrestShapes, rfl⟩
  · cases hform with
    | absent hb =>
      rw [Shape.checkGreedy_absent] at hcheck
      rw [Shape.isGreedy_absent] at hgreedy
      exact Fields.decode_ok.mpr (.inr ⟨_, _, restShapes, rfl, rfl,
        hrest _ hrestShapes hcheck _ _ _ _ _ hb hadv hwithin.2 hgreedy⟩)
  · cases hform with
    | @present _ _ _ _ _ _ front back hx hxs =>
      obtain ⟨hbounded, hcheck⟩ := Shape.checkGreedy_present.mp hcheck
      rw [Shape.isGreedy_present] at hgreedy
      -- The cursor stops between the two forms, where the field ends and the rest begins.
      obtain ⟨c₁, hadv₁, hadv₂⟩ := hadv.split
      -- What follows is as greedy as the record, or has no present field and is not greedy.
      have hxs' : rest.decode ctx restShapes c₁ = .ok xs c' := by
        refine hrest _ hrestShapes hcheck _ _ _ _ _ hxs hadv₂ hwithin.2 fun hg => hgreedy ?_
        cases hany : restShapes.anyPresent with
        | true => exact hg
        | false => rw [Shape.isGreedy_of_anyPresent_false hany] at hg; cases hg
      refine Fields.decode_ok.mpr (.inl ⟨_, _, shape, restShapes, c₁, rfl, ?_, hxs'⟩)
      refine hfield _ hshape _ _ _ _ _ hx hadv₁ (hwithin.1 hon) fun hg => ?_
      -- A greedy field is the last one, and what follows it takes nothing.
      cases hany : restShapes.anyPresent with
      | true => rw [hbounded hany] at hg; cases hg
      | false =>
        obtain rfl : back = [] := Fields.eq_nil_of_anyPresent_false hxs hany
        rw [hadv₂.eq_of_nil] at hgreedy
        exact hgreedy (by rw [hany]; exact hg)

mutual

/-- What is decoded has a form that the cursor has moved over. The proof is by induction on the
type, as are those that follow: each kind is sound if its parts are. -/
theorem decode_sound : {α : Type} → (schema : Schema α) → schema.HookFree → {d : Directive} →
    {shape : Shape} → schema.resolve d = .ok shape →
    Decoder.Sound (fun ctx => schema.decode ctx shape) (schema.WireForm shape)
      (fun limit => schema.EachPart (SizeWithin limit))
  | _, .uint _, _, _, _, _ => by
    simp only [decode, WireForm, EachPart, SizeWithin]
    -- One case for each type. The shape has the form that resolving the type gives it.
    exact Decoder.ofUint_sound
  | _, .array _ elem _, hfree, _, _, hresolve => by
    obtain ⟨_, elemShape, helem, _, rfl⟩ := resolve_array.mp hresolve
    simp only [decode, WireForm, EachPart, SizeWithin, true_and]
    exact Decoder.ofArray_sound (decode_sound elem hfree helem)
  | _, .vector _ elem, hfree, _, _, hresolve => by
    obtain ⟨head, elemShape, _, helem, _, rfl⟩ := resolve_vector.mp hresolve
    simp only [decode, WireForm, EachPart, SizeWithin]
    exact Decoder.ofVector_sound (decode_sound elem hfree helem)
  | _, .map _ _ _ key value, hfree, _, _, hresolve => by
    obtain ⟨head, keyShape, valueShape, _, hkey, _, hvalue, _, rfl⟩ := resolve_map.mp hresolve
    simp only [decode, WireForm, EachPart, SizeWithin]
    exact Decoder.ofMap_sound (decode_sound key hfree.1 hkey) (decode_sound value hfree.2 hvalue)
  | _, .box _ content, hfree, _, _, hresolve => by
    obtain ⟨_, target, hcontent, rfl⟩ := resolve_box.mp hresolve
    simp only [decode, WireForm, EachPart, SizeWithin, true_and]
    exact Decoder.ofBox_sound (decode_sound content hfree hcontent)
  | _, .option _ content, hfree, _, _, hresolve => by
    simp only [decode, WireForm, EachPart, SizeWithin, true_and]
    rcases resolve_option.mp hresolve with ⟨_, target, hcontent, rfl⟩ | ⟨_, target, hcontent, rfl⟩
    · exact Decoder.ofOption_sound (.inl rfl) (decode_sound content hfree hcontent)
    · exact Decoder.ofOption_sound (.inr rfl) (decode_sound content hfree hcontent)
  | _, .record _ fields _ _, hfree, _, _, hresolve => by
    obtain ⟨_, shapes, hfields, _, rfl⟩ := resolve_record.mp hresolve
    simp only [decode, WireForm, EachPart, SizeWithin, true_and]
    exact Decoder.ofRecord_sound (Fields.decode_sound fields hfree hfields)
  | _, .custom _, hfree, _, _, _ => hfree.elim

theorem Fields.decode_sound : {α : Type} → (fields : Fields α) → fields.HookFree →
    {shapes : Shape.Fields} → fields.resolve = .ok shapes →
    Decoder.Sound (fun ctx => fields.decode ctx shapes) (fields.WireForm shapes)
      (fun limit => fields.EachPart (SizeWithin limit))
  | _, .nil, _, _, _ => by
    intro ctx c x c' h
    simp only [Fields.decode, Decoder.pure_ok] at h
    obtain ⟨_, rfl⟩ := h
    simp only [Fields.WireForm, Fields.EachPart]
    exact ⟨[], rfl, c.advances_refl, trivial⟩
  | _, .cons _ schema rest, hfree, _, hresolve =>
    Fields.decode_cons_sound hresolve (fun _ => Schema.decode_sound schema hfree.1)
      (fun _ => Fields.decode_sound rest hfree.2)

end

mutual

/-- Every form of a value is decoded to this value. Parts that repeat are not greedy, since the
type would not have been resolved otherwise. -/
theorem decode_complete : {α : Type} → (schema : Schema α) → {d : Directive} → {shape : Shape} →
    schema.resolve d = .ok shape →
    Decoder.Complete (fun ctx => schema.decode ctx shape) (schema.WireForm shape)
      (fun limit => schema.EachPart (SizeWithin limit)) shape.isGreedy
  | _, .uint _, _, _, _ => by
    simp only [decode, WireForm, EachPart, SizeWithin]
    exact Decoder.ofUint_complete
  | _, .array _ elem _, _, _, hresolve => by
    obtain ⟨_, elemShape, helem, hbounded, rfl⟩ := resolve_array.mp hresolve
    simp only [decode, WireForm, EachPart, SizeWithin, true_and]
    exact Decoder.ofArray_complete (hbounded ▸ decode_complete elem helem)
  | _, .vector _ elem, _, _, hresolve => by
    obtain ⟨head, elemShape, _, helem, hbounded, rfl⟩ := resolve_vector.mp hresolve
    simp only [decode, WireForm, EachPart, SizeWithin]
    exact Decoder.ofVector_complete (hbounded ▸ decode_complete elem helem)
  | _, .map _ _ _ key value, _, _, hresolve => by
    obtain ⟨head, keyShape, valueShape, _, hkey, hkeyBounded, hvalue, hvalueBounded, rfl⟩ :=
      resolve_map.mp hresolve
    simp only [decode, WireForm, EachPart, SizeWithin]
    exact Decoder.ofMap_complete (hkeyBounded ▸ decode_complete key hkey)
      (hvalueBounded ▸ decode_complete value hvalue)
  | _, .box _ content, _, _, hresolve => by
    obtain ⟨_, target, hcontent, rfl⟩ := resolve_box.mp hresolve
    simp only [decode, WireForm, EachPart, SizeWithin, true_and]
    exact Decoder.ofBox_complete (decode_complete content hcontent)
  | _, .option _ content, _, _, hresolve => by
    simp only [decode, WireForm, EachPart, SizeWithin, true_and]
    rcases resolve_option.mp hresolve with ⟨_, target, hcontent, rfl⟩ | ⟨_, target, hcontent, rfl⟩
    · exact Decoder.ofOption_complete (.inl rfl) (decode_complete content hcontent)
    · exact Decoder.ofOption_complete (.inr rfl) (decode_complete content hcontent)
  | _, .record _ fields _ _, _, _, hresolve => by
    obtain ⟨_, shapes, hfields, hcheck, rfl⟩ := resolve_record.mp hresolve
    simp only [decode, WireForm, EachPart, SizeWithin, true_and]
    exact Decoder.ofRecord_complete (Fields.decode_complete fields hfields hcheck)
  | _, .custom _, _, _, hresolve => by
    obtain ⟨_, rfl⟩ := resolve_custom.mp hresolve
    simp only [decode, WireForm, EachPart, SizeWithin]
    exact Decoder.ofHook_complete

theorem Fields.decode_complete : {α : Type} → (fields : Fields α) → {shapes : Shape.Fields} →
    {type : String} → fields.resolve = .ok shapes → shapes.checkGreedy type = .ok () →
    Decoder.Complete (fun ctx => fields.decode ctx shapes) (fields.WireForm shapes)
      (fun limit => fields.EachPart (SizeWithin limit)) shapes.isGreedy
  | _, .nil, _, _, _, _ => by
    intro ctx c x b c' hform hadv _ _
    rw [Fields.WireForm] at hform
    subst hform
    obtain rfl := hadv.eq_of_nil
    simp only [Fields.decode, Decoder.pure_ok, and_true]
  | _, .cons _ schema rest, _, _, hresolve, hcheck =>
    Fields.decode_cons_complete hresolve hcheck (fun _ => Schema.decode_complete schema)
      (fun _ => Fields.decode_complete rest)

end

/-! ## Whole inputs -/

section Whole

variable {schema : Schema α} {d : Directive} {shape : Shape} {config : Config} {data : Bytes}
  {n : Nat} {x : α}

/-- A whole input is decoded from its first byte, and what counts is how far the cursor has come.
-/
theorem unmarshalWith_ok (hresolve : schema.resolve d = .ok shape) :
    schema.unmarshalWith d config data = .ok (n, x) ↔
      ∃ c, schema.decode (.top config) shape (.ofBytes data) = .ok x c ∧ c.consumed = n := by
  simp only [unmarshalWith, hresolve]
  cases schema.decode (.top config) shape (.ofBytes data) with
  | error e c => simp
  | ok y c =>
    simp only [Except.ok.injEq, Prod.mk.injEq, EStateM.Result.ok.injEq]
    constructor
    · rintro ⟨rfl, rfl⟩
      exact ⟨c, ⟨rfl, rfl⟩, rfl⟩
    · rintro ⟨_, ⟨rfl, rfl⟩, rfl⟩
      exact ⟨rfl, rfl⟩

theorem resolve_of_unmarshalWith (h : schema.unmarshalWith d config data = .ok (n, x)) :
    ∃ shape, schema.resolve d = .ok shape := by
  unfold unmarshalWith at h
  cases hresolve : schema.resolve d with
  | error e => rw [hresolve] at h; cases h
  | ok shape => exact ⟨shape, rfl⟩

/-- What is decoded stands in a form of it at the front of the data. -/
theorem exists_wireForm_of_unmarshalWith (hfree : schema.HookFree)
    (hresolve : schema.resolve d = .ok shape)
    (h : schema.unmarshalWith d config data = .ok (n, x)) :
    ∃ b t, data = b ++ t ∧ b.length = n ∧ schema.WireForm shape x b ∧
      schema.EachPart (SizeWithin config.maxCollect) x := by
  obtain ⟨c, hrun, rfl⟩ := (unmarshalWith_ok hresolve).mp h
  obtain ⟨b, hform, hadv, hwithin⟩ := schema.decode_sound hfree hresolve _ _ _ _ hrun
  obtain ⟨hlen, hdata⟩ := Cursor.advances_ofBytes hadv
  exact ⟨b, c.rest, hdata, hlen.symm, hform, hwithin⟩

/-- A form at the front of the data is decoded. -/
theorem unmarshalWith_of_wireForm (hresolve : schema.resolve d = .ok shape) {b t : Bytes}
    (hform : schema.WireForm shape x b) (hwithin : schema.EachPart (SizeWithin config.maxCollect) x)
    (hgreedy : shape.isGreedy = true → t = []) :
    schema.unmarshalWith d config (b ++ t) = .ok (b.length, x) := by
  obtain ⟨c, hadv, hrest⟩ := Cursor.exists_advances (Cursor.rest_ofBytes (b ++ t))
  refine (unmarshalWith_ok hresolve).mpr ⟨c, ?_, (Cursor.advances_ofBytes hadv).1⟩
  exact schema.decode_complete hresolve _ _ _ _ _ hform hadv hwithin fun hg =>
    hrest.trans (hgreedy hg)

/-- Bytes are a form of one value only. -/
theorem WireForm.unique (hresolve : schema.resolve d = .ok shape) {b : Bytes} {y : α}
    (hx : schema.WireForm shape x b) (hy : schema.WireForm shape y b) : x = y := by
  -- Each of them is what is decoded from the bytes under a limit that is not reached.
  have hrun : ∀ z, schema.WireForm shape z b →
      schema.unmarshalWith d ⟨b.length⟩ (b ++ []) = .ok (b.length, z) := fun z hz =>
    unmarshalWith_of_wireForm hresolve hz
      (WireForm.sizeWithin schema hresolve z b hz (Nat.le_refl _)) fun _ => rfl
  have heq := (hrun x hx).symm.trans (hrun y hy)
  cases heq
  rfl

/-- All of the data is decoded to a value exactly when the data is a wire form of it. -/
theorem unmarshalWith_eq_ok_iff (hfree : schema.HookFree) (hresolve : schema.resolve d = .ok shape)
    (hlimit : data.length ≤ config.maxCollect) :
    schema.unmarshalWith d config data = .ok (data.length, x) ↔ schema.WireForm shape x data := by
  constructor
  · intro h
    obtain ⟨b, t, hdata, hlen, hform, _⟩ := exists_wireForm_of_unmarshalWith hfree hresolve h
    -- All of the data was taken, so nothing stands behind the form.
    have ht : t = [] := by
      rw [hdata, List.length_append] at hlen
      exact List.eq_nil_of_length_eq_zero (by omega)
    rw [ht, List.append_nil] at hdata
    rwa [hdata]
  · intro hform
    have hwithin := WireForm.sizeWithin schema hresolve x data hform hlimit
    have hrun : schema.unmarshalWith d config (data ++ []) = .ok (data.length, x) :=
      unmarshalWith_of_wireForm hresolve hform hwithin fun _ => rfl
    rwa [List.append_nil] at hrun

/-- Entries that are out of order, behind a head that is longer than it has to be. -/
theorem unmarshalWith_unsorted_map :
    let schema : Schema (Dict (.bitVec 8) (BitVec 8)) :=
      .map "BTreeMap<u8, u8>" .ordered (.bitVec 8) (.uint .u8) (.uint .u8)
    let dict : Dict (.bitVec 8) (BitVec 8) := .ofEntries [(1#8, 9#8), (2#8, 7#8)]
    schema.HookFree ∧ schema.resolve .headVarint = .ok (.map (.integer 8) (.integer 8) .varint) ∧
      schema.WireForm (.map (.integer 8) (.integer 8) .varint) dict [0x40, 4, 2, 7, 1, 9] ∧
      schema.unmarshalWith .headVarint {} [0x40, 4, 2, 7, 1, 9] = .ok (6, dict) := by
  intro schema dict
  have hfree : schema.HookFree := ⟨trivial, trivial⟩
  have hresolve : schema.resolve .headVarint = .ok (.map (.integer 8) (.integer 8) .varint) := rfl
  have hperm : [(2#8, 7#8), (1#8, 9#8)].Perm dict.entries := .swap ..
  have hhead : Head.Form .varint 4 [0x40, 4] := .varint (.ofClass 1 (by decide) (by decide))
  have hentry : ∀ k v : BitVec 8, WireForm.Solid (WireForm.OfEntry
      ((uint .u8).WireForm (.integer 8)) ((uint .u8).WireForm (.integer 8))) (k, v)
      (bigEndian 1 k.toNat ++ bigEndian 1 v.toNat) :=
    fun _ _ => ⟨.intro .integer .integer, nofun⟩
  have hform : schema.WireForm (.map (.integer 8) (.integer 8) .varint) dict
      [0x40, 4, 2, 7, 1, 9] :=
    .intro hperm (.intro (h := [0x40, 4]) hhead
      (.cons (hentry 2#8 7#8) (.cons (hentry 1#8 9#8) .nil)))
  exact ⟨hfree, hresolve, hform, (unmarshalWith_eq_ok_iff hfree hresolve (by decide)).mpr hform⟩

end Whole

end Schema

end TlsWire
