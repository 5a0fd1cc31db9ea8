import TlsWire.Proofs.Decode.Forward
import TlsWire.Proofs.Decode.Grammar

/-!
# Greedy shapes

A shape is greedy when a vector or map without a head comes last in it. Whether such a shape takes
everything that is left is seen from the value: a presence flag on the way to the vector or map may
say that nothing is there. `Schema.EndsAbsent` follows a value along this way, through pointers,
flags and last present fields, and says whether it comes to such a flag.

* Where it does not, nothing is left in the scope (`Schema.decode_greedy`).
* Where it does, what follows the value makes no difference (`Schema.decode_of_endsAbsent`).

Both are inductions on the schema along the way; the fields in front of the last present one are not
greedy, so their forms are decoded whatever follows.
-/

namespace TlsWire

variable {α β : Type}

/-- Whatever is decoded, nothing is left behind it, unless nothing was there. -/
def Decoder.TakesAll (decode : Decoder α) (endsAbsent : α → Prop) : Prop :=
  ∀ c x c', decode c = .ok x c' → c'.rest = [] ∨ endsAbsent x

/-- Without a head all that is left is content. -/
theorem Sequence.rest_of_ofHead_unbounded {ctx : Context} {c c' : Cursor} {seq : Sequence}
    (h : ofHead ctx .unbounded c = .ok seq c') : c'.rest = [] := by
  obtain ⟨_, _, _, _, _, _, hend, _⟩ := ofHead_ok.mp h
  exact hend rfl

namespace Schema

mutual

/-- Whether the last thing in the form of a value is a flag that says that nothing is there. -/
def EndsAbsent : {α : Type} → Schema α → Shape → α → Prop
  | _, .uint _, _, _ => False
  | _, .array _ _ _, _, _ => False
  | _, .vector _ _, _, _ => False
  | _, .map _ _ _ _ _, _, _ => False
  | _, .box _ content, shape, x =>
    match shape with
    | .pointer target => content.EndsAbsent target x
    | _ => False
  | _, .option _ content, shape, x =>
    match shape, x with
    | .optional _, none => True
    | .optional target, some x => content.EndsAbsent target x
    | .pointer target, some x => content.EndsAbsent target x
    | _, _ => False
  | _, .record _ fields _ _, shape, x =>
    match shape with
    | .record shapes => fields.EndsAbsent shapes x
    | _ => False
  | _, .custom _, _, _ => False

/-- Whether the last present field ends in this way. -/
def Fields.EndsAbsent : {α : Type} → Fields α → Shape.Fields → α → Prop
  | _, .nil, _, _ => False
  | _, .cons _ schema rest, shapes, (x, xs) =>
    match shapes with
    | .present _ _ shape shapes =>
      if shapes.anyPresent then rest.EndsAbsent shapes xs else schema.EndsAbsent shape x
    | .absent _ _ shapes => rest.EndsAbsent shapes xs
    | .nil => False

end

/-! ## Nothing is left -/

/-- Fields that are not on the wire take nothing. -/
theorem Fields.eq_of_anyPresent_false : {α : Type} → (fields : Fields α) →
    {shapes : Shape.Fields} → {ctx : Context} → {c c' : Cursor} → {x : α} →
    fields.decode ctx shapes c = .ok x c' → shapes.anyPresent = false → c' = c
  | _, .nil, _, _, _, _, _, h, _ => by
    rw [Fields.decode, Decoder.pure_ok] at h
    exact h.2.symm
  | _, .cons _ _ rest, _, _, _, _, _, h, hany => by
    rcases Fields.decode_ok.mp h with ⟨_, _, _, _, _, rfl, _⟩ | ⟨_, _, _, rfl, _, hrest⟩
    · cases hany
    · exact Fields.eq_of_anyPresent_false rest hrest hany

/-- Fields are greedy where the last one on the wire is, and it is this one that takes what is
left. -/
theorem Fields.decode_cons_greedy {info : FieldInfo} {schema : Schema α} {rest : Fields β}
    {shapes : Shape.Fields} {ctx : Context}
    (hresolve : (Fields.cons info schema rest).resolve = .ok shapes)
    (hfield : ∀ shape, schema.resolve info.directive = .ok shape → shape.isGreedy = true →
      ∀ ctx, Decoder.TakesAll (schema.decode ctx shape) (schema.EndsAbsent shape))
    (hrest : ∀ shapes, rest.resolve = .ok shapes → shapes.isGreedy = true →
      Decoder.TakesAll (rest.decode ctx shapes) (rest.EndsAbsent shapes))
    (hgreedy : shapes.isGreedy = true) :
    Decoder.TakesAll ((Fields.cons info schema rest).decode ctx shapes)
      ((Fields.cons info schema rest).EndsAbsent shapes) := by
  rintro c ⟨x, xs⟩ c' h
  -- An omitted field takes nothing, so the others decide.
  rcases Fields.resolve_cons.mp hresolve with ⟨_, restShapes, hrestShapes, rfl⟩ |
    ⟨_, shape, restShapes, hshape, hrestShapes, rfl⟩
  · rcases Fields.decode_ok.mp h with ⟨_, _, _, _, _, heq, _⟩ | ⟨_, _, _, heq, _, hxs⟩
    · cases heq
    · cases heq
      rw [Shape.isGreedy_absent] at hgreedy
      exact hrest restShapes hrestShapes hgreedy c xs c' hxs
  · rcases Fields.decode_ok.mp h with ⟨_, _, _, _, c₁, heq, hx, hxs⟩ | ⟨_, _, _, heq, _⟩
    · cases heq
      rw [Shape.isGreedy_present] at hgreedy
      simp only [Fields.EndsAbsent]
      cases hany : restShapes.anyPresent with
      | true =>
        rw [hany, if_pos rfl] at hgreedy
        exact hrest restShapes hrestShapes hgreedy c₁ xs c' hxs
      | false =>
        -- The field is the last one, and the cursor stays where the field has left it.
        rw [hany] at hgreedy
        rw [Fields.eq_of_anyPresent_false rest hxs hany]
        exact hfield shape hshape hgreedy _ c x c₁ hx
    · cases heq

mutual

/-- Along a greedy shape everything is taken, unless a flag says that nothing is there. -/
theorem decode_greedy : {α : Type} → (schema : Schema α) → {d : Directive} → {shape : Shape} →
    schema.resolve d = .ok shape → shape.isGreedy = true → (ctx : Context) →
    Decoder.TakesAll (schema.decode ctx shape) (schema.EndsAbsent shape)
  | _, .uint _, _, _, hresolve, hgreedy, _ => by
    rcases resolve_uint.mp hresolve with ⟨_, rfl⟩ | ⟨_, rfl⟩ <;> cases hgreedy
  | _, .array _ _ _, _, _, hresolve, hgreedy, _ => by
    obtain ⟨_, _, _, _, rfl⟩ := resolve_array.mp hresolve
    cases hgreedy
  | _, .vector _ _, _, _, _, hgreedy, _ => by
    intro c xs c' h
    rw [decode] at h
    obtain ⟨_, head, _, rfl, hopen, _⟩ := Decoder.ofVector_ok.mp h
    -- Only the open head makes a vector greedy.
    cases head with
    | unbounded => exact .inl (Sequence.rest_of_ofHead_unbounded hopen)
    | _ => cases hgreedy
  | _, .map _ _ _ _ _, _, _, _, hgreedy, _ => by
    intro c dict c' h
    rw [decode] at h
    obtain ⟨_, _, head, _, _, rfl, hopen, _⟩ := Decoder.ofMap_ok.mp h
    cases head with
    | unbounded => exact .inl (Sequence.rest_of_ofHead_unbounded hopen)
    | _ => cases hgreedy
  | _, .box _ content, _, _, hresolve, hgreedy, ctx => by
    obtain ⟨_, target, htarget, rfl⟩ := resolve_box.mp hresolve
    intro c x c' h
    rw [decode] at h
    obtain ⟨_, heq, hcontent⟩ := Decoder.ofBox_ok.mp h
    cases heq
    exact decode_greedy content htarget hgreedy ctx c x c' hcontent
  | _, .option _ content, _, _, hresolve, hgreedy, ctx => by
    intro c x c' h
    rw [decode] at h
    rcases resolve_option.mp hresolve with ⟨_, target, htarget, rfl⟩ | ⟨_, target, htarget, rfl⟩
    · rcases Decoder.ofOption_ok.mp h with ⟨_, _, rfl, _⟩ | ⟨_, y, c₁, heq, rfl, _, hcontent⟩ |
        ⟨_, _, heq, _⟩
      -- The flag is zero, and nothing is behind it: this is the exception.
      · exact .inr trivial
      · cases heq
        exact decode_greedy content htarget hgreedy ctx c₁ y c' hcontent
      · cases heq
    · rcases Decoder.ofOption_ok.mp h with ⟨_, heq, _⟩ | ⟨_, _, _, heq, _⟩ |
        ⟨_, y, heq, rfl, hcontent⟩
      · cases heq
      · cases heq
      · cases heq
        exact decode_greedy content htarget hgreedy ctx c y c' hcontent
  | _, .record _ fields _ _, _, _, hresolve, hgreedy, ctx => by
    obtain ⟨_, shapes, hshapes, _, rfl⟩ := resolve_record.mp hresolve
    intro c x c' h
    rw [decode] at h
    obtain ⟨_, heq, hfields⟩ := Decoder.ofRecord_ok.mp h
    cases heq
    exact Fields.decode_greedy fields hshapes hgreedy ctx c x c' hfields
  | _, .custom _, _, _, hresolve, hgreedy, _ => by
    obtain ⟨_, rfl⟩ := resolve_custom.mp hresolve
    cases hgreedy

/-- By induction on the fields. -/
theorem Fields.decode_greedy : {α : Type} → (fields : Fields α) → {shapes : Shape.Fields} →
    fields.resolve = .ok shapes → shapes.isGreedy = true → (ctx : Context) →
    Decoder.TakesAll (fields.decode ctx shapes) (fields.EndsAbsent shapes)
  | _, .nil, _, hresolve, hgreedy, _ => by
    obtain rfl := Fields.resolve_nil.mp hresolve
    cases hgreedy
  | _, .cons _ schema rest, _, hresolve, hgreedy, ctx =>
    Fields.decode_cons_greedy hresolve (fun _ => Schema.decode_greedy schema)
      (fun _ hshapes hgreedy => Fields.decode_greedy rest hshapes hgreedy ctx) hgreedy

end

/-! ## What follows makes no difference -/

/-- If another field is on the wire then the value ends in that one, and this field ends by itself.
If none is, then the value ends in this field, and the others have empty forms. -/
theorem Fields.decode_cons_of_endsAbsent {info : FieldInfo} {schema : Schema α} {rest : Fields β}
    {shapes : Shape.Fields} {type : String}
    (hresolve : (Fields.cons info schema rest).resolve = .ok shapes)
    (hcheck : shapes.checkGreedy type = .ok ())
    (hfield : ∀ shape, schema.resolve info.directive = .ok shape →
      Decoder.Complete (fun ctx => schema.decode ctx shape)
        (fun x b => schema.EndsAbsent shape x ∧ schema.WireForm shape x b)
        (fun limit => schema.EachPart (SizeWithin limit)) false)
    (hrest : ∀ shapes, rest.resolve = .ok shapes → shapes.checkGreedy type = .ok () →
      Decoder.Complete (fun ctx => rest.decode ctx shapes)
        (fun x b => rest.EndsAbsent shapes x ∧ rest.WireForm shapes x b)
        (fun limit => rest.EachPart (SizeWithin limit)) false) :
    Decoder.Complete (fun ctx => (Fields.cons info schema rest).decode ctx shapes)
      (fun x b => (Fields.cons info schema rest).EndsAbsent shapes x ∧
        (Fields.cons info schema rest).WireForm shapes x b)
      (fun limit => (Fields.cons info schema rest).EachPart (SizeWithin limit)) false := by
  rintro ctx c ⟨x, xs⟩ b c' ⟨habsent, hform⟩ hadv hwithin _
  simp only [Fields.WireForm, Fields.EachPart, Fields.EndsAbsent] at hform hwithin habsent
  rcases Fields.resolve_cons.mp hresolve with ⟨_, restShapes, hrestShapes, rfl⟩ |
    ⟨hon, shape, restShapes, hshape, hrestShapes, rfl⟩
  · cases hform with
    | absent hb =>
      rw [Shape.checkGreedy_absent] at hcheck
      exact Fields.decode_ok.mpr (.inr ⟨_, _, restShapes, rfl, rfl,
        hrest _ hrestShapes hcheck _ _ _ _ _ ⟨habsent, hb⟩ hadv hwithin.2 nofun⟩)
  · cases hform with
    | @present _ _ _ _ _ _ front back hx hxs =>
      obtain ⟨hbounded, hcheck⟩ := Shape.checkGreedy_present.mp hcheck
      -- The form is cut where the field ends.
      obtain ⟨c₁, hadv₁, hadv₂⟩ := hadv.split
      refine Fields.decode_ok.mpr (.inl ⟨_, _, shape, restShapes, c₁, rfl, ?_⟩)
      cases hany : restShapes.anyPresent with
      | true =>
        simp only [hany, if_true] at habsent
        have hx' : schema.decode (ctx.push info.name c.pos) shape c = .ok x c₁ :=
          schema.decode_complete hshape _ _ _ _ _ hx hadv₁ (hwithin.1 hon) fun hg => by
            rw [hbounded hany] at hg
            cases hg
        exact ⟨hx', hrest _ hrestShapes hcheck _ _ _ _ _ ⟨habsent, hxs⟩ hadv₂ hwithin.2 nofun⟩
      | false =>
        simp only [hany, Bool.false_eq_true, if_false] at habsent
        have hxs' : rest.decode ctx restShapes c₁ = .ok xs c' :=
          rest.decode_complete hrestShapes hcheck _ _ _ _ _ hxs hadv₂ hwithin.2 fun hg => by
            rw [Shape.isGreedy_of_anyPresent_false hany] at hg
            cases hg
        exact ⟨hfield _ hshape _ _ _ _ _ ⟨habsent, hx⟩ hadv₁ (hwithin.1 hon) nofun, hxs'⟩

mutual

/-- A form that ends in a flag that says that nothing is there is decoded whatever follows. -/
theorem decode_of_endsAbsent : {α : Type} → (schema : Schema α) → {d : Directive} →
    {shape : Shape} → schema.resolve d = .ok shape →
    Decoder.Complete (fun ctx => schema.decode ctx shape)
      (fun x b => schema.EndsAbsent shape x ∧ schema.WireForm shape x b)
      (fun limit => schema.EachPart (SizeWithin limit)) false
  | _, .uint _, _, _, _ => fun _ _ _ _ _ ⟨habsent, _⟩ => habsent.elim
  | _, .array _ _ _, _, _, _ => fun _ _ _ _ _ ⟨habsent, _⟩ => habsent.elim
  | _, .vector _ _, _, _, _ => fun _ _ _ _ _ ⟨habsent, _⟩ => habsent.elim
  | _, .map _ _ _ _ _, _, _, _ => fun _ _ _ _ _ ⟨habsent, _⟩ => habsent.elim
  | _, .box _ content, _, _, hresolve => by
    obtain ⟨_, target, htarget, rfl⟩ := resolve_box.mp hresolve
    -- With the flag set, the end is inside of what is behind it.
    have hcontent := decode_of_endsAbsent content htarget
    rintro ctx c x b c' ⟨habsent, hform⟩ hadv hwithin _
    simp only [decode]
    simp only [WireForm, EachPart, EndsAbsent] at hform hwithin habsent
    cases hform with
    | intro hb =>
      exact Decoder.ofBox_ok.mpr ⟨target, rfl,
        hcontent _ _ _ _ _ ⟨habsent, hb⟩ hadv hwithin.2 nofun⟩
  | _, .option _ content, _, _, hresolve => by
    rintro ctx c x b c' ⟨habsent, hform⟩ hadv hwithin _
    simp only [decode]
    simp only [WireForm, EachPart, EndsAbsent] at hform hwithin habsent
    refine Decoder.ofOption_ok.mpr ?_
    rcases resolve_option.mp hresolve with ⟨_, target, htarget, rfl⟩ | ⟨_, target, htarget, rfl⟩
    · have hcontent := decode_of_endsAbsent content htarget
      cases hform with
      | absent => exact .inl ⟨target, rfl, rfl, hadv⟩
      | @present _ y b hb =>
        obtain ⟨c₁, hflag, hadv⟩ := Cursor.Advances.split (b := [1]) hadv
        exact .inr (.inl ⟨target, y, c₁, rfl, rfl, hflag,
          hcontent _ _ _ _ _ ⟨habsent, hb⟩ hadv (hwithin.2 y rfl) nofun⟩)
    · have hcontent := decode_of_endsAbsent content htarget
      cases hform with
      | @required _ y b hb =>
        exact .inr (.inr ⟨target, y, rfl, rfl,
          hcontent _ _ _ _ _ ⟨habsent, hb⟩ hadv (hwithin.2 y rfl) nofun⟩)
  | _, .record _ fields _ _, _, _, hresolve => by
    obtain ⟨_, shapes, hshapes, hcheck, rfl⟩ := resolve_record.mp hresolve
    have hfields := Fields.decode_of_endsAbsent fields hshapes hcheck
    rintro ctx c x b c' ⟨habsent, hform⟩ hadv hwithin _
    simp only [decode]
    simp only [WireForm, EachPart, EndsAbsent] at hform hwithin habsent
    cases hform with
    | intro hb =>
      exact Decoder.ofRecord_ok.mpr ⟨shapes, rfl,
        hfields _ _ _ _ _ ⟨habsent, hb⟩ hadv hwithin.2 nofun⟩
  | _, .custom _, _, _, _ => fun _ _ _ _ _ ⟨habsent, _⟩ => habsent.elim

/-- By induction on the fields, down to the one that the value ends in. -/
theorem Fields.decode_of_endsAbsent : {α : Type} → (fields : Fields α) →
    {shapes : Shape.Fields} → {type : String} → fields.resolve = .ok shapes →
    shapes.checkGreedy type = .ok () →
    Decoder.Complete (fun ctx => fields.decode ctx shapes)
      (fun x b => fields.EndsAbsent shapes x ∧ fields.WireForm shapes x b)
      (fun limit => fields.EachPart (SizeWithin limit)) false
  | _, .nil, _, _, _, _ => fun _ _ _ _ _ ⟨habsent, _⟩ => habsent.elim
  | _, .cons _ schema rest, _, _, hresolve, hcheck =>
    Fields.decode_cons_of_endsAbsent hresolve hcheck (fun _ => Schema.decode_of_endsAbsent schema)
      (fun _ => Fields.decode_of_endsAbsent rest)

end

/-! ## Whole inputs -/

section Whole

variable {schema : Schema α} {d : Directive} {shape : Shape} {config : Config} {data : Bytes}
  {n : Nat} {x : α}

/-- If the value does not end in a flag, then nothing is left in the scope, which is all of the
data. -/
theorem unmarshalWith_length_of_greedy (hresolve : schema.resolve d = .ok shape)
    (hgreedy : shape.isGreedy = true) (h : schema.unmarshalWith d config data = .ok (n, x))
    (hthere : ¬ schema.EndsAbsent shape x) : n = data.length := by
  obtain ⟨c, hrun, rfl⟩ := (unmarshalWith_ok hresolve).mp h
  obtain ⟨b, hadv⟩ := (schema.decode_forward _ shape).advances hrun
  obtain ⟨hlen, hdata⟩ := Cursor.advances_ofBytes hadv
  rcases schema.decode_greedy hresolve hgreedy _ _ _ _ hrun with hrest | habsent
  · rw [hlen, hdata, hrest, List.append_nil]
  · exact absurd habsent hthere

/-- The bytes that have been read are a form of the value, and one that is decoded whatever follows
it. -/
theorem unmarshalWith_take_of_endsAbsent (hfree : schema.HookFree)
    (hresolve : schema.resolve d = .ok shape) (h : schema.unmarshalWith d config data = .ok (n, x))
    (habsent : schema.EndsAbsent shape x) (t : Bytes) :
    schema.unmarshalWith d config (data.take n ++ t) = .ok (n, x) := by
  obtain ⟨b, behind, rfl, rfl, hform, hwithin⟩ := exists_wireForm_of_unmarshalWith hfree hresolve h
  rw [List.take_left]
  -- The cursor behind the form, with `t` in front of it.
  obtain ⟨c, hadv, _⟩ := Cursor.exists_advances (Cursor.rest_ofBytes (b ++ t))
  refine (unmarshalWith_ok hresolve).mpr ⟨c, ?_, (Cursor.advances_ofBytes hadv).1⟩
  exact schema.decode_of_endsAbsent hresolve _ _ _ _ _ ⟨habsent, hform⟩ hadv hwithin nofun

/-- A value with a greedy shape takes all of the data, unless it ends in a flag that says that
nothing is there: then it is decoded from its own bytes, whatever follows them. -/
theorem unmarshalWith_greedy (hfree : schema.HookFree) (hresolve : schema.resolve d = .ok shape)
    (hgreedy : shape.isGreedy = true) (h : schema.unmarshalWith d config data = .ok (n, x)) :
    (¬ schema.EndsAbsent shape x → n = data.length) ∧
      (schema.EndsAbsent shape x →
        ∀ t, schema.unmarshalWith d config (data.take n ++ t) = .ok (n, x)) :=
  ⟨unmarshalWith_length_of_greedy hresolve hgreedy h,
    unmarshalWith_take_of_endsAbsent hfree hresolve h⟩

/-- The last field on the wire may be absent. Where it is there, the vector in it takes the rest;
where it is not, three bytes are left, and others could be. -/
theorem unmarshalWith_greedy_optional_tail :
    let tail : Schema (List (BitVec 8) × Unit) :=
      .record "Tail" (.cons ⟨"body", .headNone, "Vec<u8>"⟩ (.vector "Vec<u8>" (.uint .u8)) .nil)
        fun _ => .ok ()
    let schema : Schema (BitVec 8 × Option (List (BitVec 8) × Unit) × BitVec 8 × Unit) :=
      .record "Message"
        (.cons ⟨"id", .default, "u8"⟩ (.uint .u8)
          (.cons ⟨"tail", .optional, "Option<Tail>"⟩ (.option "Option<Tail>" tail)
            (.cons ⟨"seen", .omit, "u8"⟩ (.uint .u8) .nil)))
        fun _ => .ok ()
    (∃ shape, schema.resolve .default = .ok shape ∧ shape.isGreedy = true ∧
      ¬ schema.EndsAbsent shape (7#8, some ([9#8, 8#8], ()), 0#8, ()) ∧
      schema.EndsAbsent shape (7#8, none, 0#8, ())) ∧
    schema.unmarshalWith .default {} [7, 1, 9, 8] =
      .ok ([7, 1, 9, 8].length, (7#8, some ([9#8, 8#8], ()), 0#8, ())) ∧
    schema.unmarshalWith .default {} [7, 0, 1, 9, 8] = .ok (2, (7#8, none, 0#8, ())) ∧
    ∀ t, schema.unmarshalWith .default {} ([7, 0] ++ t) = .ok (2, (7#8, none, 0#8, ())) := by
  intro tail schema
  have hfree : schema.HookFree := ⟨trivial, ⟨trivial, trivial⟩, trivial, trivial⟩
  let shape : Shape := .record (.present "id" .default (.integer 8)
    (.present "tail" .optional (.optional (.record
      (.present "body" .headNone (.vector (.integer 8) .unbounded) .nil)))
      (.absent "seen" .omit .nil)))
  have hresolve : schema.resolve .default = .ok shape := rfl
  have hthere : schema.unmarshalWith .default {} [7, 1, 9, 8] =
      .ok (4, (7#8, some ([9#8, 8#8], ()), 0#8, ())) := by
    have hitem : ∀ n : BitVec 8, WireForm.Solid ((uint .u8).WireForm (.integer 8)) n
        (bigEndian 1 n.toNat) := fun _ => ⟨.integer, nofun⟩
    have hbody : Pieces (WireForm.Solid ((uint .u8).WireForm (.integer 8))) [9#8, 8#8] [9, 8] :=
      .cons (hitem 9#8) (.cons (hitem 8#8) .nil)
    -- A number, a flag, and the content of a vector without a head.
    have hform : schema.WireForm shape (7#8, some ([9#8, 8#8], ()), 0#8, ())
        (bigEndian 1 7 ++ ((1 :: (([] ++ [9, 8]) ++ [])) ++ [])) :=
      .intro (.present .integer (.present
        (.present (.intro (.present (.intro (.intro .unbounded hbody)) rfl))) (.absent rfl)))
    have hwithin := WireForm.sizeWithin schema hresolve _ _ hform
      (by decide : _ ≤ ({} : Config).maxCollect)
    exact unmarshalWith_of_wireForm (t := []) hresolve hform hwithin fun _ => rfl
  have habsent : schema.unmarshalWith .default {} [7, 0, 1, 9, 8] =
      .ok (2, (7#8, none, 0#8, ())) := by rfl
  have hends : schema.EndsAbsent shape (7#8, none, 0#8, ()) := trivial
  have hnot : ¬ schema.EndsAbsent shape (7#8, some ([9#8, 8#8], ()), 0#8, ()) := id
  have hall := (unmarshalWith_greedy hfree hresolve rfl hthere).1 hnot
  exact ⟨⟨shape, hresolve, rfl, hnot, hends⟩, hall ▸ hthere, habsent,
    (unmarshalWith_greedy hfree hresolve rfl habsent).2 hends⟩

end Whole

end Schema

end TlsWire
