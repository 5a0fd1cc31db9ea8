import TlsWire.Proofs.Decode.Elements
import TlsWire.Proofs.Location
import TlsWire.Proofs.Schema.Unambiguous

/-!
# Where decoding gets to

While a value is decoded, its parts are, each from a place of its own: an element behind the
elements before it, a field behind the fields before it, what may be missing behind its flag. A
`Site` is a value with the place where its decoding starts and the path that it goes by. `Site.Part`
has one rule for each kind of part, in which the runs that lead up to it are spelled out, and
`Site.Reaches` is any number of steps down.

A decoder fails at a site that has been reached, and the path it tells is that of the site
(`Schema.exists_site`). Every step of a path that has been reached names the place where some part
starts (`Site.Reaches.exists_start`).
-/

namespace TlsWire

variable {α κ β σ : Type}

/-- A value that is being decoded: along which shape, under which path, and from where. -/
structure Site where
  {α : Type}
  schema : Schema α
  shape : Shape
  ctx : Context
  cursor : Cursor

/-- A field that decoding gets to. The fields before it that are on the wire have been decoded,
those that are not take up no space. -/
inductive Schema.Fields.GetsTo : {α : Type} → Fields α → Shape.Fields → Context → Cursor → Site →
    Prop where
  | here {α β : Type} {info : FieldInfo} {schema : Schema α} {rest : Fields β} {name : String}
      {directive : Directive} {shape : Shape} {shapes : Shape.Fields} {ctx : Context} {c : Cursor} :
      GetsTo (.cons info schema rest) (.present name directive shape shapes) ctx c
        ⟨schema, shape, ctx.push name c.pos, c⟩
  | present {α β : Type} {info : FieldInfo} {schema : Schema α} {rest : Fields β} {name : String}
      {directive : Directive} {shape : Shape} {shapes : Shape.Fields} {ctx : Context}
      {c c' : Cursor} {x : α} {site : Site}
      (hfield : schema.decode (ctx.push name c.pos) shape c = .ok x c')
      (h : rest.GetsTo shapes ctx c' site) :
      GetsTo (.cons info schema rest) (.present name directive shape shapes) ctx c site
  | absent {α β : Type} {info : FieldInfo} {schema : Schema α} {rest : Fields β} {name : String}
      {directive : Directive} {shapes : Shape.Fields} {ctx : Context} {c : Cursor} {site : Site}
      (h : rest.GetsTo shapes ctx c site) :
      GetsTo (.cons info schema rest) (.absent name directive shapes) ctx c site

namespace Site

/-- A part of a value that decoding gets to. Elements and fields go by a step of the path of their
own, which tells where they start. What is behind an indirection goes by the path of what it is in,
and so do key and value in the path of their entry. -/
inductive Part : Site → Site → Prop where
  | item {α : Type} {type : String} {elem : Schema α} {length : Nat} {elemShape : Shape}
      {ctx : Context} {c c' : Cursor} {as : List α}
      (hbefore : Items ctx (fun ctx => elem.decode ctx elemShape) c as c')
      (hcount : as.length < length) :
      Part ⟨.array type elem length, .array elemShape length, ctx, c⟩
        ⟨elem, elemShape, ctx.push Step.elementName c'.pos, c'⟩
  | element {α : Type} {type : String} {elem : Schema α} {elemShape : Shape} {head : Head}
      {ctx : Context} {c c' : Cursor} {as : List α} {seq seq' : Sequence}
      (hopen : Sequence.ofHead ctx head c = .ok seq c')
      (hbefore : Sequence.Yields ctx (fun ctx => elem.decode ctx elemShape) seq as seq')
      (hleft : seq'.scope.rest ≠ []) :
      Part ⟨.vector type elem, .vector elemShape head, ctx, c⟩
        ⟨elem, elemShape, ctx.push Step.elementName seq'.scope.pos, seq'.scope⟩
  | key {κ β : Type} {type : String} {kind : MapKind} {order : KeyOrder κ} {key : Schema κ}
      {value : Schema β} {keyShape valueShape : Shape} {head : Head} {ctx : Context}
      {c c' : Cursor} {es : List (κ × β)} {seq seq' : Sequence}
      (hopen : Sequence.ofHead ctx head c = .ok seq c')
      (hbefore : Sequence.Yields ctx
        (Decoder.entry (fun ctx => key.decode ctx keyShape) fun ctx => value.decode ctx valueShape)
        seq es seq')
      (hleft : seq'.scope.rest ≠ []) :
      Part ⟨.map type kind order key value, .map keyShape valueShape head, ctx, c⟩
        ⟨key, keyShape, ctx.push Step.elementName seq'.scope.pos, seq'.scope⟩
  | value {κ β : Type} {type : String} {kind : MapKind} {order : KeyOrder κ} {key : Schema κ}
      {value : Schema β} {keyShape valueShape : Shape} {head : Head} {ctx : Context}
      {c c' c'' : Cursor} {es : List (κ × β)} {seq seq' : Sequence} {k : κ}
      (hopen : Sequence.ofHead ctx head c = .ok seq c')
      (hbefore : Sequence.Yields ctx
        (Decoder.entry (fun ctx => key.decode ctx keyShape) fun ctx => value.decode ctx valueShape)
        seq es seq')
      (hleft : seq'.scope.rest ≠ [])
      (hkey : key.decode (ctx.push Step.elementName seq'.scope.pos) keyShape seq'.scope =
        .ok k c'') :
      Part ⟨.map type kind order key value, .map keyShape valueShape head, ctx, c⟩
        ⟨value, valueShape, ctx.push Step.elementName seq'.scope.pos, c''⟩
  | boxed {α : Type} {type : String} {content : Schema α} {target : Shape} {ctx : Context}
      {c : Cursor} :
      Part ⟨.box type content, .pointer target, ctx, c⟩ ⟨content, target, ctx, c⟩
  | required {α : Type} {type : String} {content : Schema α} {target : Shape} {ctx : Context}
      {c : Cursor} :
      Part ⟨.option type content, .pointer target, ctx, c⟩ ⟨content, target, ctx, c⟩
  | flagged {α : Type} {type : String} {content : Schema α} {target : Shape} {ctx : Context}
      {c c' : Cursor} (hflag : Decoder.read ctx Cursor.readByte c = .ok 1 c') :
      Part ⟨.option type content, .optional target, ctx, c⟩ ⟨content, target, ctx, c'⟩
  | field {α : Type} {type : String} {fields : Schema.Fields α} {validate : α → Except String Unit}
      {placeholder : Option α} {shapes : Shape.Fields} {ctx : Context} {c : Cursor} {site : Site}
      (h : fields.GetsTo shapes ctx c site) :
      Part ⟨.record type fields validate placeholder, .record shapes, ctx, c⟩ site

/-- The value itself, its parts, their parts and so on. -/
def Reaches : Site → Site → Prop := Relation.ReflTransGen Part

end Site

/-! ## Steps of a path -/

/-- A field goes by one step more than the record: its name, and the place where it starts. -/
theorem Schema.Fields.GetsTo.exists_push {fields : Schema.Fields α} {shapes : Shape.Fields}
    {ctx : Context} {c : Cursor} {site : Site} (h : fields.GetsTo shapes ctx c site) :
    ∃ name directive, ⟨name, directive, some site.shape⟩ ∈ shapes.toList ∧
      site.ctx = ctx.push name site.cursor.pos := by
  induction h with
  -- Only the field itself is put on the path. The ones before it have left it again.
  | @here _ _ _ _ _ name directive => exact ⟨name, directive, List.mem_cons_self, rfl⟩
  | present _ _ ih =>
    obtain ⟨name, directive, hmem, hctx⟩ := ih
    exact ⟨name, directive, List.mem_cons_of_mem _ hmem, hctx⟩
  | absent _ ih =>
    obtain ⟨name, directive, hmem, hctx⟩ := ih
    exact ⟨name, directive, List.mem_cons_of_mem _ hmem, hctx⟩

namespace Site

variable {s t root : Site}

/-- A part goes by the path of the whole, or by one step more that tells where a part starts. -/
theorem Part.exists_push (h : s.Part t) :
    t.ctx = s.ctx ∨ ∃ name part, s.Part part ∧ part.ctx = t.ctx ∧
      t.ctx = s.ctx.push name part.cursor.pos := by
  cases h with
  | boxed => exact .inl rfl
  | required => exact .inl rfl
  | flagged _ => exact .inl rfl
  | item hbefore hcount => exact .inr ⟨_, _, .item hbefore hcount, rfl, rfl⟩
  | element hopen hbefore hleft => exact .inr ⟨_, _, .element hopen hbefore hleft, rfl, rfl⟩
  | key hopen hbefore hleft => exact .inr ⟨_, _, .key hopen hbefore hleft, rfl, rfl⟩
  -- The step is that of the entry, which starts with its key.
  | value hopen hbefore hleft _ => exact .inr ⟨_, _, .key hopen hbefore hleft, rfl, rfl⟩
  | field h =>
    obtain ⟨name, _, _, hpush⟩ := h.exists_push
    exact .inr ⟨name, t, .field h, rfl, hpush⟩

/-- Every step on the path of a site that is reached tells where a part starts that is reached by
the path up to this step. -/
theorem Reaches.exists_start (h : root.Reaches s) (hroot : root.ctx.location = []) {step : Step}
    {outer : Location} (hsuffix : (step :: outer) <:+ s.ctx.location) :
    ∃ part, root.Reaches part ∧ part.ctx.location = step :: outer ∧
      part.cursor.pos = step.pos := by
  induction h with
  -- Nothing is on the path of the root.
  | refl =>
    rw [hroot] at hsuffix
    cases List.suffix_nil.mp hsuffix
  | @tail s t hreach hpart ih =>
    rcases hpart.exists_push with heq | ⟨name, part, hpart', hctx, hpush⟩
    · exact ih (heq ▸ hsuffix)
    · have hlocation : t.ctx.location = ⟨name, part.cursor.pos⟩ :: s.ctx.location := by
        rw [hpush]
        rfl
      rw [hlocation] at hsuffix
      rcases List.suffix_cons_iff.mp hsuffix with heq | hbefore
      -- The last step: the part that it is about has just been reached.
      · cases heq
        exact ⟨part, hreach.tail hpart', hctx ▸ hlocation, rfl⟩
      · exact ih hbefore

end Site

/-! ## Decoders that fail where they are -/

/-- The error tells the path of the context. -/
def DecodeError.At (e : DecodeError) (ctx : Context) : Prop := e.location? = some ctx.location

namespace Decoder

variable {ctx : Context} {shape : Shape} {type : String} {c c' : Cursor} {e : DecodeError}

/-- Whatever the decoder fails with is about the value itself, not about a part of it. -/
def FailsAt (ctx : Context) (d : Decoder α) : Prop := ∀ c e c', d c = .error e c' → e.At ctx

namespace FailsAt

/-- A decoder that does not fail has no path to tell. -/
theorem pure {a : α} : FailsAt ctx (pure a) := fun _ _ _ h => absurd h pure_ne_error

/-- The path of an error that is raised at once can be read off it. -/
theorem throw (h : e.At ctx) : FailsAt ctx (throw e : Decoder α) := by
  intro c e' c' hrun
  cases hrun
  exact h

theorem cursor : FailsAt ctx cursor := by
  intro c e c' h
  cases h

/-- A truncation is told of the value that is being read. -/
theorem read {reader : Cursor → Except Truncated (α × Cursor)} :
    FailsAt ctx (Decoder.read ctx reader) := by
  intro c e c' h
  unfold Decoder.read at h
  split at h
  · cases h
  · cases h
    rfl

/-- Whichever step fails, it is still about the same value. -/
theorem bind {d : Decoder α} {f : α → Decoder β} (hd : FailsAt ctx d)
    (hf : ∀ a, FailsAt ctx (f a)) : FailsAt ctx (d >>= f) := by
  intro c e c' h
  rcases bind_error.mp h with hfirst | ⟨a, c₁, _, hrest⟩
  · exact hd c e c' hfirst
  · exact hf a c₁ e c' hrest

/-- A number has no parts, so whatever goes wrong is told of the number. -/
theorem ofUint {t : UintType} : FailsAt ctx (ofUint t ctx shape) := by
  -- Read by width or by class, the number is then checked against its type.
  have hnarrow : ∀ reader, FailsAt ctx (ofUint.narrow t ctx reader) := by
    refine fun reader => .bind .read fun n => ?_
    show FailsAt ctx (if n < byteRange t.bytes then _ else _)
    split
    · exact .pure
    · exact .throw rfl
  cases shape with
  | integer _ => exact hnarrow _
  | varint _ => exact hnarrow _
  | _ => exact .throw rfl

/-- A hook may look at its own bytes only. What it makes of them is told of the value. -/
theorem ofHook {hook : Hook α} : FailsAt ctx (ofHook hook ctx shape) := by
  cases shape with
  | custom =>
    refine .bind .cursor fun c => ?_
    split
    · exact .throw rfl
    · split
      · exact .throw rfl
      · exact .bind .read fun _ => .pure
  | _ => exact .throw rfl

/-- The head belongs to the sequence, and no element has been started yet. -/
theorem ofHead {head : Head} : FailsAt ctx (Sequence.ofHead ctx head) := by
  cases head with
  | fixed width => exact .bind .read fun _ => .bind .read fun _ => .pure
  | varint => exact .bind .read fun _ => .bind .read fun _ => .pure
  | unbounded => exact .bind .cursor fun _ => .bind .read fun _ => .pure

end FailsAt

/-- What is computed from a result cannot fail. -/
theorem map_error {d : Decoder α} {f : α → β} (h : (f <$> d) c = .error e c') :
    d c = .error e c' := by
  rw [map_eq_pure_bind] at h
  rcases bind_error.mp h with hrun | ⟨_, _, _, hpure⟩
  · exact hrun
  · exact absurd hpure pure_ne_error

end Decoder

/-! ## Sequences -/

namespace Sequence

variable {ctx element : Context} {elem : Context → Decoder α} {seq : Sequence} {e e' : DecodeError}

/-- Where a head has declared the length, the path to the element is told instead of a path into
it. -/
theorem blame_at {bounded : Bool} (h : blame bounded element e = e') : e'.At element ∨ e' = e := by
  subst h
  unfold blame
  split
  · split
    · exact .inl rfl
    · exact .inr rfl
  · exact .inr rfl

/-- A fold fails because of the sequence as a whole, or at one of its elements. Of the latter the
path to the element is told, or what the element itself fails with. -/
theorem fold_failed {add : σ → α → Except DecodeError σ} {acc : σ}
    (hadd : ∀ acc a e, add acc a = .error e → e.At ctx) (h : fold ctx elem add acc seq = .error e) :
    e.At ctx ∨ ∃ as seq', Yields ctx elem seq as seq' ∧ seq'.scope.rest ≠ [] ∧
      (e.At (ctx.push Step.elementName seq'.scope.pos) ∨
        ∃ c', elem (ctx.push Step.elementName seq'.scope.pos) seq'.scope = .error e c') := by
  obtain ⟨as, seq', hrun, ⟨seq'', hnext⟩ | ⟨acc', a, hstep⟩⟩ := fold_error h
  · -- At the end of the content nothing fails.
    have hleft : seq'.scope.rest ≠ [] := by
      intro hnil
      rw [next_none.mpr ⟨hnil, rfl⟩] at hnext
      cases hnext
    refine .inr ⟨as, seq', hrun, hleft, ?_⟩
    -- Three things can be wrong with an element: too many before it, it fails itself, it takes no
    -- byte.
    rcases next_error hnext with rfl | ⟨e', scope, helem, hblame⟩ | rfl
    · exact .inl rfl
    · rcases blame_at hblame.symm with hat | rfl
      · exact .inl hat
      · exact .inr ⟨scope, helem⟩
    · exact .inl rfl
  · exact .inl (hadd acc' a e hstep)

/-- What is computed from the content fails at the head or with the content. -/
theorem content_failed {head : Head} {run : Sequence → Except DecodeError σ} {finish : σ → α}
    {c c' : Cursor}
    (h : (do
      let seq ← ofHead ctx head
      let s ← Decoder.ofExcept (run seq)
      return finish s : Decoder α) c = .error e c') :
    e.At ctx ∨ ∃ seq c₁, ofHead ctx head c = .ok seq c₁ ∧ run seq = .error e := by
  rcases Decoder.bind_error.mp h with hopen | ⟨seq, c₁, hopen, hrest⟩
  · exact .inl (Decoder.FailsAt.ofHead _ _ _ hopen)
  · refine .inr ⟨seq, c₁, hopen, ?_⟩
    rcases Decoder.bind_error.mp hrest with hrun | ⟨_, _, _, hpure⟩
    · cases hresult : run seq with
      | ok s =>
        rw [hresult] at hrun
        cases hrun
      | error e' =>
        rw [hresult] at hrun
        cases hrun
        rfl
    · exact absurd hpure Decoder.pure_ne_error

end Sequence

/-! ## Decoders of values with parts -/

namespace Decoder

variable {ctx : Context} {shape : Shape} {type : String} {c c' : Cursor} {e : DecodeError}

/-- An array fails at one of its elements, the ones before it having been decoded. -/
theorem items_error {elem : Context → Decoder α} {n : Nat} (h : items elem ctx n c = .error e c') :
    ∃ as c₁ c₂, Items ctx elem c as c₁ ∧ as.length < n ∧
      elem (ctx.push Step.elementName c₁.pos) c₁ = .error e c₂ := by
  induction n generalizing c with
  | zero => exact absurd h pure_ne_error
  | succ n ih =>
    have hrun : (elem (ctx.push Step.elementName c.pos) >>= fun x => do
        let xs ← items elem ctx n
        return ⟨x :: xs.val, by rw [List.length_cons, xs.property]⟩ :
          Decoder (Tuple α (n + 1))) c = .error e c' := h
    -- Either the first element fails, or the array of the others does, and then one of them.
    rcases bind_error.mp hrun with hfirst | ⟨a, c₁, hfirst, hrest⟩
    · exact ⟨[], c, c', .nil, Nat.succ_pos n, hfirst⟩
    · rcases bind_error.mp hrest with htail | ⟨_, _, _, hpure⟩
      · obtain ⟨as, c₂, c₃, hbefore, hcount, hfails⟩ := ih htail
        exact ⟨a :: as, c₂, c₃, .cons hfirst hbefore, Nat.succ_lt_succ hcount, hfails⟩
      · exact absurd hpure pure_ne_error

/-- An array does not have the length that the shape asks for, or one of its elements fails. -/
theorem ofArray_error {elem : Context → Shape → Decoder α} {length : Nat}
    (h : ofArray type elem length ctx shape c = .error e c') :
    e.At ctx ∨ ∃ elemShape as c₁ c₂, shape = .array elemShape length ∧
      Items ctx (fun ctx => elem ctx elemShape) c as c₁ ∧ as.length < length ∧
      elem (ctx.push Step.elementName c₁.pos) elemShape c₁ = .error e c₂ := by
  cases shape with
  | array elemShape shapeLength =>
    rw [ofArray] at h
    split at h
    case isTrue heq =>
      subst heq
      obtain ⟨as, c₁, c₂, hbefore, hcount, hfails⟩ := items_error h
      exact .inr ⟨elemShape, as, c₁, c₂, rfl, hbefore, hcount, hfails⟩
    case isFalse =>
      cases h
      exact .inl rfl
  | _ =>
    cases h
    exact .inl rfl

/-- A vector fails at its head, at an element, or inside one. Where the content has a declared
length, a truncation inside an element is told of the element. -/
theorem ofVector_error {elem : Context → Shape → Decoder α}
    (h : ofVector type elem ctx shape c = .error e c') :
    e.At ctx ∨ ∃ elemShape head seq c₁ as seq', shape = .vector elemShape head ∧
      Sequence.ofHead ctx head c = .ok seq c₁ ∧
      Sequence.Yields ctx (fun ctx => elem ctx elemShape) seq as seq' ∧ seq'.scope.rest ≠ [] ∧
      (e.At (ctx.push Step.elementName seq'.scope.pos) ∨
        ∃ c', elem (ctx.push Step.elementName seq'.scope.pos) elemShape seq'.scope =
          .error e c') := by
  cases shape with
  | vector elemShape head =>
    rcases Sequence.content_failed h with hat | ⟨seq, c₁, hopen, hfold⟩
    · exact .inl hat
    · refine (Sequence.fold_failed ?hadd hfold).elim .inl ?hpart
      case hadd =>
        intro acc a e hadd
        cases hadd
      case hpart =>
        rintro ⟨as, seq', hbefore, hleft, hfails⟩
        exact .inr ⟨elemShape, head, seq, c₁, as, seq', rfl, hopen, hbefore, hleft, hfails⟩
  | _ =>
    cases h
    exact .inl rfl

/-- An entry fails at its key, or behind it at its value. -/
theorem entry_error {key : Context → Decoder κ} {value : Context → Decoder β}
    (h : entry key value ctx c = .error e c') :
    key ctx c = .error e c' ∨ ∃ k c₁, key ctx c = .ok k c₁ ∧ value ctx c₁ = .error e c' := by
  rcases bind_error.mp h with hkey | ⟨k, c₁, hkey, hrest⟩
  · exact .inl hkey
  · rcases bind_error.mp hrest with hvalue | ⟨_, _, _, hpure⟩
    · exact .inr ⟨k, c₁, hkey, hvalue⟩
    · exact absurd hpure pure_ne_error

/-- A map fails as a vector of entries does, and moreover with a key that it already has. Key and
value go by the path of their entry. -/
theorem ofMap_error {order : KeyOrder κ} {gatherer : Gatherer order β}
    {key : Context → Shape → Decoder κ} {value : Context → Shape → Decoder β}
    (h : ofMap type gatherer key value ctx shape c = .error e c') :
    e.At ctx ∨ ∃ keyShape valueShape head seq c₁ es seq',
      shape = .map keyShape valueShape head ∧ Sequence.ofHead ctx head c = .ok seq c₁ ∧
      Sequence.Yields ctx (entry (fun ctx => key ctx keyShape) fun ctx => value ctx valueShape)
        seq es seq' ∧ seq'.scope.rest ≠ [] ∧
      (e.At (ctx.push Step.elementName seq'.scope.pos) ∨
        (∃ c', key (ctx.push Step.elementName seq'.scope.pos) keyShape seq'.scope = .error e c') ∨
        ∃ k c₂ c', key (ctx.push Step.elementName seq'.scope.pos) keyShape seq'.scope = .ok k c₂ ∧
          value (ctx.push Step.elementName seq'.scope.pos) valueShape c₂ = .error e c') := by
  cases shape with
  | map keyShape valueShape head =>
    rcases Sequence.content_failed h with hat | ⟨seq, c₁, hopen, hfold⟩
    · exact .inl hat
    · refine (Sequence.fold_failed ?hadd hfold).elim .inl ?hpart
      case hadd =>
        -- What cannot be added is a repeated key, and that is told of the map.
        intro acc a e hadd
        split at hadd
        · cases hadd
        · cases hadd
          rfl
      case hpart =>
        rintro ⟨es, seq', hbefore, hleft, hfails⟩
        refine .inr ⟨keyShape, valueShape, head, seq, c₁, es, seq', rfl, hopen, hbefore, hleft, ?_⟩
        rcases hfails with hat | ⟨c₂, hentry⟩
        · exact .inl hat
        · rcases entry_error hentry with hkey | ⟨k, c₃, hkey, hvalue⟩
          · exact .inr (.inl ⟨c₂, hkey⟩)
          · exact .inr (.inr ⟨k, c₃, c₂, hkey, hvalue⟩)
  | _ =>
    cases h
    exact .inl rfl

/-- A pointer fails where its target does. -/
theorem ofBox_error {content : Context → Shape → Decoder α}
    (h : ofBox type content ctx shape c = .error e c') :
    e.At ctx ∨ ∃ target, shape = .pointer target ∧ content ctx target c = .error e c' := by
  cases shape with
  | pointer target => exact .inr ⟨target, rfl, h⟩
  | _ =>
    cases h
    exact .inl rfl

/-- Without a flag the value behind it fails. With one, the flag is missing, or it is neither 0 nor
1, or it is 1 and what follows fails. -/
theorem ofOption_error {content : Context → Shape → Decoder α}
    (h : ofOption type content ctx shape c = .error e c') :
    e.At ctx ∨ (∃ target, shape = .pointer target ∧ content ctx target c = .error e c') ∨
      ∃ target c₁, shape = .optional target ∧ read ctx Cursor.readByte c = .ok 1 c₁ ∧
        content ctx target c₁ = .error e c' := by
  cases shape with
  | pointer target => exact .inr (.inl ⟨target, rfl, map_error h⟩)
  | optional target =>
    rcases bind_error.mp h with hflag | ⟨flag, c₁, hflag, hrest⟩
    · exact .inl (FailsAt.read _ _ _ hflag)
    · split at hrest
      case isTrue => exact absurd hrest pure_ne_error
      case isFalse =>
        split at hrest
        case isTrue hone =>
          subst hone
          exact .inr (.inr ⟨target, c₁, rfl, hflag, map_error hrest⟩)
        case isFalse =>
          cases hrest
          exact .inl rfl
  | _ =>
    cases h
    exact .inl rfl

/-- A record fails where one of its fields does. -/
theorem ofRecord_error {fields : Context → Shape.Fields → Decoder α}
    (h : ofRecord type fields ctx shape c = .error e c') :
    e.At ctx ∨ ∃ shapes, shape = .record shapes ∧ fields ctx shapes c = .error e c' := by
  cases shape with
  | record shapes => exact .inr ⟨shapes, rfl, h⟩
  | _ =>
    cases h
    exact .inl rfl

end Decoder

/-! ## Schemas -/

namespace Schema

open Decoder

/-- A list of fields fails at the first field, which may be left out, or at one of those behind it.
-/
theorem Fields.decode_cons_error {info : FieldInfo} {schema : Schema α} {rest : Fields β}
    {ctx : Context} {shapes : Shape.Fields} {c c' : Cursor} {e : DecodeError}
    (h : (Fields.cons info schema rest).decode ctx shapes c = .error e c') :
    e.At ctx ∨
    (∃ name directive shape restShapes, shapes = .present name directive shape restShapes ∧
      schema.decode (ctx.push name c.pos) shape c = .error e c') ∨
    (∃ name directive shape restShapes x c₁,
      shapes = .present name directive shape restShapes ∧
      schema.decode (ctx.push name c.pos) shape c = .ok x c₁ ∧
      rest.decode ctx restShapes c₁ = .error e c') ∨
    ∃ name directive restShapes, shapes = .absent name directive restShapes ∧
      rest.decode ctx restShapes c = .error e c' := by
  cases shapes with
  | nil =>
    cases h
    exact .inl rfl
  | present name directive shape restShapes =>
    -- The field starts where the cursor is, and this place goes into its path.
    have hrun : (schema.decode (ctx.push name c.pos) shape >>= fun x => do
        let xs ← rest.decode ctx restShapes
        return (x, xs) : Decoder (α × β)) c = .error e c' := h
    rcases bind_error.mp hrun with hfield | ⟨x, c₁, hfield, hrest⟩
    · exact .inr (.inl ⟨name, directive, shape, restShapes, rfl, hfield⟩)
    · rcases bind_error.mp hrest with hrest | ⟨_, _, _, hpure⟩
      · exact .inr (.inr (.inl ⟨name, directive, shape, restShapes, x, c₁, rfl, hfield, hrest⟩))
      · exact absurd hpure pure_ne_error
  | absent name directive restShapes =>
    rcases bind_error.mp h with hrest | ⟨_, _, _, hpure⟩
    · exact .inr (.inr (.inr ⟨name, directive, restShapes, rfl, hrest⟩))
    · exact absurd hpure pure_ne_error

mutual

/-- Along any shape, an error tells the path of a site that decoding has reached. -/
theorem exists_site : {α : Type} → (schema : Schema α) → {shape : Shape} → {ctx : Context} →
    {c c' : Cursor} → {e : DecodeError} → schema.decode ctx shape c = .error e c' →
    ∃ site, Site.Reaches ⟨schema, shape, ctx, c⟩ site ∧ e.At site.ctx
  | _, .uint _, _, _, _, _, _, h => ⟨_, .refl, FailsAt.ofUint _ _ _ h⟩
  | _, .array _ elem _, _, _, _, _, _, h => by
    rw [decode] at h
    rcases ofArray_error h with hat | ⟨_, _, _, _, rfl, hbefore, hcount, helem⟩
    · exact ⟨_, .refl, hat⟩
    · obtain ⟨site, hreach, hat⟩ := exists_site elem helem
      exact ⟨site, .head (.item hbefore hcount) hreach, hat⟩
  | _, .vector _ elem, _, _, _, _, _, h => by
    rw [decode] at h
    -- The error is about the vector, about the element as a whole, or about something in the
    -- element.
    rcases ofVector_error h with hat | ⟨_, _, _, _, _, _, rfl, hopen, hbefore, hleft, hfails⟩
    · exact ⟨_, .refl, hat⟩
    · rcases hfails with hat | ⟨_, helem⟩
      · exact ⟨_, .single (.element hopen hbefore hleft), hat⟩
      · obtain ⟨site, hreach, hat⟩ := exists_site elem helem
        exact ⟨site, .head (.element hopen hbefore hleft) hreach, hat⟩
  | _, .map _ _ _ key value, _, _, _, _, _, h => by
    rw [decode] at h
    rcases ofMap_error h with hat | ⟨_, _, _, _, _, _, _, rfl, hopen, hbefore, hleft, hfails⟩
    · exact ⟨_, .refl, hat⟩
    -- An entry as a whole is told of by the path at which its key starts.
    · rcases hfails with hat | ⟨_, hkey⟩ | ⟨_, _, _, hkey, hvalue⟩
      · exact ⟨_, .single (.key hopen hbefore hleft), hat⟩
      · obtain ⟨site, hreach, hat⟩ := exists_site key hkey
        exact ⟨site, .head (.key hopen hbefore hleft) hreach, hat⟩
      · obtain ⟨site, hreach, hat⟩ := exists_site value hvalue
        exact ⟨site, .head (.value hopen hbefore hleft hkey) hreach, hat⟩
  | _, .box _ content, _, _, _, _, _, h => by
    rw [decode] at h
    rcases ofBox_error h with hat | ⟨_, rfl, hcontent⟩
    · exact ⟨_, .refl, hat⟩
    · obtain ⟨site, hreach, hat⟩ := exists_site content hcontent
      exact ⟨site, .head .boxed hreach, hat⟩
  | _, .option _ content, _, _, _, _, _, h => by
    rw [decode] at h
    rcases ofOption_error h with hat | ⟨_, rfl, hcontent⟩ | ⟨_, _, rfl, hflag, hcontent⟩
    · exact ⟨_, .refl, hat⟩
    · obtain ⟨site, hreach, hat⟩ := exists_site content hcontent
      exact ⟨site, .head .required hreach, hat⟩
    · obtain ⟨site, hreach, hat⟩ := exists_site content hcontent
      exact ⟨site, .head (.flagged hflag) hreach, hat⟩
  | _, .record _ fields _ _, _, _, _, _, _, h => by
    rw [decode] at h
    rcases ofRecord_error h with hat | ⟨_, rfl, hfields⟩
    · exact ⟨_, .refl, hat⟩
    · rcases Fields.exists_site fields hfields with hat | ⟨field, site, hfield, hreach, hat⟩
      · exact ⟨_, .refl, hat⟩
      · exact ⟨site, .head (.field hfield) hreach, hat⟩
  | _, .custom _, _, _, _, _, _, h => ⟨_, .refl, FailsAt.ofHook _ _ _ h⟩

/-- The same for fields. Only what a record as a whole can be blamed for stays with the record. -/
theorem Fields.exists_site : {α : Type} → (fields : Fields α) → {shapes : Shape.Fields} →
    {ctx : Context} → {c c' : Cursor} → {e : DecodeError} →
    fields.decode ctx shapes c = .error e c' →
    e.At ctx ∨ ∃ field site, fields.GetsTo shapes ctx c field ∧ field.Reaches site ∧ e.At site.ctx
  | _, .nil, _, _, _, _, _, h => by
    rw [Fields.decode] at h
    exact absurd h pure_ne_error
  | _, .cons _ schema rest, _, _, _, _, _, h => by
    rcases Fields.decode_cons_error h with hat | ⟨_, _, _, _, rfl, hfield⟩ |
      ⟨_, _, _, _, _, _, rfl, hfield, hrest⟩ | ⟨_, _, _, rfl, hrest⟩
    · exact .inl hat
    · obtain ⟨site, hreach, hat⟩ := Schema.exists_site schema hfield
      exact .inr ⟨_, site, .here, hreach, hat⟩
    · rcases Fields.exists_site rest hrest with hat | ⟨field, site, hgets, hreach, hat⟩
      · exact .inl hat
      · exact .inr ⟨field, site, .present hfield hgets, hreach, hat⟩
    · rcases Fields.exists_site rest hrest with hat | ⟨field, site, hgets, hreach, hat⟩
      · exact .inl hat
      · exact .inr ⟨field, site, .absent hgets, hreach, hat⟩

end

end Schema

end TlsWire
