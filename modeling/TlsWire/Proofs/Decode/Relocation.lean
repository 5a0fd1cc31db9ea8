import TlsWire.Proofs.Alike
import TlsWire.Proofs.Decode.Forward
import TlsWire.Proofs.Decode.SelfDelimiting
import TlsWire.Proofs.Dict

/-!
# Decoding in another place

The same bytes can stand in another place: further on in an input, and further down a path. A
`Relocation` says where. A decoder that runs there does what it does here: it takes the same bytes,
and an error is the same but for where it is (`Relocation.Follows`). This is closed under the ways
of building decoders. The values may be in another representation, so the lemmas speak of two
decoders side by side, and `R` or a function relates what they return.

* `Relocation.fold_alike` — sequences are decoded alike if their elements are, also if the head of
  only one of them has declared a length;
* `Schema.decode_relocates` — along any shape a schema decodes in another place what it decodes
  here;
* `Schema.unmarshalWith_alike` — the same for whole inputs, where there is no other place.
-/

namespace TlsWire

variable {α α' β β' κ κ' σ σ' : Type}

/-- Where something stands that has been at the front of an input. -/
structure Relocation where
  /-- The number of bytes before it. -/
  shift : Nat
  /-- The path that leads to it. -/
  outer : Location

namespace Relocation

/-- No other place. -/
def here : Relocation where
  shift := 0
  outer := []

variable (r : Relocation)

/-- A step starts as much later as everything else. -/
def step (s : Step) : Step := { s with pos := s.pos + r.shift }

/-- Where a location is after the move. -/
def location (loc : Location) : Location := loc.map r.step ++ r.outer

/-- The context of the same part in the other place. The limit goes along unchanged. -/
def context (ctx : Context) : Context := { ctx with location := r.location ctx.location }

/-- The same error in the other place. -/
def error : DecodeError → DecodeError
  | .invalidDirective e => .invalidDirective e
  | .truncated loc t => .truncated (r.location loc) t
  | .malformed loc why => .malformed (r.location loc) why
  | .badFlag loc flag => .badFlag (r.location loc) flag
  | .hookOverrun loc consumed available => .hookOverrun (r.location loc) consumed available
  | .tooWide loc value bits => .tooWide (r.location loc) value bits
  | .hookFailed loc reason => .hookFailed (r.location loc) reason
  | .collectionTooLarge loc => .collectionTooLarge (r.location loc)
  | .shapeMismatch loc type kind => .shapeMismatch (r.location loc) type kind
  | .missingField loc type => .missingField (r.location loc) type
  | .trailing consumed length => .trailing consumed length

/-- Nothing is put before a location, and nothing is added to its positions. -/
@[simp] theorem here_location (loc : Location) : here.location loc = loc := by
  have hstep : here.step = id := rfl
  rw [location, hstep, List.map_id]
  exact List.append_nil loc

/-- With no other place the context is the one given. -/
@[simp] theorem here_context (ctx : Context) : here.context ctx = ctx := by
  rw [context, here_location]

/-- With no other place an error is the one met. -/
@[simp] theorem here_error (e : DecodeError) : here.error e = e := by
  cases e <;> simp only [error, here_location]

/-- A part of the value starts as much later as the value does. -/
theorem context_push (ctx : Context) (name : String) (pos : Nat) :
    r.context (ctx.push name pos) = (r.context ctx).push name (pos + r.shift) := rfl

/-- Two cursors in front of the same bytes. -/
structure Same (c c' : Cursor) : Prop where
  rest : c'.rest = c.rest
  pos : c'.pos = c.pos + r.shift

variable {r}

/-- As many bytes are left in front of both. -/
theorem Same.remaining {c c' : Cursor} (h : r.Same c c') : c'.remaining = c.remaining := by
  rw [c'.remaining_eq, c.remaining_eq, h.rest]

/-- Both are at the end, or neither is. -/
theorem Same.isEmpty {c c' : Cursor} (h : r.Same c c') : c'.isEmpty = c.isEmpty := by
  rw [Cursor.isEmpty, Cursor.isEmpty, h.remaining]

/-- Two runs in front of the same bytes. `E` relates their errors, `V` where they have got to, and
`R` what they return. -/
inductive Agrees {S T : Type} (E : DecodeError → DecodeError → Prop) (V : S → T → Prop)
    (R : α → β → Prop) :
    EStateM.Result DecodeError S α → EStateM.Result DecodeError T β → Prop where
  | ok {a : α} {b : β} {s : S} {t : T} (hvalue : R a b) (hstate : V s t) :
      Agrees E V R (.ok a s) (.ok b t)
  | error {e e' : DecodeError} {s : S} {t : T} (herror : E e e') (hstate : V s t) :
      Agrees E V R (.error e s) (.error e' t)

/-- The error is the same in the other place. -/
abbrev Moved (r : Relocation) (e e' : DecodeError) : Prop := e' = r.error e

/-- The second decoder does in the other place what the first one does here. -/
def Follows (r : Relocation) (R : α → β → Prop) (d : Decoder α) (d' : Decoder β) : Prop :=
  ∀ c c', r.Same c c' → Agrees r.Moved r.Same R (d c) (d' c')

/-- The value is the image of the other one. -/
abbrev Sends (f : α → β) (a : α) (b : β) : Prop := b = f a

namespace Follows

variable {R : α → β → Prop} {Q : α' → β' → Prop} {d : Decoder α} {d' : Decoder β}

/-! ## Steps -/

theorem pure {a : α} {b : β} (h : R a b) : r.Follows R (pure a) (pure b) := fun _ _ hc => .ok h hc

theorem throw {e e' : DecodeError} (h : e' = r.error e) : r.Follows R (throw e) (throw e') :=
  fun _ _ hc => .error h hc

/-- Two steps follow two steps, where the second ones follow each other on related values. -/
theorem bind {f : α → Decoder α'} {f' : β → Decoder β'} (h : r.Follows R d d')
    (hf : ∀ a b, R a b → r.Follows Q (f a) (f' b)) : r.Follows Q (d >>= f) (d' >>= f') := by
  intro c c' hc
  have hfirst := h c c' hc
  show Agrees r.Moved r.Same Q (EStateM.bind d f c) (EStateM.bind d' f' c')
  unfold EStateM.bind
  generalize d c = res at hfirst
  generalize d' c' = res' at hfirst
  cases hfirst with
  | ok hvalue hstate => exact hf _ _ hvalue _ _ hstate
  | error herror hstate => exact .error herror hstate

/-- Computing something from the values keeps the runs together if the results are related. -/
theorem map {f : α → α'} {f' : β → β'} (h : r.Follows R d d')
    (hf : ∀ a b, R a b → Q (f a) (f' b)) : r.Follows Q (f <$> d) (f' <$> d') := by
  rw [map_eq_pure_bind, map_eq_pure_bind]
  exact h.bind fun a b hab => .pure (hf a b hab)

/-- Only the second decoder has another step, which does not fail. -/
theorem map_right {Q : α → β' → Prop} {g : β → β'} (h : r.Follows R d d')
    (hg : ∀ a b, R a b → Q a (g b)) : r.Follows Q d (g <$> d') := by
  have hmap : r.Follows Q (id <$> d) (g <$> d') := h.map hg
  rwa [id_map] at hmap

/-- What is known of the values can be weakened. -/
theorem mono {R' : α → β → Prop} (h : r.Follows R d d') (hR : ∀ a b, R a b → R' a b) :
    r.Follows R' d d' := by
  intro c c' hc
  have hrun := h c c' hc
  -- The runs stay as they are. Only what is said of the values changes.
  generalize d c = res at hrun
  generalize d' c' = res' at hrun
  cases hrun with
  | ok hvalue hstate => exact .ok (hR _ _ hvalue) hstate
  | error herror hstate => exact .error herror hstate

/-- The positions differ by the shift, and whatever is done with them may differ by as much. -/
theorem pos {f : Nat → Decoder α} {f' : Nat → Decoder β}
    (h : ∀ p, r.Follows R (f p) (f' (p + r.shift))) :
    r.Follows R (Decoder.pos >>= f) (Decoder.pos >>= f') := by
  intro c c' hc
  show Agrees r.Moved r.Same R (f c.pos c) (f' c'.pos c')
  rw [hc.pos]
  exact h c.pos c c' hc

/-- The two cursors are at hand, and with them that they are in front of the same bytes. -/
theorem cursor {f : Cursor → Decoder α} {f' : Cursor → Decoder β}
    (h : ∀ c c', r.Same c c' → r.Follows R (f c) (f' c')) :
    r.Follows R (Decoder.cursor >>= f) (Decoder.cursor >>= f') :=
  fun c c' hc => h c c' hc c c' hc

/-- A result that is alike makes steps that follow each other, neither of which moves. -/
theorem ofExcept {x : Except DecodeError α} {y : Except DecodeError β} (h : Alike r.Moved R x y) :
    r.Follows R (Decoder.ofExcept x) (Decoder.ofExcept y) := by
  cases h with
  | ok hab => exact .pure hab
  | error he => exact .throw he

end Follows

/-! ## Reads -/

/-- The reader takes the same bytes in front of both cursors. -/
def Reads (r : Relocation) (R : α → β → Prop) (reader : Cursor → Except Truncated (α × Cursor))
    (reader' : Cursor → Except Truncated (β × Cursor)) : Prop :=
  ∀ c c', r.Same c c' →
    Alike Eq (fun x y => R x.1 y.1 ∧ r.Same x.2 y.2) (reader c) (reader' c')

/-- A reader that takes the same bytes fails, if it does, with the same truncation at the same
path. -/
theorem Reads.follows {R : α → β → Prop} {reader : Cursor → Except Truncated (α × Cursor)}
    {reader' : Cursor → Except Truncated (β × Cursor)} (h : r.Reads R reader reader')
    (ctx : Context) :
    r.Follows R (Decoder.read ctx reader) (Decoder.read (r.context ctx) reader') := by
  intro c c' hc
  have hread := h c c' hc
  unfold Decoder.read
  generalize reader c = x at hread
  generalize reader' c' = y at hread
  cases hread with
  | ok hab => exact .ok hab.1 hab.2
  | error he =>
    subst he
    exact .error rfl hc

/-- Taking bytes depends on how many are left, and that is the same. -/
theorem take_reads (n : Nat) : r.Reads Eq (Cursor.take n) (Cursor.take n) := by
  intro c c' hc
  unfold Cursor.take
  by_cases hwithin : n ≤ c.remaining
  case pos =>
    have hwithin' : n ≤ c'.remaining := hc.remaining ▸ hwithin
    have hpos : c'.base + c'.consumed = c.base + c.consumed + r.shift := hc.pos
    rw [if_pos hwithin, if_pos hwithin']
    refine .ok ⟨congrArg (List.take n) hc.rest.symm, congrArg (List.drop n) hc.rest, ?_⟩
    show c'.base + (c'.consumed + n) = c.base + (c.consumed + n) + r.shift
    omega
  case neg =>
    have hwithin' : ¬ n ≤ c'.remaining := hc.remaining ▸ hwithin
    rw [if_neg hwithin, if_neg hwithin', hc.remaining]
    exact .error rfl

/-- A byte is the first of one taken. -/
theorem readByte_reads : r.Reads Eq Cursor.readByte Cursor.readByte := by
  intro c c' hc
  exact (take_reads 1 c c' hc).bind fun x y hxy => .pure ⟨by rw [hxy.1], hxy.2⟩

/-- The new scopes start at the two cursors, and so they are apart by the shift. -/
theorem split_reads (n : Nat) : r.Reads r.Same (Cursor.split n) (Cursor.split n) := by
  intro c c' hc
  -- A scope is in front of what has been taken, and its base is where its cursor was.
  exact (take_reads n c c' hc).bind fun x y hxy =>
    .pure ⟨⟨hxy.1.symm, hc.pos⟩, hxy.2⟩

/-- A number is made from the bytes taken. -/
theorem uint_reads (width : Nat) : r.Reads Eq (Uint.decode width) (Uint.decode width) := by
  intro c c' hc
  exact (take_reads width c c' hc).bind fun x y hxy => .pure ⟨by rw [hxy.1], hxy.2⟩

/-- How many bytes a varint has is told by its first byte, which is the same. -/
theorem varint_reads : r.Reads Eq Varint.decode Varint.decode := by
  intro c c' hc
  unfold Varint.decode
  rw [hc.rest]
  cases c.rest with
  | nil => exact .error rfl
  | cons first tail =>
    exact (uint_reads _ c c' hc).bind fun x y hxy => .pure ⟨by rw [hxy.1], hxy.2⟩

/-! ## Sequences -/

/-- The same content is left of both. -/
structure SameContent (r : Relocation) (bounded bounded' : Bool) (seq seq' : Sequence) : Prop where
  scope : r.Same seq.scope seq'.scope
  count : seq'.count = seq.count
  bounded : seq.bounded = bounded
  bounded' : seq'.bounded = bounded'

/-- The same length is declared in both places, so the same content is set aside. -/
theorem ofHead_follows (ctx : Context) (head : Head) :
    r.Follows (fun seq seq' => ∃ b, r.SameContent b b seq seq') (Sequence.ofHead ctx head)
      (Sequence.ofHead (r.context ctx) head) := by
  cases head with
  | fixed width =>
    refine ((uint_reads width).follows ctx).bind fun length length' hlength => ?_
    subst hlength
    exact ((split_reads length).follows ctx).bind fun _ _ hscope =>
      .pure ⟨true, hscope, rfl, rfl, rfl⟩
  | varint =>
    refine (varint_reads.follows ctx).bind fun length length' hlength => ?_
    subst hlength
    exact ((split_reads length).follows ctx).bind fun _ _ hscope =>
      .pure ⟨true, hscope, rfl, rfl, rfl⟩
  | unbounded =>
    -- All that is left is the content, and as much is left in both places.
    refine .cursor fun c c' hc => ?_
    rw [hc.remaining]
    exact ((split_reads c.remaining).follows ctx).bind fun _ _ hscope =>
      .pure ⟨false, hscope, rfl, rfl, rfl⟩

section Elements

variable {E : DecodeError → DecodeError → Prop} {b b' : Bool} {R : α → β → Prop} {ctx : Context}
  {elem : Context → Decoder α} {elem' : Context → Decoder β} {seq seq' : Sequence}

/-- How the errors of two sequences are related. An error that is no truncation is the same in the
other place. What becomes of an error inside an element is up to the two sequences. -/
structure Blames (r : Relocation) (E : DecodeError → DecodeError → Prop) (b b' : Bool)
    (ctx : Context) (elem : Context → Decoder α) : Prop where
  final : ∀ e, e.Final → E e (r.error e)
  inside : ∀ pos c e c', elem (ctx.push Step.elementName pos) c = .error e c' →
    E (Sequence.blame b (ctx.push Step.elementName pos) e)
      (Sequence.blame b' (r.context (ctx.push Step.elementName pos)) (r.error e))

/-- Where both or neither have a declared length, errors are the same. -/
theorem blames_moved : r.Blames r.Moved b b ctx elem where
  final _ _ := rfl
  inside _ _ e _ _ := by cases e <;> cases b <;> rfl

/-- The next element is decoded alike in both places, or the same is wrong with it. -/
theorem next_agrees (hblames : r.Blames E b b' ctx elem)
    (helem : ∀ ctx, r.Follows R (elem ctx) (elem' (r.context ctx)))
    (h : r.SameContent b b' seq seq') :
    Agrees E (r.SameContent b b') (Option.Rel R) (Sequence.next ctx elem seq)
      (Sequence.next (r.context ctx) elem' seq') := by
  obtain ⟨scope, _, count⟩ := seq
  obtain ⟨scope', _, _⟩ := seq'
  obtain ⟨hscope, ⟨⟩, ⟨⟩, ⟨⟩⟩ := h
  replace hscope : r.Same scope scope' := hscope
  unfold Sequence.next
  simp only [hscope.isEmpty, hscope.pos, ← context_push]
  split
  case isTrue => exact .ok .none ⟨hscope, rfl, rfl, rfl⟩
  case isFalse =>
    unfold Context.checkCollect
    by_cases hlimit : ctx.maxCollect ≤ count
    case pos =>
      -- The limit is the same in both places.
      have hlimit' : (ctx.push Step.elementName scope.pos).maxCollect ≤ count := hlimit
      have hlimit'' : (r.context (ctx.push Step.elementName scope.pos)).maxCollect ≤ count := hlimit
      rw [if_pos hlimit', if_pos hlimit'']
      exact .error (hblames.final (.collectionTooLarge _) nofun) ⟨hscope, rfl, rfl, rfl⟩
    case neg =>
      have hlimit' : ¬ (ctx.push Step.elementName scope.pos).maxCollect ≤ count := hlimit
      have hlimit'' : ¬ (r.context (ctx.push Step.elementName scope.pos)).maxCollect ≤ count :=
        hlimit
      rw [if_neg hlimit', if_neg hlimit'']
      simp only
      have hrun := helem (ctx.push Step.elementName scope.pos) _ _ hscope
      -- What becomes of an error inside is asked for at the very cursor at which it was met.
      have hinside := hblames.inside scope.pos scope
      generalize elem (ctx.push Step.elementName scope.pos) scope = res at hrun hinside ⊢
      generalize elem' (r.context (ctx.push Step.elementName scope.pos)) scope' = res' at hrun ⊢
      cases hrun with
      | error herror hstate =>
        subst herror
        exact .error (hinside _ _ rfl) ⟨hstate, rfl, rfl, rfl⟩
      | ok hvalue hstate =>
        -- The element is empty in both places or in neither.
        simp only [hstate.remaining, hscope.remaining]
        split
        case isTrue => exact .ok (.some hvalue) ⟨hstate, rfl, rfl, rfl⟩
        case isFalse =>
          exact .error (hblames.final (.malformed _ .emptyElement) nofun) ⟨hstate, rfl, rfl, rfl⟩

/-- What is added up stays related, so what becomes of all elements is. -/
theorem fold_alike {S : σ → σ' → Prop} {add : σ → α → Except DecodeError σ}
    {add' : σ' → β → Except DecodeError σ'} {acc : σ} {acc' : σ'} {seq seq' : Sequence}
    (hblames : r.Blames E b b' ctx elem)
    (helem : ∀ ctx, r.Follows R (elem ctx) (elem' (r.context ctx)))
    (hadd : ∀ acc acc' x y, S acc acc' → R x y → Alike E S (add acc x) (add' acc' y))
    (h : r.SameContent b b' seq seq') (hacc : S acc acc') :
    Alike E S (seq.fold ctx elem add acc) (seq'.fold (r.context ctx) elem' add' acc') := by
  have hnext : Agrees E (r.SameContent b b') (Option.Rel R) (Sequence.next ctx elem seq)
      (Sequence.next (r.context ctx) elem' seq') := next_agrees hblames helem h
  rw [Sequence.fold_eq, Sequence.fold_eq (r.context ctx)]
  generalize hfound : Sequence.next ctx elem seq = res at hnext ⊢
  generalize Sequence.next (r.context ctx) elem' seq' = res' at hnext ⊢
  cases hnext with
  | error herror _ => exact .error herror
  | ok hvalue hstate =>
    cases hvalue with
    | none => exact .ok hacc
    | @some x y hxy =>
      -- By recursion on what the first sequence has left. The second one has as much.
      have hsolid := Sequence.remaining_lt_of_next hfound
      have hstep := hadd acc acc' x y hacc hxy
      simp only
      generalize add acc x = sum at hstep ⊢
      generalize add' acc' y = sum' at hstep ⊢
      cases hstep with
      | error herror => exact .error herror
      | ok hsum => exact fold_alike hblames helem hadd hstate hsum
  termination_by seq.scope.remaining
  decreasing_by exact hsolid

end Elements

/-! ## Elements and entries -/

/-- Elements that are images of each other make lists that are. -/
theorem fold_vector_alike {E : DecodeError → DecodeError → Prop} {b b' : Bool} {ctx : Context}
    {elem : Context → Decoder α} {elem' : Context → Decoder β} {f : α → β} {seq seq' : Sequence}
    (hblames : r.Blames E b b' ctx elem)
    (helem : ∀ ctx, r.Follows (Sends f) (elem ctx) (elem' (r.context ctx)))
    (h : r.SameContent b b' seq seq') :
    Alike E (Sends (List.map f)) (seq.fold ctx elem (fun acc x => .ok (x :: acc)) [])
      (seq'.fold (r.context ctx) elem' (fun acc x => .ok (x :: acc)) []) := by
  refine fold_alike hblames helem (fun acc acc' x y hacc hxy => .ok ?_) h rfl
  rw [Sends, hacc, hxy, List.map_cons]

/-- The value follows the key in both places, so it is decoded behind the same bytes. -/
theorem Follows.entry {key : Context → Decoder κ} {key' : Context → Decoder κ'}
    {value : Context → Decoder β} {value' : Context → Decoder β'} {f : κ → κ'} {g : β → β'}
    (hkey : ∀ ctx, r.Follows (Sends f) (key ctx) (key' (r.context ctx)))
    (hvalue : ∀ ctx, r.Follows (Sends g) (value ctx) (value' (r.context ctx))) (ctx : Context) :
    r.Follows (Sends (Prod.map f g)) (Decoder.entry key value ctx)
      (Decoder.entry key' value' (r.context ctx)) := by
  refine (hkey ctx).bind fun k k' hk => ?_
  refine (hvalue ctx).bind fun v v' hv => .pure ?_
  rw [Sends, hk, hv, Prod.map_apply]

section Gather

variable {order : KeyOrder κ} {order' : KeyOrder κ'} {f : κ → κ'} {g : β → β'}

/-- The states of two gatherers that have been given the same entries, the second one the images of
what the first one has. -/
structure SameEntries (kind kind' : MapKind) (f : κ → κ') (g : β → β')
    (s : (kind.gatherer : Gatherer order β).State)
    (s' : (kind'.gatherer : Gatherer order' β').State) : Prop where
  exists_entries : ∃ es, kind.view.Holds s es ∧ kind'.view.Holds s' (es.map (Prod.map f g)) ∧
    (Dict.keys es).Nodup

/-- The keys of the images are the images of the keys. -/
theorem keys_map (es : List (κ × β)) :
    Dict.keys (es.map (Prod.map f g)) = (Dict.keys es).map f := by
  rw [Dict.keys, Dict.keys, List.map_map, List.map_map]
  rfl

variable {kind kind' : MapKind} {s : (kind.gatherer : Gatherer order β).State}
  {s' : (kind'.gatherer : Gatherer order' β').State}

/-- At first neither has been given an entry. -/
theorem SameEntries.start :
    SameEntries kind kind' f g (kind.gatherer : Gatherer order β).start
      (kind'.gatherer : Gatherer order' β').start :=
  ⟨[], kind.view.start, kind'.view.start, List.nodup_nil⟩

/-- An entry is turned away by both or by none, because images of different keys are different. -/
theorem gather_alike {E : DecodeError → DecodeError → Prop} {duplicate duplicate' : DecodeError}
    (hE : E duplicate duplicate') (hinj : Function.Injective f) {e : κ × β} {e' : κ' × β'}
    (hs : SameEntries kind kind' f g s s') (he : Sends (Prod.map f g) e e') :
    Alike E (SameEntries kind kind' f g) (kind.gatherer.gather duplicate s e)
      (kind'.gatherer.gather duplicate' s' e') := by
  obtain ⟨es, hholds, hholds', hnodup⟩ := hs
  subst he
  -- Here the images have to be different: a key is known to both or to none.
  have hkeys : (Prod.map f g e).1 ∈ Dict.keys (es.map (Prod.map f g)) ↔ e.1 ∈ Dict.keys es := by
    rw [keys_map]
    exact List.mem_map_of_injective hinj
  by_cases hknown : e.1 ∈ Dict.keys es
  case pos =>
    rw [kind.view.gather_known hholds hknown,
      kind'.view.gather_known hholds' (hkeys.mpr hknown)]
    exact .error hE
  case neg =>
    obtain ⟨t, hadd, ht⟩ := kind.view.gather_new duplicate hholds hknown
    obtain ⟨t', hadd', ht'⟩ :=
      kind'.view.gather_new duplicate' hholds' (hknown ∘ hkeys.mp)
    rw [hadd, hadd']
    exact .ok ⟨e :: es, ht, ht', List.nodup_cons.mpr ⟨hknown, hnodup⟩⟩

/-- Both are left with the same entries, the second one with the images, and a map is its entries.
-/
theorem SameEntries.finish {h : Dict order β → Dict order' β'} (hinj : Function.Injective f)
    (hmap : ∀ dict, (h dict).entries.Perm (dict.entries.map (Prod.map f g)))
    (hs : SameEntries kind kind' f g s s') :
    kind'.gatherer.finish s' = h (kind.gatherer.finish s) := by
  obtain ⟨es, hholds, hholds', hnodup⟩ := hs
  -- What a gatherer yields is known for entries without a repeated key, and those the images are.
  have hnodup' : (Dict.keys (es.map (Prod.map f g))).Nodup := by
    rw [keys_map]
    exact hnodup.map hinj
  -- Each kind yields its entries in an order of its own. The maps have the same ones all the same.
  apply Dict.ext_perm
  calc (kind'.gatherer.finish s').entries.Perm (es.map (Prod.map f g)) :=
        kind'.view.finish hholds' hnodup'
    List.Perm _ ((kind.gatherer.finish s).entries.map (Prod.map f g)) :=
        ((kind.view.finish hholds hnodup).map _).symm
    List.Perm _ (h (kind.gatherer.finish s)).entries := (hmap _).symm

theorem fold_map_alike {E : DecodeError → DecodeError → Prop} {b b' : Bool} {ctx : Context}
    {entry : Context → Decoder (κ × β)} {entry' : Context → Decoder (κ' × β')}
    {seq seq' : Sequence} (hblames : r.Blames E b b' ctx entry)
    (hentry : ∀ ctx, r.Follows (Sends (Prod.map f g)) (entry ctx) (entry' (r.context ctx)))
    (hinj : Function.Injective f) (h : r.SameContent b b' seq seq') :
    Alike E (SameEntries kind kind' f g)
      (seq.fold ctx entry (kind.gatherer.gather (.malformed ctx.location .duplicateKey))
        (kind.gatherer : Gatherer order β).start)
      (seq'.fold (r.context ctx) entry'
        (kind'.gatherer.gather (.malformed (r.location ctx.location) .duplicateKey))
        (kind'.gatherer : Gatherer order' β').start) := by
  have hduplicate : E (.malformed ctx.location .duplicateKey)
      (.malformed (r.location ctx.location) .duplicateKey) :=
    hblames.final (.malformed ctx.location .duplicateKey) nofun
  exact fold_alike hblames hentry (fun _ _ _ _ => gather_alike hduplicate hinj) h .start

end Gather

/-! ## Kinds of types -/

namespace Follows

variable {type type' : String} {ctx : Context} {shape shape' : Shape} {head : Head} {f : α → β}

/-- A number is the same in both places, and too wide in both or in neither. -/
theorem ofUint {t : UintType} :
    r.Follows (Sends id) (Decoder.ofUint t ctx shape)
      (Decoder.ofUint t (r.context ctx) shape) := by
  -- The two forms of a number differ in the reader only.
  have hnarrow : ∀ reader : Cursor → Except Truncated (Nat × Cursor), r.Reads Eq reader reader →
      r.Follows (Sends id) (Decoder.ofUint.narrow t ctx reader)
        (Decoder.ofUint.narrow t (r.context ctx) reader) := by
    intro reader hreader
    refine (hreader.follows ctx).bind fun n n' hn => ?_
    subst hn
    split
    · exact .pure rfl
    · exact .throw rfl
  cases shape with
  | integer bits => exact hnarrow _ (uint_reads _)
  | varint bits => exact hnarrow _ varint_reads
  | _ => exact .throw rfl

/-- Element by element, each one starting as much later as the array does. -/
theorem items {elem : Context → Decoder α} {elem' : Context → Decoder β}
    (helem : ∀ ctx, r.Follows (Sends f) (elem ctx) (elem' (r.context ctx))) :
    (length : Nat) → r.Follows (fun xs ys => ys.val = xs.val.map f)
      (Decoder.items elem ctx length) (Decoder.items elem' (r.context ctx) length)
  | 0 => .pure rfl
  | length + 1 => by
    refine .pos fun p => ?_
    rw [← context_push]
    refine (helem _).bind fun x y hxy => ?_
    refine (items helem length).bind fun xs ys hxs => .pure ?_
    show y :: ys.val = (x :: xs.val).map f
    rw [hxy, hxs, List.map_cons]

/-- An array of the length the shape asks for. Only the elements have to follow. -/
theorem ofArray {elem : Context → Shape → Decoder α} {elem' : Context → Shape → Decoder β}
    {length : Nat}
    (helem : ∀ ctx, r.Follows (Sends f) (elem ctx shape) (elem' (r.context ctx) shape')) :
    r.Follows (fun xs ys => ys.val = xs.val.map f)
      (Decoder.ofArray type elem length ctx (.array shape length))
      (Decoder.ofArray type' elem' length (r.context ctx) (.array shape' length)) := by
  rw [Decoder.ofArray, Decoder.ofArray, if_pos rfl, if_pos rfl]
  exact items helem length

/-- A vector whose head is the same in both places, whatever the element types are called. -/
theorem ofVector {elem : Context → Shape → Decoder α} {elem' : Context → Shape → Decoder β}
    (helem : ∀ ctx, r.Follows (Sends f) (elem ctx shape) (elem' (r.context ctx) shape')) :
    r.Follows (Sends (List.map f)) (Decoder.ofVector type elem ctx (.vector shape head))
      (Decoder.ofVector type' elem' (r.context ctx) (.vector shape' head)) := by
  refine (ofHead_follows ctx head).bind fun seq seq' hseq => ?_
  obtain ⟨b, hseq⟩ := hseq
  refine (ofExcept (fold_vector_alike blames_moved helem hseq)).bind fun xs ys hxs => .pure ?_
  rw [Sends, hxs, List.map_reverse]

/-- Maps of any two kinds gather the same entries, and turn the same entry away. -/
theorem ofMap {order : KeyOrder κ} {order' : KeyOrder κ'} {kind kind' : MapKind}
    {key : Context → Shape → Decoder κ} {key' : Context → Shape → Decoder κ'}
    {value : Context → Shape → Decoder β} {value' : Context → Shape → Decoder β'}
    {keyShape keyShape' valueShape valueShape' : Shape} {f : κ → κ'} {g : β → β'}
    {h : Dict order β → Dict order' β'}
    (hkey : ∀ ctx, r.Follows (Sends f) (key ctx keyShape) (key' (r.context ctx) keyShape'))
    (hvalue : ∀ ctx, r.Follows (Sends g) (value ctx valueShape)
      (value' (r.context ctx) valueShape'))
    (hinj : Function.Injective f)
    (hmap : ∀ dict, (h dict).entries.Perm (dict.entries.map (Prod.map f g))) :
    r.Follows (Sends h)
      (Decoder.ofMap type kind.gatherer key value ctx (.map keyShape valueShape head))
      (Decoder.ofMap type' kind'.gatherer key' value' (r.context ctx)
        (.map keyShape' valueShape' head)) := by
  refine (ofHead_follows ctx head).bind fun seq seq' hseq => ?_
  -- Both have a declared length or both have none, so the errors inside are turned alike.
  obtain ⟨b, hseq⟩ := hseq
  exact (ofExcept (fold_map_alike blames_moved (entry hkey hvalue) hinj hseq)).bind
    fun _ _ hs => .pure (hs.finish hinj hmap)

/-- A pointer adds nothing to its target. -/
theorem ofBox {content : Context → Shape → Decoder α} {content' : Context → Shape → Decoder β}
    {R : α → β → Prop} (h : r.Follows R (content ctx shape) (content' (r.context ctx) shape')) :
    r.Follows R (Decoder.ofBox type content ctx (.pointer shape))
      (Decoder.ofBox type' content' (r.context ctx) (.pointer shape')) := h

/-- Something in both places. -/
theorem some {d : Decoder α} {d' : Decoder β} (h : r.Follows (Sends f) d d') :
    r.Follows (Sends (Option.map f)) (Option.some <$> d) (Option.some <$> d') :=
  h.map fun x y hxy => by rw [Sends, hxy, Option.map_some]

/-- With a flag and without one. -/
theorem ofOption {content : Context → Shape → Decoder α} {content' : Context → Shape → Decoder β}
    {target target' : Shape}
    (hshape : shape = .optional target ∧ shape' = .optional target' ∨
      shape = .pointer target ∧ shape' = .pointer target')
    (h : r.Follows (Sends f) (content ctx target) (content' (r.context ctx) target')) :
    r.Follows (Sends (Option.map f)) (Decoder.ofOption type content ctx shape)
      (Decoder.ofOption type' content' (r.context ctx) shape') := by
  rcases hshape with ⟨rfl, rfl⟩ | ⟨rfl, rfl⟩
  · refine (readByte_reads.follows ctx).bind fun flag flag' hflag => ?_
    subst hflag
    split
    · exact .pure rfl
    · split
      · exact h.some
      · exact .throw rfl
  · exact h.some

/-- A record adds nothing to its fields. -/
theorem ofRecord {fields : Context → Shape.Fields → Decoder α}
    {fields' : Context → Shape.Fields → Decoder β} {shapes shapes' : Shape.Fields}
    {R : α → β → Prop} (h : r.Follows R (fields ctx shapes) (fields' (r.context ctx) shapes')) :
    r.Follows R (Decoder.ofRecord type fields ctx (.record shapes))
      (Decoder.ofRecord type' fields' (r.context ctx) (.record shapes')) := h

/-- A hook is given the same bytes. -/
theorem ofHook {hook : Hook α} :
    r.Follows (Sends id) (Decoder.ofHook hook ctx shape)
      (Decoder.ofHook hook (r.context ctx) shape) := by
  cases shape with
  | custom =>
    refine .cursor fun c c' hc => ?_
    -- A hook is a function of the bytes left, and knows neither position nor path.
    rw [hc.rest, hc.remaining]
    split
    · exact .throw rfl
    · split
      · exact .throw rfl
      · exact ((take_reads _).follows ctx).bind fun _ _ _ => .pure rfl
  | _ => exact .throw rfl

end Follows

/-- An error inside a part says where the part is, and then where in the part. -/
theorem location_of_error {R : α → α → Prop} {elem : Context → Decoder α}
    (helem : ∀ (r : Relocation) ctx, r.Follows R (elem ctx) (elem (r.context ctx))) {ctx : Context}
    {c c' : Cursor} {e : DecodeError} (hrun : elem ctx c = .error e c') :
    ∃ inner, e = Relocation.error ⟨0, ctx.location⟩ inner := by
  -- The part would fail alike if it were the whole.
  let whole : Context := ⟨[], ctx.maxCollect⟩
  have hsame := helem ⟨0, ctx.location⟩ whole c c ⟨rfl, rfl⟩
  have hctx : Relocation.context ⟨0, ctx.location⟩ whole = ctx := rfl
  rw [hctx, hrun] at hsame
  generalize elem whole c = res at hsame
  cases hsame with
  | error herror => exact ⟨_, herror⟩

/-! ## The same place -/

/-- In the same place both decoders also stop in the same place. -/
theorem Follows.here {R : α → β → Prop} {d : Decoder α} {d' : Decoder β}
    (h : here.Follows R d d') (hd : Decoder.Forward d) (hd' : Decoder.Forward d') (c : Cursor) :
    Agrees Eq Eq R (d c) (d' c) := by
  -- Two cursors that have come from one are the same once they are in front of the same bytes.
  have hstop : ∀ {b b' : Bytes} {c₁ c₂ : Cursor}, c.Advances b c₁ → c.Advances b' c₂ →
      Relocation.here.Same c₁ c₂ → c₁ = c₂ := by
    intro b b' c₁ c₂ hadv hadv' hsame
    have hrest : b ++ c₁.rest = b' ++ c₁.rest := by
      rw [← hadv.rest, ← hsame.rest, ← hadv'.rest]
    obtain rfl := List.append_cancel_right hrest
    exact hadv.unique hadv'
  have hrun := h c c ⟨rfl, rfl⟩
  have hends := hd c
  have hends' := hd' c
  generalize d c = res at hrun hends ⊢
  generalize d' c = res' at hrun hends' ⊢
  cases hrun with
  | ok hvalue hstate =>
    cases hends with
    | ok hadv =>
      cases hends' with
      | ok hadv' => exact .ok hvalue (hstop hadv hadv' hstate)
  | error herror hstate =>
    cases hends with
    | error hadv =>
      cases hends' with
      | error hadv' =>
        -- Without another place the errors are not only alike but the same.
        rw [Moved, here_error] at herror
        exact .error herror.symm (hstop hadv hadv' hstate)

end Relocation

/-! ## Schemas -/

namespace Schema

open Relocation

variable {r : Relocation}

/-- A field starts where the ones before it end, in both places. -/
theorem Fields.decode_cons_relocates {info : FieldInfo} {schema : Schema α} {rest : Fields β}
    {ctx : Context} {shapes : Shape.Fields}
    (hfield : ∀ ctx shape, r.Follows (Sends id) (schema.decode ctx shape)
      (schema.decode (r.context ctx) shape))
    (hrest : ∀ ctx shapes, r.Follows (Sends id) (rest.decode ctx shapes)
      (rest.decode (r.context ctx) shapes)) :
    r.Follows (Sends id) ((Fields.cons info schema rest).decode ctx shapes)
      ((Fields.cons info schema rest).decode (r.context ctx) shapes) := by
  cases shapes with
  | nil =>
    rw [Fields.decode, Fields.decode]
    exact .throw rfl
  | present name directive shape shapes =>
    rw [Fields.decode, Fields.decode]
    -- The position of the field goes into the path, and is moved like everything else.
    refine .pos fun p => ?_
    rw [← context_push]
    refine (hfield _ shape).bind fun x y hxy => ?_
    refine (hrest ctx shapes).bind fun xs ys hxs => .pure ?_
    rw [hxy, hxs]
    rfl
  | absent name directive shapes =>
    rw [Fields.decode, Fields.decode]
    refine (hrest ctx shapes).bind fun xs ys hxs => .pure ?_
    rw [hxs]
    rfl

mutual

/-- Along any shape a schema decodes in another place what it decodes here. -/
theorem decode_relocates : {α : Type} → (schema : Schema α) → (ctx : Context) → (shape : Shape) →
    r.Follows (Sends id) (schema.decode ctx shape) (schema.decode (r.context ctx) shape)
  | _, .uint _, _, _ => by
    rw [decode, decode]
    exact .ofUint
  | _, .array _ elem length, ctx, shape => by
    rw [decode, decode]
    cases shape with
    | array elemShape shapeLength =>
      -- The length in the shape is compared with the one in the type before any byte is looked at.
      by_cases hlength : shapeLength = length
      case pos =>
        subst hlength
        refine (Follows.ofArray fun ctx => decode_relocates elem ctx elemShape).mono ?_
        intro xs ys hxs
        exact Subtype.ext (hxs.trans (List.map_id _))
      case neg =>
        rw [Decoder.ofArray, Decoder.ofArray, if_neg hlength, if_neg hlength]
        exact .throw rfl
    | _ => exact .throw rfl
  | _, .vector _ elem, ctx, shape => by
    rw [decode, decode]
    cases shape with
    | vector elemShape head =>
      -- The type is the same in both places, so the elements are images under the identity.
      rw [← List.map_id_fun]
      exact .ofVector fun ctx => decode_relocates elem ctx elemShape
    | _ => exact .throw rfl
  | _, .map _ _ _ key value, ctx, shape => by
    rw [decode, decode]
    cases shape with
    | map keyShape valueShape head =>
      refine .ofMap (fun ctx => decode_relocates key ctx keyShape)
        (fun ctx => decode_relocates value ctx valueShape) Function.injective_id fun dict => ?_
      rw [Prod.map_id, List.map_id]
      exact .refl _
    | _ => exact .throw rfl
  | _, .box _ content, ctx, shape => by
    rw [decode, decode]
    cases shape with
    | pointer target => exact .ofBox (decode_relocates content ctx target)
    | _ => exact .throw rfl
  | _, .option _ content, ctx, shape => by
    rw [decode, decode]
    cases shape with
    | pointer target =>
      rw [← Option.map_id]
      exact .ofOption (.inr ⟨rfl, rfl⟩) (decode_relocates content ctx target)
    | optional target =>
      rw [← Option.map_id]
      exact .ofOption (.inl ⟨rfl, rfl⟩) (decode_relocates content ctx target)
    | _ => exact .throw rfl
  | _, .record _ fields _ _, ctx, shape => by
    rw [decode, decode]
    cases shape with
    | record shapes => exact .ofRecord (Fields.decode_relocates fields ctx shapes)
    | _ => exact .throw rfl
  | _, .custom _, _, _ => by
    rw [decode, decode]
    exact .ofHook

/-- Field by field, by recursion on the fields together with `decode_relocates`. -/
theorem Fields.decode_relocates : {α : Type} → (fields : Fields α) → (ctx : Context) →
    (shapes : Shape.Fields) →
    r.Follows (Sends id) (fields.decode ctx shapes) (fields.decode (r.context ctx) shapes)
  | _, .nil, _, _ => by
    rw [Fields.decode, Fields.decode]
    exact .pure rfl
  | _, .cons _ schema rest, _, _ =>
    Fields.decode_cons_relocates (Schema.decode_relocates schema) (Fields.decode_relocates rest)

end

end Schema

/-! ## Whole inputs -/

/-- The same error, or errors in the directives that `E` relates. -/
inductive DecodeError.SameBut (E : DirectiveError → DirectiveError → Prop) :
    DecodeError → DecodeError → Prop where
  | refl (e : DecodeError) : SameBut E e e
  | invalidDirective {e e' : DirectiveError} (h : E e e') :
      SameBut E (.invalidDirective e) (.invalidDirective e')

namespace Schema

open Relocation

/-- Types that resolve alike, and are then decoded alike, read the same from every input. -/
theorem unmarshalWith_alike {E : DirectiveError → DirectiveError → Prop} {Q : Shape → Shape → Prop}
    {R : α → α' → Prop} {schema : Schema α} {schema' : Schema α'} {d : Directive} {config : Config}
    (hresolve : Alike E Q (schema.resolve d) (schema'.resolve d))
    (hdecode : ∀ shape shape', schema.resolve d = .ok shape → schema'.resolve d = .ok shape' →
      Q shape shape' →
      here.Follows R (schema.decode (.top config) shape) (schema'.decode (.top config) shape'))
    (data : Bytes) :
    Alike (DecodeError.SameBut E) (fun r r' => r'.1 = r.1 ∧ R r.2 r'.2)
      (schema.unmarshalWith d config data) (schema'.unmarshalWith d config data) := by
  unfold unmarshalWith
  rcases hresolve.values_or_errors with
    ⟨shape, shape', hshape, hshape', hlike⟩ | ⟨e, e', he, he', herror⟩
  -- Both inputs start at position zero, so that there is no other place and the cursors agree.
  · have hrun := (hdecode shape shape' hshape hshape' hlike).here (decode_forward _ _ _)
      (decode_forward _ _ _) (.ofBytes data)
    rw [hshape, hshape']
    simp only
    generalize schema.decode (.top config) shape (.ofBytes data) = res at hrun ⊢
    generalize schema'.decode (.top config) shape' (.ofBytes data) = res' at hrun ⊢
    cases hrun with
    | ok hvalue hstate => exact .ok ⟨congrArg Cursor.consumed hstate.symm, hvalue⟩
    | error herror =>
      subst herror
      exact .error (.refl _)
  · rw [he, he']
    exact .error (.invalidDirective herror)

end Schema

end TlsWire
