import TlsWire.Proofs.Decode.Forward
import TlsWire.Proofs.Decode.SelfDelimiting

/-!
# Runs under a limit

Two runs of one decoder over the same bytes, under a limit and under an *ample* one, which is no
less than the number of bytes in the scope. `Limited within r r'` relates their outcomes: what the
ample run decodes is decoded under the limit as well if it is `within` it, and is too large
otherwise; an error of the ample run is met under the limit too, unless the limit is met first.

An ample limit is never reached, because every element takes a byte (`Sequence.next_limited`). So
the errors of the ample run are about the input (`DecodeError.OfInput`).
-/

namespace TlsWire

variable {α β κ σ ρ : Type}

/-- The error is about the bytes and not about the schema, its shape or the limit. -/
def DecodeError.OfInput : DecodeError → Prop
  | .truncated _ _ => True
  | .malformed _ _ => True
  | .badFlag _ _ => True
  | .hookOverrun _ _ _ => True
  | .tooWide _ _ _ => True
  | .hookFailed _ _ => True
  | _ => False

/-- The same place in a value, under another limit. -/
def Context.withLimit (ctx : Context) (limit : Nat) : Context := { ctx with maxCollect := limit }

/-- How a run ends under a limit, given how it ends under an ample one. -/
inductive Limited (within : α → Prop) :
    EStateM.Result DecodeError ρ α → EStateM.Result DecodeError ρ α → Prop where
  | same {a : α} {s : ρ} (h : within a) : Limited within (.ok a s) (.ok a s)
  | beyond {a : α} {s s' : ρ} {loc : Location} (h : ¬ within a) :
      Limited within (.ok a s) (.error (.collectionTooLarge loc) s')
  | error {e : DecodeError} {s s' : ρ} (he : e.OfInput) :
      Limited within (.error e s) (.error e s')
  | sooner {e : DecodeError} {s s' : ρ} {loc : Location} (he : e.OfInput) :
      Limited within (.error e s) (.error (.collectionTooLarge loc) s')

/-- The ample run decodes something, or its error is about the input. -/
theorem Limited.ample {within : α → Prop} {r r' : EStateM.Result DecodeError ρ α}
    (h : Limited within r r') : (∃ a s, r = .ok a s) ∨ ∃ e s, r = .error e s ∧ e.OfInput := by
  cases h with
  | same _ => exact .inl ⟨_, _, rfl⟩
  | beyond _ => exact .inl ⟨_, _, rfl⟩
  | error he => exact .inr ⟨_, _, rfl, he⟩
  | sooner he => exact .inr ⟨_, _, rfl, he⟩

/-- Only what counts as being within the limit changes, and only in how it is put. -/
theorem Limited.congr {within other : α → Prop} {r r' : EStateM.Result DecodeError ρ α}
    (h : Limited within r r') (hiff : ∀ a, other a ↔ within a) : Limited other r r' := by
  cases h with
  | same h => exact .same ((hiff _).mpr h)
  | beyond h => exact .beyond fun hw => h ((hiff _).mp hw)
  | error he => exact .error he
  | sooner he => exact .sooner he

namespace Decoder

/-- Whatever the decoder fails with is about the input. -/
def Blameless (d : Decoder α) : Prop := ∀ c e c', d c = .error e c' → e.OfInput

namespace Blameless

/-- A decoder that does not fail has no error to account for. -/
theorem pure {a : α} : Blameless (pure a) := by
  intro c e c' h
  cases h

/-- An error that is raised outright has to be about the input itself. -/
theorem throw {e : DecodeError} (he : e.OfInput) : Blameless (throw e : Decoder α) := by
  intro c e' c' h
  cases h
  exact he

theorem pos : Blameless pos := by
  intro c e c' h
  cases h

theorem cursor : Blameless cursor := by
  intro c e c' h
  cases h

/-- A read fails only where bytes are missing. -/
theorem read {ctx : Context} {reader : Cursor → Except Truncated (α × Cursor)} :
    Blameless (read ctx reader) := by
  intro c e c' h
  unfold Decoder.read at h
  split at h
  · cases h
  · cases h
    trivial

/-- An error comes from the first step, or from the second one where the first has gone through. -/
theorem bind {d : Decoder α} {f : α → Decoder β} (hd : Blameless d) (hf : ∀ a, Blameless (f a)) :
    Blameless (d >>= f) := by
  intro c e c' h
  obtain hfirst | ⟨a, c₁, _, hrun⟩ := bind_error.mp h
  · exact hd c e c' hfirst
  · exact hf a c₁ e c' hrun

end Blameless

/-- What the first decoder does on scopes with an ample limit, the second one does under a limit. -/
def Agrees (ample : Nat) (within : α → Prop) (d d' : Decoder α) : Prop :=
  ∀ c, c.remaining ≤ ample → Limited within (d c) (d' c)

/-- A limit leaves what the decoder does as it is, up to what is beyond the limit. -/
def LimitedBy (ample limit : Nat) (within : α → Prop) (d : Context → Decoder α) : Prop :=
  ∀ ctx : Context, Agrees ample within (d (ctx.withLimit ample)) (d (ctx.withLimit limit))

namespace Agrees

variable {ample : Nat} {within : β → Prop}

/-- A decoder that knows no limit. -/
theorem refl {d : Decoder α} (h : Blameless d) : Agrees ample (fun _ => True) d d := by
  intro c _
  cases hrun : d c with
  | ok a c' => exact .same trivial
  | error e c' => exact .error (h c e c' hrun)

/-- A first step that knows no limit. -/
theorem bind {d : Decoder α} {f f' : α → Decoder β} (hd : Blameless d)
    (hf : ∀ c a c', c.remaining ≤ ample → d c = .ok a c' → Limited within (f a c') (f' a c')) :
    Agrees ample within (d >>= f) (d >>= f') := by
  intro c hc
  show Limited within (EStateM.bind d f c) (EStateM.bind d f' c)
  unfold EStateM.bind
  cases hrun : d c with
  | ok a c' => exact hf c a c' hc hrun
  | error e c' => exact .error (hd c e c' hrun)

/-- Asking for the position moves nothing, so the scope is as large as before. -/
theorem pos_bind {f f' : Nat → Decoder β} (hf : ∀ p, Agrees ample within (f p) (f' p)) :
    Agrees ample within (Decoder.pos >>= f) (Decoder.pos >>= f') := by
  refine bind .pos fun c p c' hc hrun => ?_
  cases hrun
  exact hf c.pos c hc

/-- What is computed from a result is within the limit where the result is. -/
theorem map {p : α → Prop} {d d' : Decoder α} {f : α → β} (hd : Agrees ample p d d')
    (hp : ∀ a, within (f a) ↔ p a) : Agrees ample within (f <$> d) (f <$> d') := by
  intro c hc
  show Limited within (EStateM.map f d c) (EStateM.map f d' c)
  unfold EStateM.map
  have hlimited := hd c hc
  -- Whichever way the two runs have ended, `f` only touches the value.
  generalize d c = r at hlimited
  generalize d' c = r' at hlimited
  cases hlimited with
  | same h => exact .same ((hp _).mpr h)
  | beyond h => exact .beyond fun hw => h ((hp _).mp hw)
  | error he => exact .error he
  | sooner he => exact .sooner he

/-- Two parts one after the other are within the limit where both of them are. -/
theorem both {γ : Type} {p : α → Prop} {q : γ → Prop} {d d' : Decoder α} {e e' : Decoder γ}
    {f : α → γ → β} (hd : Agrees ample p d d') (hforward : Forward d) (he : Agrees ample q e e')
    (hboth : ∀ a b, within (f a b) ↔ p a ∧ q b) :
    Agrees ample within (do let a ← d; let b ← e; return f a b)
      (do let a ← d'; let b ← e'; return f a b) := by
  intro c hc
  simp only [bind_pure_comp]
  show Limited within (EStateM.bind d (fun a => f a <$> e) c)
    (EStateM.bind d' (fun a => f a <$> e') c)
  unfold EStateM.bind
  -- The two runs are compared after the first part. If it fails, the second one is not reached.
  have hfirst := hd c hc
  cases hrun : d c with
  | error err c₁ =>
    rw [hrun] at hfirst
    generalize d' c = r' at hfirst
    cases hfirst with
    | error herr => exact .error herr
    | sooner herr => exact .sooner herr
  | ok a c₁ =>
    rw [hrun] at hfirst
    generalize d' c = r' at hfirst
    -- The scope of the second part is what the first one has left of it.
    obtain ⟨b, hadv⟩ := hforward.advances hrun
    have hc₁ : c₁.remaining ≤ ample := by
      have hremaining := hadv.remaining
      omega
    cases hfirst with
    | same hp =>
      have hsecond : Agrees ample within (f a <$> e) (f a <$> e') :=
        map he fun b => (hboth a b).trans (and_iff_right hp)
      exact hsecond c₁ hc₁
    | beyond hp =>
      -- Only the ample run gets to the second part, which does not mend the first one.
      show Limited within (EStateM.map (f a) e c₁) _
      unfold EStateM.map
      obtain ⟨b, c₂, hok⟩ | ⟨err, c₂, herror, herr⟩ := (he c₁ hc₁).ample
      · rw [hok]
        exact .beyond fun hw => hp ((hboth a b).mp hw).1
      · rw [herror]
        exact .sooner herr

end Agrees

end Decoder

/-! ## Sequences -/

namespace Sequence

open Decoder

variable {ample limit : Nat} {p : α → Prop} {elem : Context → Decoder α} {ctx : Context}

/-- No head is read with an error other than a truncation. -/
theorem ofHead_blameless {head : Head} : Blameless (ofHead ctx head) := by
  cases head with
  | fixed width => exact .bind .read fun _ => .bind .read fun _ => .pure
  | varint => exact .bind .read fun _ => .bind .read fun _ => .pure
  | unbounded => exact .bind .cursor fun _ => .bind .read fun _ => .pure

/-- The limit counts elements, and heads are read before any of them. -/
theorem ofHead_withLimit {head : Head} {limit : Nat} :
    ofHead (ctx.withLimit limit) head = ofHead ctx head := by
  cases head <;> rfl

/-- At first no element has been decoded, and the content is what the cursor has moved over. -/
theorem room_of_ofHead {head : Head} {c c' : Cursor} {seq : Sequence}
    (h : ofHead ctx head c = .ok seq c') :
    seq.count = 0 ∧ seq.scope.remaining ≤ c.remaining := by
  obtain ⟨front, c₁, body, _, hadv, hadv', _, rfl⟩ := ofHead_ok.mp h
  have hremaining := (hadv.trans hadv').remaining
  rw [List.length_append] at hremaining
  have hscope : (c₁.scope body).remaining = body.length := rfl
  refine ⟨rfl, ?_⟩
  show (c₁.scope body).remaining ≤ c.remaining
  omega

/-- An error stays one about the input when it leaves an element, whatever it is turned into. -/
theorem blame_ofInput {bounded : Bool} {element : Context} {e : DecodeError} (he : e.OfInput) :
    (blame bounded element e).OfInput := by
  unfold blame
  split
  · split
    · trivial
    · trivial
  · exact he

/-- As long as every element so far has taken a byte, only the lower limit can keep the next one
from being decoded. -/
theorem next_limited (ctx : Context) (helem : LimitedBy ample limit p elem) {seq : Sequence}
    (hroom : seq.count + seq.scope.remaining ≤ ample) :
    Limited (fun found => ∀ a ∈ found, seq.count < limit ∧ p a)
      (next (ctx.withLimit ample) elem seq) (next (ctx.withLimit limit) elem seq) := by
  unfold next
  split
  case isTrue => exact .same fun a ha => by cases ha
  case isFalse hempty =>
    -- The ample limit has room for one more element, since there is a byte left for it.
    have hcount : seq.count < ample := by
      have hne : ¬ seq.scope.remaining = 0 := by simpa [Cursor.isEmpty] using hempty
      omega
    have hcheck : ((ctx.withLimit ample).push Step.elementName seq.scope.pos).checkCollect
        seq.count = .ok () := Context.checkCollect_eq_ok.mpr hcount
    have hrun : Limited p
        (elem ((ctx.withLimit ample).push Step.elementName seq.scope.pos) seq.scope)
        (elem ((ctx.withLimit limit).push Step.elementName seq.scope.pos) seq.scope) :=
      helem (ctx.push Step.elementName seq.scope.pos) seq.scope (by omega)
    simp only [hcheck]
    generalize elem ((ctx.withLimit ample).push Step.elementName seq.scope.pos) seq.scope = r
      at hrun
    generalize elem ((ctx.withLimit limit).push Step.elementName seq.scope.pos) seq.scope = r'
      at hrun
    -- Two limits can be met here: the one on this sequence, and inside the element.
    by_cases hlimit : seq.count < limit
    · have hcheck' : ((ctx.withLimit limit).push Step.elementName seq.scope.pos).checkCollect
          seq.count = .ok () := Context.checkCollect_eq_ok.mpr hlimit
      simp only [hcheck']
      cases hrun with
      | error he => exact .error (blame_ofInput he)
      | sooner he => exact .sooner (blame_ofInput he)
      | same ha =>
        simp only
        split
        · exact .same fun _ hfound => Option.some.inj hfound ▸ ⟨hlimit, ha⟩
        · exact .error trivial
      | beyond ha =>
        simp only
        split
        · exact .beyond fun hw => ha (hw _ rfl).2
        · exact .sooner trivial
    · -- Only the ample run looks at the element.
      have hcheck' : ((ctx.withLimit limit).push Step.elementName seq.scope.pos).checkCollect
          seq.count =
            .error (.collectionTooLarge (ctx.push Step.elementName seq.scope.pos).location) :=
        if_pos (Nat.not_lt.mp hlimit)
      simp only [hcheck']
      obtain ⟨a, scope, rfl⟩ | ⟨e, scope, rfl, he⟩ := hrun.ample
      · simp only
        split
        · exact .beyond fun hw => hlimit (hw a rfl).1
        · exact .sooner trivial
      · exact .sooner (blame_ofInput he)

/-- Elements, latest first, are within the limit if the first of them is and the others are within
what that one leaves. -/
theorem within_concat_iff {bs : List α} {a : α} {count : Nat} :
    ((bs ++ [a]).length ≤ limit - count ∧ ∀ b ∈ bs ++ [a], p b) ↔
      (count < limit ∧ p a) ∧ bs.length ≤ limit - (count + 1) ∧ ∀ b ∈ bs, p b := by
  rw [List.length_append, List.forall_mem_append, List.forall_mem_singleton, List.length_singleton]
  constructor
  · intro h
    exact ⟨⟨by omega, h.2.2⟩, by omega, h.2.1⟩
  · intro h
    exact ⟨by omega, h.2.2, h.1.2⟩

/-- Elements are added one by one until there is none left, or until the limit is met. `Holds` tells
which elements have been added, latest first. -/
theorem fold_limited {add : σ → α → Except DecodeError σ} (Holds : σ → List α → Prop)
    (ctx : Context) (helem : LimitedBy ample limit p elem)
    (hadd : ∀ acc as a acc', Holds acc as → add acc a = .ok acc' → Holds acc' (a :: as))
    (haddError : ∀ acc a e, add acc a = .error e → e.OfInput) {acc : σ} {as : List α}
    (hholds : Holds acc as) (seq : Sequence) (hroom : seq.count + seq.scope.remaining ≤ ample)
    (c : Cursor) :
    ∃ bs, (∀ r, fold (ctx.withLimit ample) elem add acc seq = .ok r → Holds r (bs ++ as)) ∧
      Limited (fun _ => bs.length ≤ limit - seq.count ∧ ∀ b ∈ bs, p b)
        (ofExcept (fold (ctx.withLimit ample) elem add acc seq) c)
        (ofExcept (fold (ctx.withLimit limit) elem add acc seq) c) := by
  -- By recursion on what is left of the scope, which every element makes smaller.
  have hnext := next_limited ctx helem hroom
  rw [fold_eq, fold_eq]
  cases hrun : next (ctx.withLimit ample) elem seq with
  | error e seq' =>
    rw [hrun] at hnext
    refine ⟨[], fun r hr => (by cases hr), ?_⟩
    generalize next (ctx.withLimit limit) elem seq = r' at hnext
    cases hnext with
    | error he => exact .error he
    | sooner he => exact .sooner he
  | ok found seq' =>
    rw [hrun] at hnext
    generalize next (ctx.withLimit limit) elem seq = r' at hnext
    cases found with
    | none =>
      refine ⟨[], fun r hr => ?_, ?_⟩
      · cases hr
        exact hholds
      · cases hnext with
        | same _ => exact .same ⟨Nat.zero_le _, List.forall_mem_nil _⟩
        | beyond h => exact absurd (fun a ha => by cases ha) h
    | some a =>
      simp only
      -- An element has been decoded in the ample run. It may still be turned away, as a repeated
      -- key is.
      cases hstep : add acc a with
      | error e =>
        refine ⟨[], fun r hr => (by cases hr), ?_⟩
        cases hnext with
        | same _ =>
          simp only [hstep]
          exact .error (haddError acc a e hstep)
        | beyond _ => exact .sooner (haddError acc a e hstep)
      | ok acc' =>
        obtain ⟨_, _, scope, _, hsolid, rfl⟩ := next_some.mp hrun
        -- The element has taken at least the byte that it adds to the count.
        have hroom' : seq.count + 1 + scope.remaining ≤ ample := by omega
        obtain ⟨bs, hbs, hrest⟩ := fold_limited Holds ctx helem hadd haddError
          (hadd acc as a acc' hholds hstep) { seq with scope, count := seq.count + 1 } hroom' c
        refine ⟨bs ++ [a], fun r hr => ?_, ?_⟩
        · rw [List.append_assoc]
          exact hbs r hr
        · cases hnext with
          | same ha =>
            simp only [hstep]
            exact hrest.congr fun _ => within_concat_iff.trans (and_iff_right (ha a rfl))
          | beyond ha =>
            have hbeyond : ¬ ((bs ++ [a]).length ≤ limit - seq.count ∧ ∀ b ∈ bs ++ [a], p b) :=
              fun hw => ha fun b hb => Option.some.inj hb ▸ (within_concat_iff.mp hw).1
            simp only
            obtain ⟨r, c', hok⟩ | ⟨e, c', herror, he⟩ := hrest.ample
            · rw [hok]
              exact .beyond hbeyond
            · rw [herror]
              exact .sooner he
  termination_by seq.scope.remaining

end Sequence

/-! ## Kinds of types -/

namespace Decoder.LimitedBy

variable {ample limit : Nat} {type : String} {p : α → Prop} {q : β → Prop} {pκ : κ → Prop}

/-- Numbers and values of hooks have no elements. -/
theorem of_location {d : Context → Decoder α}
    (hlocation : ∀ (ctx : Context) (limit : Nat), d (ctx.withLimit limit) = d ctx)
    (hblameless : ∀ ctx, Blameless (d ctx)) : LimitedBy ample limit (fun _ => True) d := by
  intro ctx
  rw [hlocation, hlocation]
  exact .refl (hblameless ctx)

/-- An integer is too wide for its type, or it is not there: neither depends on the limit. -/
theorem ofUint {t : UintType} {shape : Shape}
    (hshape : shape = .integer t.bits ∨ shape = .varint t.bits) :
    LimitedBy ample limit (fun _ => True) (fun ctx => ofUint t ctx shape) := by
  have hnarrow : ∀ ctx reader, Blameless (ofUint.narrow t ctx reader) := by
    intro ctx reader
    refine .bind .read fun n => ?_
    show Blameless (if n < byteRange t.bytes then _ else _)
    split
    · exact .pure
    · exact .throw trivial
  rcases hshape with rfl | rfl
  · exact of_location (fun _ _ => rfl) fun ctx => hnarrow ctx _
  · exact of_location (fun _ _ => rfl) fun ctx => hnarrow ctx _

/-- A hook does not see the limit. -/
theorem ofHook {hook : Hook α} :
    LimitedBy ample limit (fun _ => True) (fun ctx => ofHook hook ctx .custom) := by
  -- What goes wrong in a hook is about its bytes: an overrun, or the reason it gives.
  refine of_location (fun _ _ => rfl) fun ctx => .bind .cursor fun c => ?_
  split
  · exact .throw trivial
  · split
    · exact .throw trivial
    · exact .bind .read fun _ => .pure

/-- The elements of an array are not counted, but there can be collections in them. -/
theorem items {elem : Context → Decoder α} (helem : LimitedBy ample limit p elem)
    (hforward : ∀ ctx, Forward (elem ctx)) : (length : Nat) →
    LimitedBy ample limit (fun xs : Tuple α length => ∀ x ∈ xs.val, p x)
      (fun ctx => items elem ctx length)
  | 0 => by
    intro ctx c _
    exact .same nofun
  | length + 1 => by
    intro ctx
    refine .pos_bind fun pos => ?_
    have hrest := items helem hforward length ctx
    -- The other elements are decoded in what the first one has left, so `both` is needed here.
    exact .both (helem (ctx.push Step.elementName pos)) (hforward _) hrest fun x xs =>
      List.forall_mem_cons

/-- An array is its elements, one after the other. -/
theorem ofArray {elem : Context → Shape → Decoder α} {elemShape : Shape} {length : Nat}
    (helem : LimitedBy ample limit p fun ctx => elem ctx elemShape)
    (hforward : ∀ ctx, Forward (elem ctx elemShape)) :
    LimitedBy ample limit (fun xs : Tuple α length => ∀ x ∈ xs.val, p x)
      (fun ctx => ofArray type elem length ctx (.array elemShape length)) := by
  intro ctx
  simp only [Decoder.ofArray, if_true]
  exact items helem hforward length ctx

/-- What is gathered from the elements behind a head. -/
theorem of_fold {elem : Context → Decoder α} {head : Head} {add : σ → α → Except DecodeError σ}
    {start : σ} {finish : σ → β} (Holds : σ → List α → Prop)
    (helem : LimitedBy ample limit p elem)
    (hadd : ∀ acc as a acc', Holds acc as → add acc a = .ok acc' → Holds acc' (a :: as))
    (haddError : ∀ acc a e, add acc a = .error e → e.OfInput) (hstart : Holds start [])
    (hfinish : ∀ acc as, Holds acc as →
      (q (finish acc) ↔ as.length ≤ limit ∧ ∀ a ∈ as, p a)) (ctx : Context) :
    Agrees ample q
      (do
        let seq ← Sequence.ofHead (ctx.withLimit ample) head
        let s ← ofExcept (seq.fold (ctx.withLimit ample) elem add start)
        return finish s)
      (do
        let seq ← Sequence.ofHead (ctx.withLimit limit) head
        let s ← ofExcept (seq.fold (ctx.withLimit limit) elem add start)
        return finish s) := by
  rw [Sequence.ofHead_withLimit, Sequence.ofHead_withLimit]
  refine .bind Sequence.ofHead_blameless fun c seq c' hc hhead => ?_
  obtain ⟨hcount, hscope⟩ := Sequence.room_of_ofHead hhead
  -- From here on the runs differ in the limit only, with all of the content to go.
  obtain ⟨as, has, hfold⟩ := Sequence.fold_limited Holds ctx helem hadd haddError hstart seq
    (by omega) c'
  rw [List.append_nil] at has
  rw [hcount, Nat.sub_zero] at hfold
  show Limited q (EStateM.bind _ _ c') (EStateM.bind _ _ c')
  unfold EStateM.bind
  generalize ofExcept (seq.fold (ctx.withLimit limit) elem add start) c' = r' at hfold
  cases hrun : seq.fold (ctx.withLimit ample) elem add start with
  | ok s =>
    rw [hrun] at hfold
    -- What counts is said of the list of elements, and is carried over to what has been gathered.
    have hiff := hfinish s as (has s hrun)
    cases hfold with
    | same h => exact .same (hiff.mpr h)
    | beyond h => exact .beyond fun hw => h (hiff.mp hw)
  | error e =>
    rw [hrun] at hfold
    cases hfold with
    | error he => exact .error he
    | sooner he => exact .sooner he

/-- A vector is within the limit if it is short enough and every element is within it. -/
theorem ofVector {elem : Context → Shape → Decoder α} {elemShape : Shape} {head : Head}
    (helem : LimitedBy ample limit p fun ctx => elem ctx elemShape) :
    LimitedBy ample limit (fun xs => xs.length ≤ limit ∧ ∀ x ∈ xs, p x)
      (fun ctx => ofVector type elem ctx (.vector elemShape head)) := by
  -- The elements are gathered latest first, and turned around in the end.
  refine of_fold (fun acc as => acc = as) helem ?_ ?_ rfl ?_
  · intro acc as a acc' hholds hadd
    cases hadd
    rw [hholds]
  · intro acc a e hadd
    cases hadd
  · intro acc as hholds
    rw [hholds, List.length_reverse]
    simp only [List.mem_reverse]

/-- An entry is within the limit if its key and its value are. -/
theorem entry {key : Context → Decoder κ} {value : Context → Decoder β}
    (hkey : LimitedBy ample limit pκ key) (hforward : ∀ ctx, Forward (key ctx))
    (hvalue : LimitedBy ample limit q value) :
    LimitedBy ample limit (fun e => pκ e.1 ∧ q e.2) (fun ctx => entry key value ctx) := by
  intro ctx
  exact .both (hkey ctx) (hforward _) (hvalue ctx) fun _ _ => Iff.rfl

/-- A map is within the limit if it has few enough entries and all of their parts are within it. -/
theorem ofMap {order : KeyOrder κ} {kind : MapKind} {key : Context → Shape → Decoder κ}
    {value : Context → Shape → Decoder β} {keyShape valueShape : Shape} {head : Head}
    (hkey : LimitedBy ample limit pκ fun ctx => key ctx keyShape)
    (hforward : ∀ ctx, Forward (key ctx keyShape))
    (hvalue : LimitedBy ample limit q fun ctx => value ctx valueShape) :
    LimitedBy ample limit
      (fun dict : Dict order β => dict.size ≤ limit ∧ ∀ e ∈ dict.entries, pκ e.1 ∧ q e.2)
      (fun ctx => ofMap type kind.gatherer key value ctx (.map keyShape valueShape head)) := by
  intro ctx
  -- What a gatherer holds is known up to the order of the entries, which the limit does not look
  -- at.
  refine of_fold (fun s es => kind.view.Holds s es ∧ (Dict.keys es).Nodup)
    (entry hkey hforward hvalue) ?_ ?_ ⟨kind.view.start, List.nodup_nil⟩ ?_ ctx
  · intro s es e s' hholds hadd
    -- Adding one entry is a run over one entry.
    have hrun : [e].foldlM (kind.gatherer.gather (.malformed ctx.location .duplicateKey)) s =
        .ok s' := by
      rw [List.foldlM_cons, Except.bind_ok]
      exact ⟨s', hadd, rfl⟩
    exact kind.view.holds_of_foldlM hholds.1 hholds.2 hrun
  · intro s e err hadd
    split at hadd
    · cases hadd
    · cases hadd
      trivial
  · intro s es hholds
    have hperm : (kind.gatherer.finish s).entries.Perm es := kind.view.finish hholds.1 hholds.2
    rw [Dict.size, hperm.length_eq]
    simp only [hperm.mem_iff]

/-- A pointer decodes its target with nothing around it. -/
theorem ofBox {content : Context → Shape → Decoder α} {target : Shape}
    (hcontent : LimitedBy ample limit p fun ctx => content ctx target) :
    LimitedBy ample limit p (fun ctx => ofBox type content ctx (.pointer target)) := hcontent

/-- A flag takes no part in the limit, and without one there is only the target. -/
theorem ofOption {content : Context → Shape → Decoder α} {shape target : Shape}
    (hshape : shape = .optional target ∨ shape = .pointer target)
    (hcontent : LimitedBy ample limit p fun ctx => content ctx target) :
    LimitedBy ample limit (fun x => ∀ y ∈ x, p y) (fun ctx => ofOption type content ctx shape) := by
  intro ctx
  have hsome : Agrees ample (fun x => ∀ y ∈ x, p y) (some <$> content (ctx.withLimit ample) target)
      (some <$> content (ctx.withLimit limit) target) :=
    .map (hcontent ctx) fun x => by simp
  rcases hshape with rfl | rfl
  · refine .bind .read fun c flag c' hc hread => ?_
    -- The flag has been taken off, so that there is less for the target.
    have hc' : c'.remaining ≤ ample := by
      have hremaining := (Cursor.readByte_ok.mp (read_ok.mp hread)).remaining
      omega
    split
    · exact .same fun y hy => by cases hy
    · split
      · exact hsome c' hc'
      · exact .error trivial
  · exact hsome

/-- A record decodes its fields with nothing around them. -/
theorem ofRecord {fields : Context → Shape.Fields → Decoder α} {shapes : Shape.Fields}
    (hfields : LimitedBy ample limit p fun ctx => fields ctx shapes) :
    LimitedBy ample limit p (fun ctx => ofRecord type fields ctx (.record shapes)) := hfields

end Decoder.LimitedBy

end TlsWire
