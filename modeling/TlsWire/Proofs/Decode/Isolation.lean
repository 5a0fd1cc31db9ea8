import TlsWire.Proofs.Decode.SelfDelimiting

/-!
# Content of a declared length is isolated

Behind a complete head, a vector or map takes the content that the head declares and nothing else,
whatever its elements are and however its decoding ends (`Schema.decode_isolated`). All of the
content is split off before the first element is looked at, so elements are decoded in a scope that
does not contain what follows (`Sequence.ofHead_complete`).
-/

namespace TlsWire

variable {α β κ σ : Type}

/-- The head of a vector or map. -/
def Shape.head? : Shape → Option Head
  | .vector _ head => some head
  | .map _ _ head => some head
  | _ => none

namespace Sequence

/-- The sequence over content of a declared length that starts at `pos`. -/
def declared (pos : Nat) (body : Bytes) : Sequence where
  scope := { Cursor.ofBytes body with base := pos }
  bounded := true
  count := 0

/-- Behind a complete head the content is there to be split off. -/
theorem ofHead_complete {ctx : Context} {head : Head} {front body : Bytes} {c c' : Cursor}
    (hframed : head ≠ .unbounded) (hfront : head.Form body.length front)
    (hadv : c.Advances (front ++ body) c') :
    ofHead ctx head c = .ok (declared (c.pos + front.length) body) c' := by
  obtain ⟨c₁, hadv₁, hadv₂⟩ := hadv.split
  have hseq : declared (c.pos + front.length) body =
      ⟨c₁.scope body, decide (head ≠ .unbounded), 0⟩ := by
    rw [declared, Cursor.scope, hadv₁.pos, decide_eq_true hframed]
  have hopen : head = .unbounded → c'.rest = [] := fun h => absurd h hframed
  exact ofHead_ok.mpr ⟨front, c₁, body, hfront, hadv₁, hadv₂, hopen, hseq⟩

end Sequence

namespace Decoder

variable {type : String} {ctx : Context} {head : Head} {front body : Bytes} {c c' : Cursor}

/-- What is computed from content behind its head. -/
theorem ofHead_bind {run : Sequence → Except DecodeError σ} {finish : σ → α}
    (hframed : head ≠ .unbounded) (hfront : head.Form body.length front)
    (hadv : c.Advances (front ++ body) c') :
    (do
      let seq ← Sequence.ofHead ctx head
      let s ← ofExcept (run seq)
      return finish s : Decoder α) c =
      ofExcept ((run (.declared (c.pos + front.length) body)).map finish) c' := by
  rw [bind_of_ok (Sequence.ofHead_complete hframed hfront hadv)]
  cases run (.declared (c.pos + front.length) body) with
  | ok s => rfl
  | error e => rfl

/-- The decoder takes these bytes at this position, and how it ends depends on nothing else. It does
not end for lack of bytes. -/
def Confined (d : Decoder α) (pos : Nat) (taken : Bytes) : Prop :=
  ∃ r : Except DecodeError α, (∀ e, r = .error e → e.Final) ∧
    ∀ c c', c.pos = pos → c.Advances taken c' → d c = ofExcept r c'

/-- Elements are decoded inside the content, where nothing is truncated. -/
theorem confined_of_fold {elem : Context → Decoder β} {add : σ → β → Except DecodeError σ}
    {start : σ} {finish : σ → α} (hframed : head ≠ .unbounded)
    (hfront : head.Form body.length front)
    (hadd : ∀ acc a e, add acc a = .error e → e.Final) (pos : Nat) :
    Confined (do
      let seq ← Sequence.ofHead ctx head
      let s ← ofExcept (seq.fold ctx elem add start)
      return finish s) pos (front ++ body) := by
  let seq : Sequence := .declared (pos + front.length) body
  -- The outcome is that of the loop over the content alone, which is fixed by the position and the
  -- content.
  refine ⟨(seq.fold ctx elem add start).map finish, fun e he => ?_, fun c c' hpos hadv => ?_⟩
  · have hfold : seq.fold ctx elem add start = .error e := by
      cases hrun : seq.fold ctx elem add start with
      | ok s =>
        rw [hrun] at he
        cases he
      | error e' =>
        rw [hrun] at he
        cases he
        rfl
    -- In content of a declared length a lack of bytes is reported as malformed.
    exact Sequence.fold_final rfl hadd hfold
  · subst hpos
    exact ofHead_bind hframed hfront hadv

/-- To collect elements never fails. -/
theorem ofVector_confined {elem : Context → Shape → Decoder α} {shape : Shape}
    (hframed : head ≠ .unbounded) (hfront : head.Form body.length front) (pos : Nat) :
    Confined (ofVector type elem ctx (.vector shape head)) pos (front ++ body) :=
  confined_of_fold hframed hfront (fun _ _ _ h => by cases h) pos

/-- To gather entries fails for a repeated key only, which is not a lack of bytes. -/
theorem ofMap_confined {order : KeyOrder κ} {gatherer : Gatherer order β}
    {key : Context → Shape → Decoder κ} {value : Context → Shape → Decoder β}
    {keyShape valueShape : Shape} (hframed : head ≠ .unbounded)
    (hfront : head.Form body.length front) (pos : Nat) :
    Confined (ofMap type gatherer key value ctx (.map keyShape valueShape head)) pos
      (front ++ body) := by
  refine confined_of_fold hframed hfront (fun acc entry e hadd => ?_) pos
  split at hadd
  · cases hadd
  · cases hadd
    exact nofun

end Decoder

namespace Schema

/-- A vector or map behind a complete head takes the declared content and nothing else, however it
ends. Its outcome is settled by where it starts, the head and the content, and it does not end for
lack of bytes. -/
theorem decode_isolated {schema : Schema α} {d : Directive} {shape : Shape} {head : Head}
    {front body : Bytes} (hresolve : schema.resolve d = .ok shape)
    (hhead : shape.head? = some head) (hframed : head ≠ .unbounded)
    (hfront : head.Form body.length front) (ctx : Context) (pos : Nat) :
    ∃ r : Except DecodeError α, (∀ e, r = .error e → e.Final) ∧
      ∀ (c : Cursor) (t : Bytes), c.pos = pos → c.rest = front ++ body ++ t →
        ∃ c', c.Advances (front ++ body) c' ∧ c'.rest = t ∧
          schema.decode ctx shape c = Decoder.ofExcept r c' := by
  have hconfined : Decoder.Confined (schema.decode ctx shape) pos (front ++ body) := by
    -- Only vectors and maps have a head, and both are confined to what it declares.
    cases schema with
    | vector type elem =>
      obtain ⟨_, elemShape, _, _, _, rfl⟩ := resolve_vector.mp hresolve
      cases hhead
      rw [decode]
      exact Decoder.ofVector_confined hframed hfront pos
    | map type kind order key value =>
      obtain ⟨_, keyShape, valueShape, _, _, _, _, _, rfl⟩ := resolve_map.mp hresolve
      cases hhead
      rw [decode]
      exact Decoder.ofMap_confined hframed hfront pos
    | uint t =>
      -- No other type resolves to a shape with a head.
      obtain ⟨_, rfl⟩ | ⟨_, rfl⟩ := resolve_uint.mp hresolve <;> cases hhead
    | array type elem length =>
      obtain ⟨_, _, _, _, rfl⟩ := resolve_array.mp hresolve
      cases hhead
    | box type content =>
      obtain ⟨_, _, _, rfl⟩ := resolve_box.mp hresolve
      cases hhead
    | option type content =>
      obtain ⟨_, _, _, rfl⟩ | ⟨_, _, _, rfl⟩ := resolve_option.mp hresolve <;> cases hhead
    | record type fields validate =>
      obtain ⟨_, _, _, _, rfl⟩ := resolve_record.mp hresolve
      cases hhead
    | custom hook =>
      obtain ⟨_, rfl⟩ := resolve_custom.mp hresolve
      cases hhead
  obtain ⟨r, hfinal, hrun⟩ := hconfined
  refine ⟨r, hfinal, fun c t hpos hrest => ?_⟩
  obtain ⟨c', hadv, ht⟩ := Cursor.exists_advances hrest
  exact ⟨c', hadv, ht, hrun c c' hpos hadv⟩

/-- The second element leaves the declared content. The byte that it lacks is there in the second
input, and it stays there. -/
theorem decode_isolated_short_element :
    let schema : Schema (List (BitVec 16)) := .vector "Vec<u16>" (.uint .u16)
    let shape : Shape := .vector (.integer 16) (.fixed 1)
    let e : DecodeError := .malformed [⟨"[]", 3⟩] .overrun
    (∃ c, schema.decode (.top {}) shape (.ofBytes [3, 0, 5, 7]) = .error e c) ∧
      ∃ c, schema.decode (.top {}) shape (.ofBytes [3, 0, 5, 7, 9]) = .error e c ∧
        c.rest = [9] := by
  intro schema shape e
  have hresolve : schema.resolve (.head 1) = .ok shape := rfl
  have hfront : Head.Form (.fixed 1) [0, 5, (7 : UInt8)].length [3] := .fixed (by decide)
  have hframed : Head.fixed 1 ≠ .unbounded := nofun
  obtain ⟨r, -, hrun⟩ := decode_isolated hresolve rfl hframed hfront (.top {}) 0
  obtain ⟨c, -, -, hc⟩ := hrun (.ofBytes [3, 0, 5, 7]) [] rfl rfl
  obtain ⟨c', -, hrest, hc'⟩ := hrun (.ofBytes [3, 0, 5, 7, 9]) [9] rfl rfl
  have hshort : ∃ c, schema.decode (.top {}) shape (.ofBytes [3, 0, 5, 7]) = .error e c := by
    let elem : Context → Decoder (BitVec UintType.u16.bits) := fun ctx =>
      (uint .u16).decode ctx (.integer 16)
    let one : Sequence := ⟨⟨[7], 1, 2, 1, rfl⟩, true, 1⟩
    have hadv : (Cursor.ofBytes [3, 0, 5, 7]).Advances ([3] ++ [0, 5, 7]) ⟨[], 0, 4, 0, rfl⟩ :=
      ⟨rfl, rfl, rfl⟩
    have hsecond : Sequence.next (.top {}) elem one = .error e one := rfl
    refine ⟨⟨[], 0, 4, 0, rfl⟩, ?_⟩
    show (vector "Vec<u16>" (uint .u16)).decode (.top {}) (.vector (.integer 16) (.fixed 1)) _ = _
    rw [decode, Decoder.ofVector, Decoder.ofHead_bind hframed hfront hadv, Sequence.fold_eq]
    show Decoder.ofExcept (Except.map _ (Sequence.fold (.top {}) elem _ [5] one)) _ = _
    rw [Sequence.fold_eq, hsecond]
    rfl
  -- The outcome on the first input tells the one on the second.
  have hr : r = .error e := by
    obtain ⟨c₁, hc₁⟩ := hshort
    rw [hc] at hc₁
    cases r with
    | ok xs => cases hc₁
    | error e' =>
      cases hc₁
      rfl
  rw [hr] at hc'
  exact ⟨hshort, c', hc', hrest⟩

end Schema

end TlsWire
