import TlsWire.Decode.Decoder

/-!
# The elements of a vector or map

`Sequence.ofHead` reads the head and carves the content out of the enclosing scope. Elements are
then decoded one at a time until the content is used up. Every element has to take at least one
byte, so there are at most as many as the content has bytes (`remaining_lt_of_next`), and that is
why `fold`, which decodes all of them, ends.
-/

namespace TlsWire

/-- Content that is being decoded element by element. -/
structure Sequence where
  /-- The content that is left. -/
  scope : Cursor
  /-- Whether a head has declared the length of the content. -/
  bounded : Bool
  /-- The number of elements decoded so far. -/
  count : Nat

namespace Sequence

variable {α σ : Type}

/-- Reads the head and splits the content off. Without a head the content is everything left. -/
def ofHead (ctx : Context) (head : Head) : Decoder Sequence := do
  match head with
  | .fixed width =>
    let length ← Decoder.read ctx (Uint.decode width)
    let scope ← Decoder.read ctx (Cursor.split length)
    return ⟨scope, true, 0⟩
  | .varint =>
    let length ← Decoder.read ctx Varint.decode
    let scope ← Decoder.read ctx (Cursor.split length)
    return ⟨scope, true, 0⟩
  | .unbounded =>
    let c ← Decoder.cursor
    let scope ← Decoder.read ctx (Cursor.split c.remaining)
    return ⟨scope, false, 0⟩

/-- How many elements of at least `minLen` bytes it is safe to reserve space for. However large a
length the head declared, this is no more than what the content can hold. -/
def capacity (seq : Sequence) (ctx : Context) (minLen : Nat) : Nat :=
  min (seq.scope.remaining / max minLen 1) ctx.maxCollect

/-- What an error inside an element means for the sequence: where a head has declared the length,
input that ends too early is an element that leaves the content. -/
def blame (bounded : Bool) (element : Context) : DecodeError → DecodeError
  | .truncated loc t =>
    if bounded then .malformed element.location .overrun else .truncated loc t
  | e => e

/-- Decodes the next element, or finds that there is none left. -/
def next (ctx : Context) (elem : Context → Decoder α) : EStateM DecodeError Sequence (Option α) :=
  fun seq =>
    if seq.scope.isEmpty then .ok none seq
    else
      let element := ctx.push Step.elementName seq.scope.pos
      -- The limit comes first: an element beyond it is not even looked at.
      match element.checkCollect seq.count with
      | .error e => .error e seq
      | .ok _ =>
        match elem element seq.scope with
        | .error e scope => .error (blame seq.bounded element e) { seq with scope }
        | .ok a scope =>
          -- An element that takes nothing would be found again for ever.
          if scope.remaining < seq.scope.remaining then
            .ok (some a) { seq with scope, count := seq.count + 1 }
          else .error (.malformed element.location .emptyElement) { seq with scope }

theorem remaining_lt_of_next {ctx : Context} {elem : Context → Decoder α} {seq seq' : Sequence}
    {a : α} (h : next ctx elem seq = .ok (some a) seq') :
    seq'.scope.remaining < seq.scope.remaining := by
  unfold next at h
  split at h
  case isTrue => simp at h
  case isFalse =>
    simp only at h
    split at h
    case h_1 => simp at h
    case h_2 =>
      split at h
      case h_1 => simp at h
      case h_2 =>
        split at h
        case isTrue hlt =>
          simp only [EStateM.Result.ok.injEq] at h
          rw [← h.2]
          exact hlt
        case isFalse => simp at h

/-- Decodes all elements and adds them up, in order. -/
def fold (ctx : Context) (elem : Context → Decoder α) (add : σ → α → Except DecodeError σ)
    (acc : σ) (seq : Sequence) : Except DecodeError σ :=
  match _h : next ctx elem seq with
  | .error e _ => .error e
  | .ok none _ => .ok acc
  | .ok (some a) seq' =>
    match add acc a with
    | .error e => .error e
    | .ok acc => fold ctx elem add acc seq'
  termination_by seq.scope.remaining
  decreasing_by exact remaining_lt_of_next _h

theorem fold_eq (ctx : Context) (elem : Context → Decoder α) (add : σ → α → Except DecodeError σ)
    (acc : σ) (seq : Sequence) :
    fold ctx elem add acc seq =
      match next ctx elem seq with
      | .error e _ => .error e
      | .ok none _ => .ok acc
      | .ok (some a) seq' =>
        match add acc a with
        | .error e => .error e
        | .ok acc => fold ctx elem add acc seq' := by
  rw [fold]
  split <;> simp_all

end Sequence

end TlsWire
