import TlsWire.Proofs.Decode.Relocation
import TlsWire.Proofs.Location

/-!
# Values are decoded alike wherever they stand

A decoder that is somewhere inside an input, under some path, does what it does in front of the rest
of its scope alone (`Schema.decode_relocatable`). It returns the same value or fails for the same
reason, and takes the same bytes. Of the path in an error, the steps below the value are the same
but for their offsets, which count from the start of the whole input; the path to the value stands
in front of them instead of `{0}`.
-/

namespace TlsWire

variable {α : Type}

namespace Relocation

variable (r : Relocation)

/-- An error that is moved tells the path that is moved, if it tells one. -/
theorem location?_error (e : DecodeError) : (r.error e).location? = e.location?.map r.location := by
  cases e <;> rfl

/-- The steps below the place that something has been moved to go on from the path to it. -/
theorem text_location (loc : Location) :
    (r.location loc).text = r.outer.text ++ Location.trail (loc.map r.step) :=
  Location.text_append _ _

end Relocation

/-- Errors that a decoder meets in its input tell where. -/
theorem DecodeError.Located.exists_location? {e : DecodeError} (h : e.Located) :
    ∃ loc, e.location? = some loc := by
  cases e with
  | invalidDirective _ => exact h.elim
  | trailing _ _ => exact h.elim
  | _ => exact ⟨_, rfl⟩

/-- Two cursors that have the same bytes before and after a move have moved over the same bytes. -/
theorem Cursor.Advances.eq_of_rest {c c' d d' : Cursor} {b b' : Bytes} (h : c.Advances b c')
    (h' : d.Advances b' d') (hstart : d.rest = c.rest) (hstop : d'.rest = c'.rest) : b' = b := by
  have happend : b' ++ c'.rest = b ++ c'.rest := by
    rw [← h.rest, ← hstart, h'.rest, hstop]
  exact List.append_cancel_right happend

namespace Schema

/-- What is decoded at a cursor, along any shape and under any path and limit, is what is decoded
from the rest of its scope alone. Both take the same bytes, also when they fail, and the errors
differ in where they are told to be. -/
theorem decode_relocatable (schema : Schema α) (ctx : Context) (shape : Shape) (c : Cursor) :
    let alone := schema.decode (.top ⟨ctx.maxCollect⟩) shape (.ofBytes c.rest)
    let r : Relocation := ⟨c.pos, ctx.location⟩
    ∃ taken c₀ c', (Cursor.ofBytes c.rest).Advances taken c₀ ∧ c.Advances taken c' ∧
      ((∃ x, alone = .ok x c₀ ∧ schema.decode ctx shape c = .ok x c') ∨
        ∃ e loc, alone = .error e c₀ ∧ schema.decode ctx shape c = .error (r.error e) c' ∧
          e.location? = some loc ∧ (r.error e).location? = some (r.location loc) ∧
          loc.text = "\x7b0\x7d" ++ Location.trail loc ∧
          (r.location loc).text = ctx.location.text ++ Location.trail (loc.map r.step)) := by
  intro alone r
  have hsame : r.Same (.ofBytes c.rest) c := ⟨rfl, (Nat.zero_add c.pos).symm⟩
  have hrun : Relocation.Agrees r.Moved r.Same (Relocation.Sends id) alone
      (schema.decode ctx shape c) :=
    decode_relocates schema (.top ⟨ctx.maxCollect⟩) shape _ _ hsame
  have hthere := schema.decode_forward (.top ⟨ctx.maxCollect⟩) shape (.ofBytes c.rest)
  have hhere := schema.decode_forward ctx shape c
  -- Both runs move forwards, and what they leave is the same, so they take the same bytes.
  change Decoder.Ends _ alone at hthere
  generalize alone = res at hrun hthere ⊢
  generalize schema.decode ctx shape c = res' at hrun hhere ⊢
  cases hrun with
  | ok hvalue hstate =>
    cases hthere with
    | ok hadv =>
      cases hhere with
      | ok hadv' =>
        obtain rfl := hadv.eq_of_rest hadv' rfl hstate.rest
        subst hvalue
        exact ⟨_, _, _, hadv, hadv', .inl ⟨_, rfl, rfl⟩⟩
  | @error e _ _ _ herror hstate =>
    cases hthere with
    | error hadv hlocated =>
      cases hhere with
      | error hadv' _ =>
        obtain rfl := hadv.eq_of_rest hadv' rfl hstate.rest
        subst herror
        obtain ⟨loc, hloc⟩ := hlocated.exists_location?
        have hmoved : (r.error e).location? = some (r.location loc) := by
          rw [r.location?_error, hloc, Option.map_some]
        exact ⟨_, _, _, hadv, hadv', .inr ⟨e, loc, rfl, rfl, hloc, hmoved, loc.text_eq,
          r.text_location loc⟩⟩

end Schema

end TlsWire
