import TlsWire.Decode.Error

/-!
# Paths and their text

The text of a path names the whole value first, `{0}`, and then every step with a dot before it.
Steps that go on from another path stand behind the text of that path (`Location.text_append`).
`DecodeError.location?` is the path that an error tells, if it tells one.
-/

namespace TlsWire

/-- The text of a step, as it stands behind the text of the path that it goes on from. -/
def Step.text (s : Step) : String := s!".{s.name}\x7b{s.pos}\x7d"

namespace Location

/-- The text of the steps of a path, outermost first, without the place that they go on from. -/
def trail (loc : Location) : String := String.join (loc.reverse.map Step.text)

theorem trail_cons (s : Step) (outer : Location) : trail (s :: outer) = trail outer ++ s.text := by
  simp [trail, String.join_append]

theorem text_cons (s : Step) (outer : Location) : text (s :: outer) = text outer ++ s.text := by
  show text outer ++ "." ++ s.name ++ "\x7b" ++ toString s.pos ++ "\x7d" =
    text outer ++ ("." ++ s.name ++ "\x7b" ++ toString s.pos ++ "\x7d")
  simp only [String.append_assoc]

/-- The text of a path goes on from the text of the path that leads to it. -/
theorem text_append (inner outer : Location) :
    text (inner ++ outer) = text outer ++ trail inner := by
  induction inner with
  | nil => simp [trail]
  | cons s inner ih => rw [List.cons_append, text_cons, ih, trail_cons, String.append_assoc]

theorem text_eq (loc : Location) : loc.text = "\x7b0\x7d" ++ loc.trail := by
  have happend := text_append loc []
  rwa [List.append_nil] at happend

end Location

/-- The path that an error tells. Only errors that are not about a place in the input tell none. -/
def DecodeError.location? : DecodeError → Option Location
  | .invalidDirective _ => none
  | .truncated loc _ => some loc
  | .malformed loc _ => some loc
  | .badFlag loc _ => some loc
  | .hookOverrun loc _ _ => some loc
  | .tooWide loc _ _ => some loc
  | .hookFailed loc _ => some loc
  | .collectionTooLarge loc => some loc
  | .shapeMismatch loc _ _ => some loc
  | .missingField loc _ => some loc
  | .trailing _ _ => none

end TlsWire
