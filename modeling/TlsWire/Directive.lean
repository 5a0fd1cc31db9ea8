/-!
# Field directives

A directive says how one field is framed on the wire. A `Head` is the length prefix of a vector or
map: a big-endian number of a fixed width, a varint, or nothing at all, in which case the content
runs to the end of its scope. Only some directives select a head (`Directive.head?`).
-/

namespace TlsWire

/-- The length prefix of a vector or map. -/
inductive Head where
  /-- A big-endian length of `width` bytes. -/
  | fixed (width : Nat)
  | varint
  /-- No length: the content runs to the end of its scope. -/
  | unbounded
deriving DecidableEq, Repr

/-- How a single field is framed. -/
inductive Directive where
  /-- Fixed-width or recursive encoding. -/
  | default
  /-- An integer is written as a varint. -/
  | varint
  /-- A vector or map follows its length in this many bytes. -/
  | head (width : Nat)
  | headVarint
  | headNone
  /-- A presence flag comes first. -/
  | optional
  /-- The field never appears on the wire. -/
  | omit
deriving DecidableEq, Repr, Inhabited

namespace Directive

/-- The head that the directive selects. Lengths have one, two or three bytes. -/
def head? : Directive → Option Head
  | .head width => if 1 ≤ width ∧ width ≤ 3 then some (.fixed width) else none
  | .headVarint => some .varint
  | .headNone => some .unbounded
  | _ => none

/-- The text of a directive. -/
def text : Directive → String
  | .default => "default"
  | .varint => "varint"
  | .head width => s!"head={width}"
  | .headVarint => "head=varint"
  | .headNone => "head=none"
  | .optional => "optional"
  | .omit => "omit"

theorem head?_eq_fixed {d : Directive} {width : Nat} :
    d.head? = some (.fixed width) ↔ d = .head width ∧ 1 ≤ width ∧ width ≤ 3 := by
  cases d with
  | head w =>
    simp only [head?, Option.ite_none_right_eq_some, Option.some.injEq, Head.fixed.injEq,
      Directive.head.injEq]
    omega
  | _ => simp [head?]

end Directive

end TlsWire
