import TlsWire.Dict

/-!
# Gathering entries into a dictionary

A decoder meets the entries of a map one by one and has to notice a key that it has met before. A
`Gatherer` is a way of doing so: an `ordered` one lets every entry take its place at once, a
`hashed` one keeps the entries as they come and puts them in order at the end.
-/

namespace TlsWire

/-- A way of collecting entries with distinct keys. -/
structure Gatherer {κ : Type} (order : KeyOrder κ) (β : Type) where
  State : Type
  start : State
  /-- Adds an entry, unless there is one with its key. -/
  add : State → κ → β → Option State
  finish : State → Dict order β

namespace Gatherer

variable {κ β : Type} {order : KeyOrder κ}

/-- Every entry takes its place at once. -/
def ordered : Gatherer order β where
  State := Dict order β
  start := .empty
  add d k v := if d.contains k then none else some (d.insert k v)
  finish d := d

/-- Entries are kept latest first and put in order at the end. -/
def hashed : Gatherer order β where
  State := List (κ × β)
  start := []
  add es k v := if es.any (fun e => order.same k e.1) then none else some ((k, v) :: es)
  finish es := .ofEntries es

end Gatherer

end TlsWire
