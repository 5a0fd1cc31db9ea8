import TlsWire.Bytes

/-!
# Read positions inside nested scopes

A `Cursor` sees one scope: the bytes it has not consumed yet, and nothing outside. `split` carves
the next `n` bytes out as a scope of their own, so that a length-prefixed region can be read
without any chance of leaving it. `pos` counts from the start of the whole input however deep the
scope is nested.

A read returns what it read together with the cursor that follows, so a read that fails has no
cursor to return and moves nothing. `Truncated` says how many bytes were asked for and how many
there were.

* `take_eq_ok` / `take_eq_error` — a read of `n` bytes succeeds exactly when `n ≤ remaining`.
* `split_eq_ok` — the child covers exactly the bytes that the parent leaves behind.
-/

namespace TlsWire

/-- A read wanted more bytes than its scope holds. -/
structure Truncated where
  needed : Nat
  available : Nat
deriving DecidableEq, Repr

/-- The wording of a truncation. -/
def Truncated.message (t : Truncated) : String :=
  s!"needed {t.needed} bytes but only {t.available} remain"

/-- The unread part of one scope, which starts `base` bytes into the whole input. The number of
unread bytes is kept beside them so that asking for it takes constant time. -/
structure Cursor where
  rest : Bytes
  base : Nat
  consumed : Nat
  remaining : Nat
  remaining_eq : remaining = rest.length

namespace Cursor

/-- The scope of a whole input. -/
def ofBytes (data : Bytes) : Cursor where
  rest := data
  base := 0
  consumed := 0
  remaining := data.length
  remaining_eq := rfl

/-- The offset of the next unread byte in the whole input. -/
def pos (c : Cursor) : Nat := c.base + c.consumed

def isEmpty (c : Cursor) : Bool := c.remaining == 0

/-- The next `n` bytes and the cursor after them. -/
def take (n : Nat) (c : Cursor) : Except Truncated (Bytes × Cursor) :=
  if n ≤ c.remaining then
    .ok (c.rest.take n,
      { rest := c.rest.drop n
        base := c.base
        consumed := c.consumed + n
        remaining := c.remaining - n
        remaining_eq := by rw [c.remaining_eq, List.length_drop] })
  else
    .error ⟨n, c.remaining⟩

/-- The next byte. -/
def readByte (c : Cursor) : Except Truncated (UInt8 × Cursor) := do
  let (bytes, c) ← c.take 1
  return (bytes.headD 0, c)

/-- Skips `n` bytes. -/
def advance (n : Nat) (c : Cursor) : Except Truncated Cursor := do
  let (_, c) ← c.take n
  return c

/-- The next `n` bytes as a scope of their own, and the cursor after them. -/
def split (n : Nat) (c : Cursor) : Except Truncated (Cursor × Cursor) := do
  let (bytes, after) ← c.take n
  return ({ ofBytes bytes with base := c.pos }, after)

@[ext] theorem ext {a b : Cursor} (rest : a.rest = b.rest) (base : a.base = b.base)
    (consumed : a.consumed = b.consumed) : a = b := by
  obtain ⟨_, _, _, _, ha⟩ := a
  obtain ⟨_, _, _, _, hb⟩ := b
  simp_all

@[simp] theorem rest_ofBytes (data : Bytes) : (ofBytes data).rest = data := rfl

@[simp] theorem pos_ofBytes (data : Bytes) : (ofBytes data).pos = 0 := rfl

theorem isEmpty_iff (c : Cursor) : c.isEmpty = true ↔ c.rest = [] := by
  simp [isEmpty, c.remaining_eq]

/-- A read succeeds only within the scope, returns the front of it and moves by its length. -/
theorem take_eq_ok {n : Nat} {c after : Cursor} {bytes : Bytes} :
    c.take n = .ok (bytes, after) ↔
      n ≤ c.remaining ∧ c.rest = bytes ++ after.rest ∧ bytes.length = n ∧
        after.base = c.base ∧ after.consumed = c.consumed + n := by
  unfold take
  split
  case isTrue h =>
    have hlen : n ≤ c.rest.length := c.remaining_eq ▸ h
    simp only [Except.ok.injEq, Prod.mk.injEq, h, true_and]
    constructor
    · rintro ⟨rfl, rfl⟩
      simp [hlen]
    · rintro ⟨hrest, hbytes, hbase, hconsumed⟩
      refine ⟨by simp [hrest, ← hbytes], ?_⟩
      ext1
      · simp [hrest, ← hbytes]
      · exact hbase.symm
      · exact hconsumed.symm
  case isFalse h => simp [h]

/-- A read that leaves the scope reports what it asked for and what there was. -/
theorem take_eq_error {n : Nat} {c : Cursor} {t : Truncated} :
    c.take n = .error t ↔ c.remaining < n ∧ t = ⟨n, c.remaining⟩ := by
  unfold take
  split
  case isTrue h => simp [Nat.not_lt.mpr h]
  case isFalse h => simp [Nat.lt_of_not_le h, eq_comm]

/-- The child scope starts at the parent's position and holds the bytes the parent skips. -/
theorem split_eq_ok {n : Nat} {c child after : Cursor} :
    c.split n = .ok (child, after) ↔
      ∃ bytes, c.take n = .ok (bytes, after) ∧ child = { ofBytes bytes with base := c.pos } := by
  unfold split
  cases h : c.take n with
  | error t => simp [bind, Except.bind]
  | ok r =>
    obtain ⟨bytes, after'⟩ := r
    simp only [bind, Except.bind, pure, Except.pure, Except.ok.injEq, Prod.mk.injEq]
    constructor
    · rintro ⟨rfl, rfl⟩
      exact ⟨bytes, ⟨rfl, rfl⟩, rfl⟩
    · rintro ⟨_, ⟨rfl, rfl⟩, rfl⟩
      exact ⟨rfl, rfl⟩

end Cursor

end TlsWire
