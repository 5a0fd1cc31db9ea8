import TlsWire.Decode.Error
import TlsWire.Varint

/-!
# Decoders

A decoder reads a value at a cursor and moves it. It reports the cursor it has reached also when
it fails. A `Context` accompanies it: where in the value it is, and how many elements a vector or
map may have.
-/

namespace TlsWire

/-- Limits that the caller sets on decoding. -/
structure Config where
  /-- The most elements that a single vector or map may have. Unless set, as many bytes as a
  length of three bytes can declare. -/
  maxCollect : Nat := 0x1000000

/-- Where decoding is, and under which limits. -/
structure Context where
  location : Location
  maxCollect : Nat

namespace Context

/-- The context of a whole value. -/
def top (config : Config) : Context where
  location := []
  maxCollect := config.maxCollect

/-- The context of a part that starts at `pos`. -/
def push (ctx : Context) (name : String) (pos : Nat) : Context where
  location := ⟨name, pos⟩ :: ctx.location
  maxCollect := ctx.maxCollect

/-- Fails unless one more element fits beside `count` others. -/
def checkCollect (ctx : Context) (count : Nat) : Except DecodeError Unit :=
  if ctx.maxCollect ≤ count then .error (.collectionTooLarge ctx.location) else .ok ()

theorem checkCollect_eq_ok {ctx : Context} {count : Nat} :
    ctx.checkCollect count = .ok () ↔ count < ctx.maxCollect := by
  unfold checkCollect
  split
  case isTrue h => simp [Nat.not_lt.mpr h]
  case isFalse h => simp [Nat.lt_of_not_le h]

end Context

/-- Reads a value at a cursor, and says where the cursor is afterwards. -/
abbrev Decoder := EStateM DecodeError Cursor

namespace Decoder

variable {α : Type}

/-- A plain read. It moves the cursor only when it succeeds. -/
def read (ctx : Context) (reader : Cursor → Except Truncated (α × Cursor)) : Decoder α :=
  fun c =>
    match reader c with
    | .ok (a, after) => .ok a after
    | .error t => .error (.truncated ctx.location t) c

/-- The position of the cursor. -/
def pos : Decoder Nat := fun c => .ok c.pos c

/-- The cursor itself. -/
def cursor : Decoder Cursor := fun c => .ok c c

/-- A result that does not depend on the cursor. -/
def ofExcept : Except DecodeError α → Decoder α
  | .ok a => pure a
  | .error e => throw e

end Decoder

end TlsWire
