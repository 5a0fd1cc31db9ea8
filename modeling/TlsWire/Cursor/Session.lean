import TlsWire.Varint

/-!
# Sessions over several cursors

A session is a list of cursors, at first one over the whole input. Each step works on one of them;
splitting and copying add another one at the end. A step that fails changes no cursor, since the
read has none to return. For windows that are moved in place and put back also after a failure,
`Checked.Session.step_follows` proves it of the reads.
-/

namespace TlsWire

/-- An operation on one cursor. -/
inductive CursorOp where
  | take (n : Nat)
  | readByte
  | advance (n : Nat)
  | split (n : Nat)
  | copy
  | rest
  | uint (width : Nat)
  | varint
deriving DecidableEq, Repr

/-- What an operation yields. -/
inductive CursorOp.Yield where
  | bytes (bytes : Bytes)
  | byte (b : UInt8)
  | child (c : Cursor)
  | number (n : Nat)
  | nothing

/-- What an operation yields, the cursor afterwards and the cursors it adds. -/
def CursorOp.apply (c : Cursor) : CursorOp → Except Truncated (Yield × Cursor × List Cursor)
  | .take n => do
    let (bytes, c) ← c.take n
    return (.bytes bytes, c, [])
  | .readByte => do
    let (b, c) ← c.readByte
    return (.byte b, c, [])
  | .advance n => do
    let c ← c.advance n
    return (.nothing, c, [])
  | .split n => do
    let (child, c) ← c.split n
    return (.child child, c, [child])
  | .copy => .ok (.nothing, c, [c])
  | .rest => .ok (.bytes c.rest, c, [])
  | .uint width => do
    let (n, c) ← Uint.decode width c
    return (.number n, c, [])
  | .varint => do
    let (n, c) ← Varint.decode c
    return (.number n, c, [])

/-- All cursors created so far. -/
abbrev Session := List Cursor

namespace Session

/-- The session over a whole input. -/
def ofBytes (data : Bytes) : Session := [Cursor.ofBytes data]

/-- Works on the cursor at `index`, if there is one. -/
def step (session : Session) (index : Nat) (op : CursorOp) :
    Option (Except Truncated CursorOp.Yield × Session) :=
  match session[index]? with
  | none => none
  | some c =>
    match op.apply c with
    | .error t => some (.error t, session)
    | .ok (yield, c, added) => some (.ok yield, session.set index c ++ added)

end Session

end TlsWire
