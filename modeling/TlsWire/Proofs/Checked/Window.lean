import TlsWire.Decode.Sequence

/-!
# Windows and checked reads

A `Window` is a cursor as a machine holds it: a buffer and an index into it. The machine can do
things with them that no decoder should ask for, such as to take a slice that leaves the buffer or a
number from a smaller one. Here they are faults. A `Checked` computation stops at its first `Fault`,
and nothing recovers from it; an ordinary decoding error is a result like any other.

`window.cursor` is what the window shows. It is only of use for a window that is `Valid`, where the
index has not left the buffer.
-/

namespace TlsWire

/-- What a decoder must never do. -/
inductive Fault where
  /-- To take the slice from `start` to `stop` of fewer bytes, or one that ends before it starts. -/
  | slice (start stop length : Nat)
  /-- To take the byte at an index behind the last one. -/
  | index (index length : Nat)
  /-- To take `b` from the smaller number `a`. -/
  | underflow (a b : Nat)
  /-- To read a number of no bytes, or of more than eight. -/
  | width (width : Nat)
  /-- To find more elements than the content has bytes. -/
  | endless
deriving DecidableEq, Repr

namespace Checked

/-- The difference of two numbers. -/
def sub (a b : Nat) : Except Fault Nat := if b ≤ a then .ok (a - b) else .error (.underflow a b)

/-- The bytes from index `start` up to index `stop`. -/
def slice (bytes : Bytes) (start stop : Nat) : Except Fault Bytes :=
  if start ≤ stop ∧ stop ≤ bytes.length then .ok ((bytes.take stop).drop start)
  else .error (.slice start stop bytes.length)

/-- The byte at an index. -/
def byteAt (bytes : Bytes) (i : Nat) : Except Fault UInt8 :=
  match bytes[i]? with
  | some b => .ok b
  | none => .error (.index i bytes.length)

end Checked

/-- A buffer that starts `base` bytes into the whole input, read up to an index. -/
structure Window where
  data : Bytes
  read : Nat
  base : Nat

namespace Window

/-- The window over a whole input. -/
def ofBytes (data : Bytes) : Window where
  data := data
  read := 0
  base := 0

/-- Whether the index is within the buffer. -/
def Valid (w : Window) : Prop := w.read ≤ w.data.length

/-- The offset of the next unread byte in the whole input. -/
def pos (w : Window) : Nat := w.base + w.read

/-- The offset of the end of the buffer in the whole input. -/
def stop (w : Window) : Nat := w.base + w.data.length

/-- What is unread, and where it is. -/
def cursor (w : Window) : Cursor where
  rest := w.data.drop w.read
  base := w.base
  consumed := w.read
  remaining := w.data.length - w.read
  remaining_eq := by rw [List.length_drop]

/-- How many bytes are unread. An index behind the end of the buffer is a fault. -/
def remaining (w : Window) : Except Fault Nat := Checked.sub w.data.length w.read

/-- The unread bytes, as a slice up to the end of the buffer. -/
def rest (w : Window) : Except Fault Bytes := Checked.slice w.data w.read w.data.length

/-- The window after `n` more bytes. -/
def skip (w : Window) (n : Nat) : Window := { w with read := w.read + n }

@[simp] theorem pos_cursor (w : Window) : w.cursor.pos = w.pos := rfl

/-- Nothing has been read yet. -/
theorem valid_ofBytes (data : Bytes) : (ofBytes data).Valid := Nat.zero_le _

end Window

/-- Reads a value at a window and moves it, unless there is a fault. -/
abbrev Checked := ExceptT DecodeError (StateT Window (Except Fault))

namespace Checked

/-- The next `n` bytes. -/
def take (ctx : Context) (n : Nat) : Checked Bytes := do
  -- Whether the bytes are there is known before the slice is taken and the index is moved.
  let w ← get
  let available ← w.remaining
  if available < n then throw (.truncated ctx.location ⟨n, available⟩)
  else
    let bytes ← slice w.data w.read (w.read + n)
    set (w.skip n)
    return bytes

/-- The next byte. -/
def readByte (ctx : Context) : Checked UInt8 := do
  let bytes ← take ctx 1
  byteAt bytes 0

/-- The next `n` bytes as a window of their own. -/
def split (ctx : Context) (n : Nat) : Checked Window := do
  let w ← get
  let data ← take ctx n
  return { data, read := 0, base := w.pos }

/-- A number of this many bytes. -/
def uint (ctx : Context) (width : Nat) : Checked Nat := do
  if 1 ≤ width ∧ width ≤ 8 then
    let bytes ← take ctx width
    return ofBigEndian bytes
  else (throw (.width width) : Except Fault Nat)

/-- The largest number of this many bytes. -/
def uintMax (width : Nat) : Except Fault Nat :=
  if 8 ≤ width then .ok 0xFFFFFFFFFFFFFFFF else sub (byteRange width) 1

/-- A number in a form of any class. The two bits that say which one are masked out. -/
def varint (ctx : Context) : Checked Nat := do
  let w ← get
  let bytes ← w.rest
  match bytes.head? with
  | none => throw (.truncated ctx.location ⟨1, 0⟩)
  | some first =>
    let width := 1 <<< (first.toNat >>> 6)
    let raw ← uint ctx width
    let max ← uintMax width
    return raw &&& (max >>> 2)

/-- Content that is being decoded element by element. -/
structure Sequence where
  /-- The content that is left. -/
  scope : Window
  /-- Whether a head has declared the length of the content. -/
  bounded : Bool
  /-- The number of elements decoded so far. -/
  count : Nat

namespace Sequence

variable {α σ : Type}

/-- Reads the head and splits the content off. -/
def ofHead (ctx : Context) (head : Head) : Checked Sequence := do
  match head with
  | .fixed width =>
    let length ← uint ctx width
    let scope ← split ctx length
    return ⟨scope, true, 0⟩
  | .varint =>
    let length ← varint ctx
    let scope ← split ctx length
    return ⟨scope, true, 0⟩
  | .unbounded =>
    let w ← get
    let length ← w.remaining
    let scope ← split ctx length
    return ⟨scope, false, 0⟩

/-- How many elements of at least `minLen` bytes to reserve space for. -/
def capacity (seq : Sequence) (ctx : Context) (minLen : Nat) : Except Fault Nat := do
  let left ← seq.scope.remaining
  return min (left / max minLen 1) ctx.maxCollect

/-- Decodes the next element, or finds that there is none left. -/
def next (ctx : Context) (elem : Context → Checked α) (seq : Sequence) :
    Except Fault (Except DecodeError (Option α) × Sequence) := do
  if (← seq.scope.remaining) = 0 then return (.ok none, seq)
  else
    let start := seq.scope.read
    let element := ctx.push Step.elementName seq.scope.pos
    match element.checkCollect seq.count with
    | .error e => return (.error e, seq)
    | .ok _ =>
      match ← elem element seq.scope with
      | (.error e, scope) =>
        return (.error (TlsWire.Sequence.blame seq.bounded element e), { seq with scope })
      | (.ok a, scope) =>
        -- An element that leaves the index where it was would be found again and again.
        if scope.read = start then
          return (.error (.malformed element.location .emptyElement), { seq with scope })
        else return (.ok (some a), { seq with scope, count := seq.count + 1 })

/-- Decodes all elements and adds them up, in order. To find more than `budget` is a fault. -/
def fold (ctx : Context) (elem : Context → Checked α) (add : σ → α → Except DecodeError σ) :
    (budget : Nat) → σ → Sequence → Except Fault (Except DecodeError σ)
  | budget, acc, seq => do
    -- The budget is looked at only when there has been an element.
    match ← next ctx elem seq with
    | (.error e, _) => return .error e
    | (.ok none, _) => return .ok acc
    | (.ok (some a), seq) =>
      match budget with
      | 0 => throw .endless
      | budget + 1 =>
        match add acc a with
        | .error e => return .error e
        | .ok acc => fold ctx elem add budget acc seq

/-- Decodes all elements. There can be no more than there are bytes. -/
def all (ctx : Context) (elem : Context → Checked α) (add : σ → α → Except DecodeError σ)
    (acc : σ) (seq : Sequence) : Except Fault (Except DecodeError σ) := do
  fold ctx elem add (← seq.scope.remaining) acc seq

end Sequence

end Checked

end TlsWire
