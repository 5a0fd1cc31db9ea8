import TlsWire.Encode.Error
import TlsWire.Varint

/-!
# Encoders

An encoder appends to a buffer. When it fails, what it has appended so far stays; `standalone`
runs an encoder on a buffer of its own, so that a failure leaves nothing behind, and `framed`
stages content in that way to learn its length before writing it.
-/

namespace TlsWire

/-- Appends to a buffer, or fails and leaves the buffer as far as it got. -/
abbrev Encoder := EStateM EncodeError Buffer

namespace Encoder

/-- Appends the bytes. -/
def append (bytes : Bytes) : Encoder Unit := fun dst => .ok () (dst ++ bytes.toArray)

/-- Appends a form that may not exist, in which case nothing is appended. -/
def emit : Except EncodeError Bytes → Encoder Unit
  | .ok bytes => append bytes
  | .error e => throw e

/-- Appends the form of a number in `width` bytes. -/
def uint (width n : Nat) : Encoder Unit := emit ((Uint.encode width n).mapError .overflow)

/-- Appends the shortest varint form of a number. -/
def varint (n : Nat) : Encoder Unit := emit ((Varint.encode n).mapError .overflow)

/-- What the encoder appends to an empty buffer. -/
def standalone (encoder : Encoder Unit) : Except EncodeError Bytes :=
  match encoder.run #[] with
  | .ok _ buffer => .ok buffer.toList
  | .error e _ => .error e

/-- Appends the head of content of `length` bytes. -/
def head (head : Head) (length : Nat) : Encoder Unit :=
  match head with
  | .fixed width => uint width length
  | .varint => varint length
  | .unbounded => pure ()

/-- Appends the content after its head. -/
def framed (head : Head) (content : Encoder Unit) : Encoder Unit :=
  match head with
  | .unbounded => content
  | _ =>
    -- The head tells the length of the content, so the content has to be there first.
    match content.standalone with
    | .error e => throw e
    | .ok bytes => do
      Encoder.head head bytes.length
      append bytes

/-- Runs an encoder on each item in order. -/
def each {α : Type} (encode : α → Encoder Unit) : List α → Encoder Unit
  | [] => pure ()
  | x :: xs => do
    encode x
    each encode xs

end Encoder

end TlsWire
