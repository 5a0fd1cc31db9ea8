import TlsWire.Hook

/-!
# Hooks on raw bytes

Hooks that show what the general rules leave to a hook: to forget part of a value when it is
written, to take everything that is left, to take nothing at all.
-/

namespace TlsWire.Hook

/-- A byte of which only the low four bits are written. -/
def tag : Hook UInt8 where
  type := "Tag"
  default := 0
  order := .byte
  validate _ := .ok ()
  encode b := .ok [b &&& 0x0F]
  decode
    | [] => .error "empty tag"
    | b :: _ => .ok (1, b)

/-- Everything that is left, as it is. -/
def rest : Hook Bytes where
  type := "Rest"
  default := []
  order := KeyOrder.byte.list
  validate _ := .ok ()
  encode bytes := .ok bytes
  decode bytes := .ok (bytes.length, bytes)

/-- The next byte, which is looked at and left where it is. -/
def peek : Hook UInt8 where
  type := "Peek"
  default := 0
  order := .byte
  validate _ := .ok ()
  encode _ := .ok []
  decode bytes := .ok (0, bytes.headD 0)

end TlsWire.Hook
