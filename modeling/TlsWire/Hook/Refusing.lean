import TlsWire.Hook

/-!
# Hooks that refuse

Hooks that claim too much, accept no value, or always fail. Decoders and encoders have to stay safe
with all of them.
-/

namespace TlsWire.Hook

/-- Claims one byte more than there is. It is only for decoding. -/
def liar : Hook Unit where
  type := "Liar"
  default := ()
  order := .unit
  validate _ := .ok ()
  encode _ := .error "decode only"
  decode bytes := .ok (bytes.length + 1, ())

/-- Accepts no value. It is only for encoding. -/
def sealed : Hook Unit where
  type := "Sealed"
  default := ()
  order := .unit
  validate _ := .error "sealed"
  encode _ := .ok [0x5E]
  decode _ := .error "encode only"

/-- Fails both ways. -/
def broken : Hook Unit where
  type := "Broken"
  default := ()
  order := .unit
  validate _ := .ok ()
  encode _ := .error "broken encoder"
  decode bytes := .error s!"broken decoder given {bytes.length} bytes"

end TlsWire.Hook
