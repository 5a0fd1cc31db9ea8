import TlsWire.Cursor.Session
import TlsWire.Decode
import TlsWire.Directive.Parser
import TlsWire.Encode
import TlsWire.Hook.Raw
import TlsWire.Hook.Refusing
import TlsWire.Hook.ScrambledText
import TlsWire.Hook.Severity
import TlsWire.Proofs.Cursor.Advance
import TlsWire.Proofs.Pieces
import TlsWire.Proofs.Varint
import TlsWire.Proofs.Run
import TlsWire.Proofs.Schema.Resolve
import TlsWire.Proofs.WireForm
import TlsWire.Proofs.Decode.Elements
import TlsWire.Proofs.Decode.Success
import TlsWire.Proofs.Decode.HookElements
import TlsWire.Proofs.Canonical
import TlsWire.Proofs.Cursor.Extend
import TlsWire.Proofs.Decode.SelfDelimiting
import TlsWire.Proofs.Encode.EntryOrder
import TlsWire.Proofs.Decode.Isolation
import TlsWire.Proofs.Decode.ElementCount
import TlsWire.Proofs.Decode.Forward
import TlsWire.Proofs.Checked.Decode
import TlsWire.Proofs.Checked.Follows
import TlsWire.Proofs.Checked.Safety
import TlsWire.Proofs.Checked.Session
import TlsWire.Proofs.Decode.Limited
import TlsWire.Proofs.Decode.Limit
import TlsWire.Proofs.Components
import TlsWire.Proofs.Encode.Verdict
import TlsWire.Proofs.EntryPoints
import TlsWire.Proofs.Schema.Unambiguous
import TlsWire.Proofs.Encode.InPlace
import TlsWire.Proofs.Encode.Outcome
import TlsWire.Proofs.Schema.MinLen
import TlsWire.Proofs.Encode.Shortest
import TlsWire.Proofs.Decode.Fits
import TlsWire.Proofs.Encode.Weightless
import TlsWire.Proofs.Survivors
import TlsWire.Proofs.Alike
import TlsWire.Proofs.Decode.Relocation
import TlsWire.Proofs.Wrapping
import TlsWire.Proofs.Wrapping.Encode
import TlsWire.Proofs.Wrapping.Decode
import TlsWire.Proofs.Omission
import TlsWire.Proofs.Framing
import TlsWire.Proofs.Encode.AllOrNothing
import TlsWire.Proofs.Decode.Capacity
import TlsWire.Proofs.Decode.Greedy
import TlsWire.Proofs.Encode.Ordered
import TlsWire.Proofs.Decode.Maps
import TlsWire.Proofs.Location
import TlsWire.Proofs.Decode.Relocatable
import TlsWire.Proofs.Decode.Sites
import TlsWire.Proofs.Decode.Paths
import TlsWire.Proofs.Cursor.Session
import TlsWire.Proofs.Varint.Codec
import TlsWire.Proofs.Directive.Descriptor
import TlsWire.Proofs.Uint.Codec
import TlsWire.Proofs.Decode.Sites
