import TlsWire.Encode.Encoder

/-!
# Map entries on the wire

The entries of a map are written in the byte order of their encoded keys, whatever order they come
in. All of them are encoded before any is written, so that a failure leaves nothing behind. Two
keys with the same form cannot be told apart when read back and are refused.
-/

namespace TlsWire

/-- The forms of one key and its value. -/
structure EncodedEntry where
  key : Bytes
  value : Bytes
deriving DecidableEq, Repr

namespace EncodedEntry

def bytes (e : EncodedEntry) : Bytes := e.key ++ e.value

/-- The order of entries on the wire. -/
def le (a b : EncodedEntry) : Bool := decide (a.key ≤ b.key)

/-- Whether two neighbours have the same key. -/
def anyRepeated : List EncodedEntry → Bool
  | a :: b :: es => a.key == b.key || anyRepeated (b :: es)
  | _ => false

/-- The forms of all entries, in the order they come in. -/
def ofEntries {κ β : Type} (key : κ → Encoder Unit) (value : β → Encoder Unit) :
    List (κ × β) → Except EncodeError (List EncodedEntry)
  | [] => .ok []
  | (k, v) :: es => do
    let keyForm ← (key k).standalone
    let valueForm ← (value v).standalone
    return ⟨keyForm, valueForm⟩ :: (← ofEntries key value es)

/-- The entries in wire order, unless two of them have the same key. -/
def arrange (type : String) (es : List EncodedEntry) : Except EncodeError (List EncodedEntry) :=
  -- Equal keys are neighbours once the entries are sorted.
  let sorted := es.mergeSort le
  if anyRepeated sorted then .error (.duplicateKey type) else .ok sorted

end EncodedEntry

/-- Appends the entries of a map after their head. -/
def Encoder.entries {κ β : Type} (type : String) (head : Head) (key : κ → Encoder Unit)
    (value : β → Encoder Unit) (es : List (κ × β)) : Encoder Unit :=
  match EncodedEntry.ofEntries key value es with
  | .error e => throw e
  | .ok forms =>
    match EncodedEntry.arrange type forms with
    | .error e => throw e
    | .ok sorted => framed head (each (fun e => append e.bytes) sorted)

end TlsWire
