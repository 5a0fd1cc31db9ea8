import TlsWire.Decode
import TlsWire.Proofs.Pieces
import TlsWire.Proofs.Varint

/-!
# Wire forms

The grammar of encoded values. `schema.WireForm shape x b` says that `b` is a form of `x` along
`shape`. Every kind of type has one rule, given the rules of its parts; the relation itself follows
the schema. A value can have several forms: a varint one in each class with room for it, a map one
for each order of its entries.

The rules say nothing about cursors, errors or limits, so they are what an encoder and a decoder
can be compared with.
-/

namespace TlsWire

variable {α β κ : Type}

/-- The forms of a head for content of the given length. -/
inductive Head.Form : Head → Nat → Bytes → Prop where
  | fixed {width length : Nat} (h : length < byteRange width) :
      Head.Form (.fixed width) length (bigEndian width length)
  | varint {length : Nat} {b : Bytes} (h : Varint.Form length b) : Head.Form .varint length b
  | unbounded {length : Nat} : Head.Form .unbounded length []

namespace WireForm

/-- A number, at its full width or in any class of varint. -/
inductive OfUint (t : UintType) : Shape → Nat → Bytes → Prop where
  | integer {bits n : Nat} : OfUint t (.integer bits) n (bigEndian t.bytes n)
  | varint {bits n : Nat} {b : Bytes} (h : Varint.Form n b) : OfUint t (.varint bits) n b

/-- As many elements as the type and the shape say, back to back. -/
inductive OfArray (elem : Shape → α → Bytes → Prop) (length : Nat) :
    Shape → List α → Bytes → Prop where
  | intro {elemShape : Shape} {items : List α} {b : Bytes}
      (h : Pieces (elem elemShape) items b) : OfArray elem length (.array elemShape length) items b

/-- A form that takes up space. -/
def Solid (form : α → Bytes → Prop) (x : α) (b : Bytes) : Prop := form x b ∧ b ≠ []

/-- Content after a head that states its length. -/
inductive Framed (head : Head) (content : Bytes → Prop) : Bytes → Prop where
  | intro {h body : Bytes} (hhead : head.Form body.length h) (hbody : content body) :
      Framed head content (h ++ body)

/-- Elements that take up space, after a head. -/
inductive OfVector (elem : Shape → α → Bytes → Prop) : Shape → List α → Bytes → Prop where
  | intro {elemShape : Shape} {head : Head} {items : List α} {b : Bytes}
      (h : Framed head (Pieces (Solid (elem elemShape)) items) b) :
      OfVector elem (.vector elemShape head) items b

/-- A key, then its value. -/
inductive OfEntry (key : κ → Bytes → Prop) (value : β → Bytes → Prop) :
    κ × β → Bytes → Prop where
  | intro {e : κ × β} {a b : Bytes} (hkey : key e.1 a) (hvalue : value e.2 b) :
      OfEntry key value e (a ++ b)

/-- The entries of a map in any order, after a head. Their keys differ, because they are the
entries of a dictionary. -/
inductive OfMap {order : KeyOrder κ} (key : Shape → κ → Bytes → Prop)
    (value : Shape → β → Bytes → Prop) : Shape → Dict order β → Bytes → Prop where
  | intro {keyShape valueShape : Shape} {head : Head} {dict : Dict order β} {es : List (κ × β)}
      {b : Bytes} (hperm : es.Perm dict.entries)
      (h : Framed head (Pieces (Solid (OfEntry (key keyShape) (value valueShape))) es) b) :
      OfMap key value (.map keyShape valueShape head) dict b

/-- Nothing but the content. -/
inductive OfBox (content : Shape → α → Bytes → Prop) : Shape → α → Bytes → Prop where
  | intro {target : Shape} {x : α} {b : Bytes} (h : content target x b) :
      OfBox content (.pointer target) x b

/-- A flag and the content if there is some; without a flag, the content. -/
inductive OfOption (content : Shape → α → Bytes → Prop) : Shape → Option α → Bytes → Prop where
  | absent {target : Shape} : OfOption content (.optional target) none [0]
  | present {target : Shape} {x : α} {b : Bytes} (h : content target x b) :
      OfOption content (.optional target) (some x) (1 :: b)
  | required {target : Shape} {x : α} {b : Bytes} (h : content target x b) :
      OfOption content (.pointer target) (some x) b

/-- Nothing but the fields. -/
inductive OfRecord (fields : Shape.Fields → α → Bytes → Prop) : Shape → α → Bytes → Prop where
  | intro {shapes : Shape.Fields} {x : α} {b : Bytes} (h : fields shapes x b) :
      OfRecord fields (.record shapes) x b

/-- What the hook reads the value from, whatever follows. -/
inductive OfHook (hook : Hook α) : Shape → α → Bytes → Prop where
  | intro {x : α} {b : Bytes} (h : ∀ t, hook.decode (b ++ t) = .ok (b.length, x)) :
      OfHook hook .custom x b

/-- A field and the ones after it. A field that is absent has its default. -/
inductive OfField (field : Shape → α → Bytes → Prop) (default : α)
    (rest : Shape.Fields → β → Bytes → Prop) : Shape.Fields → α × β → Bytes → Prop where
  | present {name : String} {directive : Directive} {shape : Shape} {shapes : Shape.Fields}
      {x : α} {xs : β} {b b' : Bytes} (hfield : field shape x b) (hrest : rest shapes xs b') :
      OfField field default rest (.present name directive shape shapes) (x, xs) (b ++ b')
  | absent {name : String} {directive : Directive} {shapes : Shape.Fields} {xs : β} {b : Bytes}
      (hrest : rest shapes xs b) :
      OfField field default rest (.absent name directive shapes) (default, xs) b

end WireForm

namespace Schema

mutual

/-- The forms of a value along a shape. -/
def WireForm : {α : Type} → Schema α → Shape → α → Bytes → Prop
  | _, .uint t, shape, n, b => WireForm.OfUint t shape n.toNat b
  | _, .array _ elem length, shape, items, b =>
    WireForm.OfArray elem.WireForm length shape items.val b
  | _, .vector _ elem, shape, items, b => WireForm.OfVector elem.WireForm shape items b
  | _, .map _ _ _ key value, shape, dict, b =>
    WireForm.OfMap key.WireForm value.WireForm shape dict b
  | _, .box _ content, shape, x, b => WireForm.OfBox content.WireForm shape x b
  | _, .option _ content, shape, x, b => WireForm.OfOption content.WireForm shape x b
  | _, .record _ fields _ _, shape, x, b => WireForm.OfRecord fields.WireForm shape x b
  | _, .custom hook, shape, x, b => WireForm.OfHook hook shape x b

/-- The forms of the present fields, one after another. -/
def Fields.WireForm : {α : Type} → Fields α → Shape.Fields → α → Bytes → Prop
  | _, .nil, _, _, b => b = []
  | _, .cons _ schema rest, shapes, xs, b =>
    WireForm.OfField schema.WireForm schema.default rest.WireForm shapes xs b

end

end Schema

end TlsWire
