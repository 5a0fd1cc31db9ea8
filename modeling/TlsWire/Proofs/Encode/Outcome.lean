import TlsWire.Proofs.Encode.Append
import TlsWire.Proofs.Encode.InPlace

/-!
# What encoders leave in a buffer

An `Outcome` is all there is to see of a run: the buffer, and the error if there was one. Since
encoders only append, the outcome on any buffer is the one on an empty buffer, moved behind what was
there (`AppendsOnly.eq_after`). So the outcome of parts that are run one after another is put
together from the outcomes that the parts have on their own (`alone_bind`, `alone_each`), up to the
first one that fails. A head does not change this for the content behind it, except that nothing is
left of content that fails while it is staged (`alone_framed`).
-/

namespace TlsWire

variable {α β : Type}

namespace Encoder

/-- How a run has ended, and the buffer that it has left. -/
abbrev Outcome := EStateM.Result EncodeError Buffer Unit

namespace Outcome

/-- The same behind bytes that are there already. -/
def after (dst : Buffer) : Outcome → Outcome
  | .ok _ out => .ok () (dst ++ out)
  | .error e out => .error e (dst ++ out)

/-- One outcome and then another one behind it, which is not reached if the first one is an
error. -/
def andThen (first second : Outcome) : Outcome :=
  match first with
  | .ok _ out => second.after out
  | .error e out => .error e out

/-- Outcomes one after another, up to the first error. -/
def concat : List Outcome → Outcome
  | [] => .ok () #[]
  | first :: rest => first.andThen (concat rest)

/-- Without an error there is nothing but the bytes, one after another. -/
theorem concat_ok (parts : List Bytes) :
    concat (parts.map fun part => .ok () part.toArray) = .ok () parts.flatten.toArray := by
  -- By induction on the parts, of which none fails.
  induction parts with
  | nil => rfl
  | cons part parts ih =>
    rw [List.map_cons, concat, ih]
    show EStateM.Result.ok () (part.toArray ++ parts.flatten.toArray) = _
    rw [List.flatten_cons, List.append_toArray]

end Outcome

/-- The outcome on a buffer of its own. -/
def alone (encoder : Encoder Unit) : Outcome := encoder #[]

/-- The outcome of content behind its head. Only content without a head is not staged. -/
def Outcome.framed (head : Head) (content : Outcome) : Outcome :=
  match head with
  | .unbounded => content
  | _ =>
    match content with
    | .error e _ => .error e #[]
    | .ok _ body => (Encoder.head head body.size).alone.andThen (.ok () body)

/-- An encoder that only appends is known by what it leaves on a buffer of its own. -/
theorem AppendsOnly.eq_after {encoder : Encoder Unit} (h : AppendsOnly encoder) (dst : Buffer) :
    encoder dst = encoder.alone.after dst := by
  rw [h dst, alone]
  cases encoder #[] <;> rfl

theorem alone_append (bytes : Bytes) : (append bytes).alone = .ok () bytes.toArray := by
  show EStateM.Result.ok () (#[] ++ bytes.toArray) = _
  rw [Array.empty_append]

/-- What is run second is moved behind what is run first. -/
theorem alone_bind {d e : Encoder Unit} (he : AppendsOnly e) :
    (d >>= fun _ => e).alone = d.alone.andThen e.alone := by
  show EStateM.bind d (fun _ => e) #[] = Outcome.andThen (d #[]) e.alone
  unfold EStateM.bind
  cases d #[] with
  | error err out => rfl
  | ok _ out => exact he.eq_after out

/-- Items leave their outcomes one after another. -/
theorem alone_each {encode : α → Encoder Unit} (h : ∀ x, AppendsOnly (encode x)) (xs : List α) :
    (each encode xs).alone = .concat (xs.map fun x => (encode x).alone) := by
  induction xs with
  | nil => rfl
  | cons x xs ih => rw [each, alone_bind (.each h xs), ih, List.map_cons, Outcome.concat]

/-- Content that fails while it is staged leaves nothing, and without a head it leaves what it has
written. -/
theorem alone_framed (head : Head) (content : Encoder Unit) :
    (framed head content).alone = content.alone.framed head := by
  -- What is staged is the outcome on a buffer of its own, less the buffer where it has failed.
  have hstandalone : content.standalone =
      match content.alone with
      | .ok _ body => .ok body.toList
      | .error e _ => .error e := rfl
  unfold framed Outcome.framed
  cases head with
  | unbounded => rfl
  | _ =>
    simp only [hstandalone]
    cases content.alone with
    | error e out => rfl
    | ok _ body => rw [alone_bind .append, alone_append, Array.length_toList, Array.toArray_toList]

end Encoder

namespace Schema

open Encoder

/-- What the fields that are not omitted leave on buffers of their own, in order. Where the shape
has nothing left for a field, an error takes its place and that of all others. -/
def Fields.outcomes : {α : Type} → Fields α → Shape.Fields → α → List Outcome
  | _, .nil, _, _ => []
  | _, .cons info schema rest, shapes, (x, xs) =>
    match shapes with
    | .present _ _ shape shapes => (schema.encode shape x).alone :: rest.outcomes shapes xs
    | .absent _ _ shapes => rest.outcomes shapes xs
    | .nil => [.error (.missingField info.type) #[]]

/-- Fields leave their outcomes one after another, up to the first that fails or is missing. -/
theorem Fields.alone_encode : {α : Type} → (fields : Fields α) → (shapes : Shape.Fields) →
    (x : α) → (fields.encode shapes x).alone = .concat (fields.outcomes shapes x)
  | _, .nil, _, _ => rfl
  | _, .cons _ _ rest, shapes, x => by
    obtain ⟨x, xs⟩ := x
    cases shapes with
    | nil => rfl
    | present name directive shape shapes =>
      rw [Fields.encode, alone_bind (rest.encode_appendsOnly shapes xs),
        Fields.alone_encode rest shapes xs, Fields.outcomes, Outcome.concat]
    | absent name directive shapes =>
      -- An omitted field leaves nothing, not even an empty outcome.
      rw [Fields.encode, Fields.alone_encode rest shapes xs, Fields.outcomes]

/-- The elements of an array follow one another without anything between them. -/
theorem alone_encode_array {type : String} {elem : Schema α} {length shapeLength : Nat}
    {elemShape : Shape} (items : Tuple α length) :
    ((Schema.array type elem length).encode (.array elemShape shapeLength) items).alone =
      .concat (items.val.map fun x => (elem.encode elemShape x).alone) := by
  rw [encode, ofArray]
  exact alone_each (elem.encode_appendsOnly elemShape) items.val

/-- The elements of a vector follow one another behind their head. -/
theorem alone_encode_vector {type : String} {elem : Schema α} {elemShape : Shape} {head : Head}
    (items : List α) :
    ((Schema.vector type elem).encode (.vector elemShape head) items).alone =
      .framed head (.concat (items.map fun x => (elem.encode elemShape x).alone)) := by
  rw [encode, ofVector, alone_framed, alone_each (elem.encode_appendsOnly elemShape)]

/-- A record that is refused leaves nothing. One that is accepted leaves what its fields do. -/
theorem alone_encode_record {type : String} {fields : Fields α} {validate : α → Except String Unit}
    {placeholder : Option α} {shapes : Shape.Fields} (x : α) :
    ((Schema.record type fields validate placeholder).encode (.record shapes) x).alone =
      match validate x with
      | .error reason => .error (.rejected type reason) #[]
      | .ok _ => .concat (fields.outcomes shapes x) := by
  rw [encode, ofRecord]
  cases validate x with
  | error reason => rfl
  | ok _ => exact Fields.alone_encode fields shapes x

/-- Whatever a value is encoded along, what is in the buffer before has no influence and stays as it
is, also under a varint whose class is set only after its bytes are there. So the elements of an
array or vector and the fields of a record leave, one after another, what each of them leaves on its
own, and if none of them fails these are their bytes. -/
theorem encode_concatenates :
    (∀ (α : Type) (schema : Schema α) (shape : Shape) (x : α) (dst : Buffer),
      schema.encode shape x dst = (schema.encode shape x).alone.after dst) ∧
    (∀ (n : Nat) (dst : Buffer), varint n dst = varintInPlace n dst) ∧
    (∀ (α : Type) (type : String) (elem : Schema α) (length shapeLength : Nat) (elemShape : Shape)
        (items : Tuple α length),
      ((Schema.array type elem length).encode (.array elemShape shapeLength) items).alone =
        .concat (items.val.map fun x => (elem.encode elemShape x).alone)) ∧
    (∀ (α : Type) (type : String) (elem : Schema α) (elemShape : Shape) (head : Head)
        (items : List α),
      ((Schema.vector type elem).encode (.vector elemShape head) items).alone =
        .framed head (.concat (items.map fun x => (elem.encode elemShape x).alone))) ∧
    (∀ (α : Type) (type : String) (fields : Fields α) (validate : α → Except String Unit)
        (placeholder : Option α) (shapes : Shape.Fields) (x : α),
      ((Schema.record type fields validate placeholder).encode (.record shapes) x).alone =
        match validate x with
        | .error reason => .error (.rejected type reason) #[]
        | .ok _ => .concat (fields.outcomes shapes x)) ∧
    (∀ parts : List Bytes,
      Outcome.concat (parts.map fun part => .ok () part.toArray) = .ok () parts.flatten.toArray) :=
  ⟨fun _ schema shape x dst => (schema.encode_appendsOnly shape x).eq_after dst,
    fun n dst => (varintInPlace_eq n dst).symm,
    fun _ _ _ _ _ _ items => alone_encode_array items,
    fun _ _ _ _ _ items => alone_encode_vector items,
    fun _ _ _ _ _ _ x => alone_encode_record x,
    Outcome.concat_ok⟩

/-- An element that fails leaves what the ones before it have written. -/
example :
    (Schema.array "[Option<u8>; 2]" (.option "Option<u8>" (.uint .u8)) 2).encode
        (.array (.pointer (.integer 8)) 2) ⟨[some 5#8, none], rfl⟩ #[9] =
      .error (.requiredNone "Option<u8>") #[9, 5] := rfl

end Schema

end TlsWire
