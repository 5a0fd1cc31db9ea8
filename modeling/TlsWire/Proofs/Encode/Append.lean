import TlsWire.Encode

/-!
# Encoders only append

An encoder never looks at what its buffer already holds: it appends to any buffer what it appends to
an empty one, and ends in the same way (`AppendsOnly`, `Schema.encode_appendsOnly`). So an encoder
is known once it is known what it does on a buffer of its own.
-/

namespace TlsWire

variable {α β κ : Type}

namespace Encoder

/-- The encoder does to any buffer what it does to an empty one, after what is there. -/
def AppendsOnly (encoder : Encoder Unit) : Prop :=
  ∀ dst, encoder dst =
    match encoder #[] with
    | .ok _ out => .ok () (dst ++ out)
    | .error e out => .error e (dst ++ out)

theorem AppendsOnly.pure : AppendsOnly (pure ()) := by
  intro dst
  show EStateM.Result.ok () dst = .ok () (dst ++ #[])
  rw [Array.append_empty]

theorem AppendsOnly.throw {e : EncodeError} : AppendsOnly (throw e) := by
  intro dst
  show EStateM.Result.error e dst = .error e (dst ++ #[])
  rw [Array.append_empty]

theorem AppendsOnly.append {bytes : Bytes} : AppendsOnly (append bytes) := by
  intro dst
  show EStateM.Result.ok () (dst ++ bytes.toArray) = .ok () (dst ++ (#[] ++ bytes.toArray))
  rw [Array.empty_append]

/-- The second encoder appends to what the first one has appended, and so to what was there before.
-/
theorem AppendsOnly.bind {d e : Encoder Unit} (hd : AppendsOnly d) (he : AppendsOnly e) :
    AppendsOnly (d >>= fun _ => e) := by
  intro dst
  show EStateM.bind d (fun _ => e) dst = match EStateM.bind d (fun _ => e) #[] with
    | .ok _ out => .ok () (dst ++ out)
    | .error e out => .error e (dst ++ out)
  unfold EStateM.bind
  rw [hd dst]
  cases d #[] with
  | error err out => rfl
  | ok _ out =>
    simp only
    -- Appending is associative, so it does not matter where the second one starts.
    rw [he (dst ++ out), he out]
    cases e #[] <;> simp only [Array.append_assoc]

theorem AppendsOnly.emit {r : Except EncodeError Bytes} : AppendsOnly (emit r) := by
  cases r with
  | error e => exact .throw
  | ok bytes => exact .append

/-- By induction on the items, each of them behind those before it. -/
theorem AppendsOnly.each {encode : α → Encoder Unit} (h : ∀ x, AppendsOnly (encode x))
    (xs : List α) : AppendsOnly (each encode xs) := by
  induction xs with
  | nil => exact .pure
  | cons x xs ih => exact .bind (h x) ih

theorem AppendsOnly.head {h : Head} {length : Nat} : AppendsOnly (head h length) := by
  cases h with
  | fixed width => exact .emit
  | varint => exact .emit
  | unbounded => exact .pure

/-- A head needs its content staged, whatever the content does on the way. -/
theorem AppendsOnly.framed {head : Head} {content : Encoder Unit} (h : AppendsOnly content) :
    AppendsOnly (framed head content) := by
  unfold Encoder.framed
  cases head with
  | unbounded => exact h
  | _ =>
    simp only
    cases content.standalone with
    | error e => exact .throw
    | ok bytes => exact .bind .head .append

/-- The keys and values are encoded on buffers of their own, so nothing is asked of them. -/
theorem AppendsOnly.entries {type : String} {head : Head} {key : κ → Encoder Unit}
    {value : β → Encoder Unit} {es : List (κ × β)} :
    AppendsOnly (entries type head key value es) := by
  unfold Encoder.entries
  split
  · exact .throw
  · split
    · exact .throw
    · exact .framed (.each (fun _ => .append) _)

/-! ## Kinds of types -/

section Kinds

variable {type : String} {shape : Shape}

theorem AppendsOnly.ofUint {t : UintType} {n : Nat} : AppendsOnly (ofUint t shape n) := by
  cases shape with
  | integer bits => exact .emit
  | varint bits => exact .emit
  | _ => exact .throw

theorem AppendsOnly.ofArray {elem : Shape → α → Encoder Unit} {items : List α}
    (h : ∀ shape x, AppendsOnly (elem shape x)) :
    AppendsOnly (ofArray type elem shape items) := by
  cases shape with
  | array elemShape length => exact .each (h elemShape) items
  | _ => exact .throw

/-- A wrong shape is refused with nothing written, here as for every other kind. -/
theorem AppendsOnly.ofVector {elem : Shape → α → Encoder Unit} {items : List α}
    (h : ∀ shape x, AppendsOnly (elem shape x)) :
    AppendsOnly (ofVector type elem shape items) := by
  cases shape with
  | vector elemShape head => exact .framed (.each (h elemShape) items)
  | _ => exact .throw

theorem AppendsOnly.ofMap {key : Shape → κ → Encoder Unit} {value : Shape → β → Encoder Unit}
    {es : List (κ × β)} : AppendsOnly (ofMap type key value shape es) := by
  cases shape with
  | map keyShape valueShape head => exact .entries
  | _ => exact .throw

theorem AppendsOnly.ofBox {content : Shape → α → Encoder Unit} {x : α}
    (h : ∀ shape x, AppendsOnly (content shape x)) :
    AppendsOnly (ofBox type content shape x) := by
  cases shape with
  | pointer target => exact h target x
  | _ => exact .throw

theorem AppendsOnly.ofOption {content : Shape → α → Encoder Unit} {x : Option α}
    (h : ∀ shape x, AppendsOnly (content shape x)) :
    AppendsOnly (ofOption type content shape x) := by
  cases shape with
  | optional target =>
    cases x with
    | none => exact .append
    | some x => exact .bind .append (h target x)
  | pointer target =>
    cases x with
    | none => exact .throw
    | some x => exact h target x
  | _ => exact .throw

theorem AppendsOnly.ofRecord {validate : α → Except String Unit}
    {fields : Shape.Fields → α → Encoder Unit} {x : α}
    (h : ∀ shapes x, AppendsOnly (fields shapes x)) :
    AppendsOnly (ofRecord type validate fields shape x) := by
  unfold Encoder.ofRecord
  cases validate x with
  | error reason => exact .throw
  | ok _ =>
    cases shape with
    | record shapes => exact h shapes x
    | _ => exact .throw

theorem AppendsOnly.ofHook {hook : Hook α} {x : α} : AppendsOnly (ofHook hook shape x) := by
  unfold Encoder.ofHook
  cases hook.validate x with
  | error reason => exact .throw
  | ok _ =>
    cases shape with
    | custom => exact .emit
    | _ => exact .throw

end Kinds

end Encoder

namespace Schema

open Encoder

mutual

/-- Whatever the shape, encoding only appends. -/
theorem encode_appendsOnly : {α : Type} → (schema : Schema α) → (shape : Shape) → (x : α) →
    AppendsOnly (schema.encode shape x)
  | _, .uint _, _, _ => by
    rw [encode]
    exact .ofUint
  | _, .array _ elem _, _, _ => by
    rw [encode]
    exact .ofArray (encode_appendsOnly elem)
  | _, .vector _ elem, _, _ => by
    rw [encode]
    exact .ofVector (encode_appendsOnly elem)
  | _, .map _ _ _ _ _, _, _ => by
    rw [encode]
    -- Keys and values are staged, and what they append to is never the buffer.
    exact .ofMap
  | _, .box _ content, _, _ => by
    rw [encode]
    exact .ofBox (encode_appendsOnly content)
  | _, .option _ content, _, _ => by
    rw [encode]
    exact .ofOption (encode_appendsOnly content)
  | _, .record _ fields _ _, _, _ => by
    rw [encode]
    exact .ofRecord (Fields.encode_appendsOnly fields)
  | _, .custom _, _, _ => by
    rw [encode]
    exact .ofHook

/-- The fields one after another. Shapes that run out of fields are refused, and nothing is
written. -/
theorem Fields.encode_appendsOnly : {α : Type} → (fields : Fields α) → (shapes : Shape.Fields) →
    (x : α) → AppendsOnly (fields.encode shapes x)
  | _, .nil, _, _ => by
    rw [Fields.encode]
    exact .pure
  | _, .cons _ schema rest, shapes, (x, xs) => by
    cases shapes with
    | nil => exact .throw
    | present name directive shape shapes =>
      rw [Fields.encode]
      exact .bind (Schema.encode_appendsOnly schema shape x)
        (Fields.encode_appendsOnly rest shapes xs)
    | absent name directive shapes =>
      rw [Fields.encode]
      exact Fields.encode_appendsOnly rest shapes xs

end

end Schema

end TlsWire
