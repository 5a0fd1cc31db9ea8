import TlsWire.Proofs.Schema.MinLen

/-!
# A value of minimal length

Without hooks and validation every type that resolves has a value which is written in as few bytes
as its shape allows (`Schema.shortest`, `Schema.encode_shortest`): numbers are zero, vectors and
maps are empty, and nothing stands behind a presence flag. An option without a flag cannot be left
out, so its content is there. With the lower bounds on everything that is written or decoded this
makes `Shape.minLen` the least length there is (`Schema.minLen_isLeast`).
-/

namespace TlsWire

variable {α β κ : Type}

/-! ## Encoders that succeed -/

namespace Encoder

/-- The encoder succeeds and writes this many bytes. -/
def Writes (encoder : Encoder Unit) (len : Nat) : Prop :=
  ∃ b, encoder.standalone = .ok b ∧ b.length = len

theorem append_writes (bytes : Bytes) : Writes (append bytes) bytes.length :=
  ⟨bytes, standalone_append, rfl⟩

theorem uint_zero_writes (width : Nat) : Writes (uint width 0) width := by
  have hencode : Uint.encode width 0 = .ok (bigEndian width 0) :=
    Uint.encode_eq_ok.mpr ⟨Nat.zero_le _, rfl⟩
  refine ⟨bigEndian width 0, ?_, length_bigEndian width 0⟩
  rw [uint, standalone_emit, hencode]
  rfl

theorem varint_zero_writes : Writes (varint 0) 1 := ⟨[0], rfl, rfl⟩

/-- A head that counts nothing takes up as much as any of its kind. -/
theorem head_zero_writes (h : Head) : Writes (head h 0) h.minLen := by
  cases h with
  | fixed width => exact uint_zero_writes width
  | varint => exact varint_zero_writes
  | unbounded => exact ⟨[], rfl, rfl⟩

/-- The lengths of what is written one after another are added up. -/
theorem bind_writes {d e : Encoder Unit} {m n : Nat} (happend : AppendsOnly e) (hd : Writes d m)
    (he : Writes e n) : Writes (d >>= fun _ => e) (m + n) := by
  obtain ⟨p, hp, rfl⟩ := hd
  obtain ⟨t, ht, rfl⟩ := he
  exact ⟨p ++ t, (standalone_bind_ok happend).mpr ⟨p, t, hp, ht, rfl⟩, List.length_append⟩

/-- The same element many times, which is how an array of minimal length is filled. -/
theorem each_replicate_writes {encode : α → Encoder Unit} (happend : ∀ x, AppendsOnly (encode x))
    {x : α} {len : Nat} (hx : Writes (encode x) len) (n : Nat) :
    Writes (each encode (List.replicate n x)) (len * n) := by
  obtain ⟨p, hp, rfl⟩ := hx
  -- Every copy is written as the same bytes.
  have hpieces : ∃ b, Pieces (fun x p => (encode x).standalone = .ok p) (List.replicate n x) b ∧
      b.length = p.length * n := Pieces.exists_replicate hp n
  obtain ⟨b, hb, hlen⟩ := hpieces
  exact ⟨b, (each_ok happend).mpr hb, hlen⟩

/-- A vector without elements is its head. -/
theorem framed_nothing_writes (h : Head) : Writes (framed h (pure ())) h.minLen := by
  obtain ⟨front, hfront, hlen⟩ := head_zero_writes h
  refine ⟨front, ?_, hlen⟩
  exact framed_ok.mpr ⟨front, [], standalone_pure, hfront, (List.append_nil front).symm⟩

/-- A map without entries is its head. -/
theorem entries_nil_writes {type : String} {h : Head} {key : κ → Encoder Unit}
    {value : β → Encoder Unit} : Writes (entries type h key value []) h.minLen := by
  obtain ⟨front, hfront, hlen⟩ := head_zero_writes h
  refine ⟨front, ?_, hlen⟩
  exact entries_ok.mpr ⟨[], [], front, .nil, .nil, .nil, hfront, (List.append_nil front).symm⟩

end Encoder

namespace Schema

open Encoder

/-! ## The value -/

mutual

/-- Whether every record accepts every value. -/
def Unvalidated : {α : Type} → Schema α → Prop
  | _, .uint _ => True
  | _, .array _ elem _ => elem.Unvalidated
  | _, .vector _ elem => elem.Unvalidated
  | _, .map _ _ _ key value => key.Unvalidated ∧ value.Unvalidated
  | _, .box _ content => content.Unvalidated
  | _, .option _ content => content.Unvalidated
  | _, .record _ fields validate _ => (∀ x, validate x = .ok ()) ∧ fields.Unvalidated
  | _, .custom _ => True

/-- Whether every record in the fields accepts every value. -/
def Fields.Unvalidated : {α : Type} → Fields α → Prop
  | _, .nil => True
  | _, .cons _ schema rest => schema.Unvalidated ∧ rest.Unvalidated

end

mutual

/-- A value that takes as few bytes as any, under this directive. -/
def shortest : {α : Type} → Schema α → Directive → α
  | _, .uint t, _ => 0#t.bits
  | _, .array _ elem length, _ =>
    ⟨List.replicate length (elem.shortest .default), List.length_replicate⟩
  | _, .vector _ _, _ => []
  | _, .map _ _ _ _ _, _ => .empty
  | _, .box _ content, d => content.shortest d
  | _, .option _ content, d => if d = .optional then none else some (content.shortest d)
  | _, .record _ fields _ _, _ => fields.shortest
  | _, .custom hook, _ => hook.default

/-- Every field as short as it can be. -/
def Fields.shortest : {α : Type} → Fields α → α
  | _, .nil => ()
  | _, .cons info schema rest => (schema.shortest info.directive, rest.shortest)

end

/-- A present field adds its own least length, an omitted one adds nothing. -/
theorem Fields.encode_cons_shortest {info : FieldInfo} {schema : Schema α} {rest : Fields β}
    {shapes : Shape.Fields} (hresolve : (Fields.cons info schema rest).resolve = .ok shapes)
    (hfield : ∀ shape, schema.resolve info.directive = .ok shape →
      Writes (schema.encode shape (schema.shortest info.directive)) shape.exactLen)
    (hrest : ∀ shapes, rest.resolve = .ok shapes →
      Writes (rest.encode shapes rest.shortest) shapes.exactLen) :
    Writes ((Fields.cons info schema rest).encode shapes (Fields.cons info schema rest).shortest)
      shapes.exactLen := by
  rcases Fields.resolve_cons.mp hresolve with ⟨_, restShapes, hrestShapes, rfl⟩ |
    ⟨_, shape, restShapes, hshape, hrestShapes, rfl⟩
  · rw [Fields.shortest, Fields.encode, Shape.Fields.exactLen]
    exact hrest restShapes hrestShapes
  · rw [Fields.shortest, Fields.encode, Shape.Fields.exactLen]
    exact bind_writes (rest.encode_appendsOnly restShapes rest.shortest) (hfield shape hshape)
      (hrest restShapes hrestShapes)

mutual

/-- Where nothing can be refused, the shortest value is written in the fewest bytes. -/
theorem encode_shortest : {α : Type} → (schema : Schema α) → schema.HookFree → schema.Unvalidated →
    {d : Directive} → {shape : Shape} → schema.resolve d = .ok shape →
    Writes (schema.encode shape (schema.shortest d)) shape.exactLen
  | _, .uint t, _, _, _, _, hresolve => by
    have hzero : (0#t.bits).toNat = 0 := rfl
    rw [shortest, encode, hzero]
    rcases resolve_uint.mp hresolve with ⟨_, rfl⟩ | ⟨_, rfl⟩
    · rw [Shape.exactLen, t.bits_div_eight]
      exact uint_zero_writes t.bytes
    · exact varint_zero_writes
  | _, .array _ elem length, hfree, hall, _, _, hresolve => by
    obtain ⟨_, elemShape, helem, _, rfl⟩ := resolve_array.mp hresolve
    rw [shortest, encode, Shape.exactLen]
    exact each_replicate_writes (elem.encode_appendsOnly elemShape)
      (encode_shortest elem hfree hall helem) length
  | _, .vector _ _, _, _, _, _, hresolve => by
    obtain ⟨head, _, _, _, _, rfl⟩ := resolve_vector.mp hresolve
    rw [shortest, encode, Shape.exactLen]
    exact framed_nothing_writes head
  | _, .map type _ _ key value, _, _, _, _, hresolve => by
    obtain ⟨head, keyShape, valueShape, _, _, _, _, _, rfl⟩ := resolve_map.mp hresolve
    rw [shortest, encode, Shape.exactLen]
    show Writes (entries type head (key.encode keyShape) (value.encode valueShape) []) head.minLen
    exact entries_nil_writes
  | _, .box _ content, hfree, hall, _, _, hresolve => by
    obtain ⟨_, target, hcontent, rfl⟩ := resolve_box.mp hresolve
    rw [shortest, encode, Shape.exactLen]
    exact encode_shortest content hfree hall hcontent
  | _, .option _ content, hfree, hall, _, _, hresolve => by
    rw [shortest, encode]
    -- Under the directive for a flag the value is absent, otherwise its content is as short as it
    -- can be.
    rcases resolve_option.mp hresolve with ⟨hd, target, _, rfl⟩ | ⟨hd, target, hcontent, rfl⟩
    · rw [if_pos hd, Shape.exactLen]
      exact append_writes [0]
    · rw [if_neg hd, Shape.exactLen]
      exact encode_shortest content hfree hall hcontent
  | _, .record _ fields _ _, hfree, hall, _, _, hresolve => by
    obtain ⟨_, shapes, hfields, _, rfl⟩ := resolve_record.mp hresolve
    -- The record is not refused, since it accepts every value.
    obtain ⟨b, hb, hlen⟩ := Fields.encode_shortest fields hfree hall.2 hfields
    rw [shortest, encode, Shape.exactLen]
    exact ⟨b, ofRecord_ok.mpr ⟨hall.1 fields.shortest, hb⟩, hlen⟩
  | _, .custom _, hfree, _, _, _, _ => hfree.elim

theorem Fields.encode_shortest : {α : Type} → (fields : Fields α) → fields.HookFree →
    fields.Unvalidated → {shapes : Shape.Fields} → fields.resolve = .ok shapes →
    Writes (fields.encode shapes fields.shortest) shapes.exactLen
  | _, .nil, _, _, _, hresolve => by
    obtain rfl := Fields.resolve_nil.mp hresolve
    exact ⟨[], rfl, rfl⟩
  | _, .cons _ schema rest, hfree, hall, _, hresolve =>
    Fields.encode_cons_shortest hresolve (fun _ => Schema.encode_shortest schema hfree.1 hall.1)
      (fun _ => Fields.encode_shortest rest hfree.2 hall.2)

end

/-! ## The least length -/

/-- However full the buffer is, at least the exact length of the shape is added to it. -/
theorem size_le_of_encode {schema : Schema α} {d : Directive} {shape : Shape}
    (hresolve : schema.resolve d = .ok shape) {x : α} {dst out : Buffer}
    (hrun : schema.encode shape x dst = .ok () out) : dst.size + shape.exactLen ≤ out.size := by
  rw [schema.encode_appendsOnly shape x dst] at hrun
  cases halone : schema.encode shape x #[] with
  | error e p =>
    rw [halone] at hrun
    cases hrun
  | ok _ p =>
    rw [halone] at hrun
    cases hrun
    have hstandalone : (schema.encode shape x).standalone = .ok p.toList := by
      rw [standalone, EStateM.run, halone]
    have hlen : shape.exactLen ≤ p.toList.length :=
      schema.encode_atLeast hresolve x p.toList hstandalone
    rw [Array.length_toList] at hlen
    rw [Array.size_append]
    omega

/-- No value is written in fewer bytes than the shape says, none is decoded from fewer, and unless
something is refused or the bytes are too many to be counted, one takes exactly so many. -/
theorem minLen_isLeast {schema : Schema α} {d : Directive} {shape : Shape}
    (hresolve : schema.resolve d = .ok shape) :
    (∀ x dst out, schema.encode shape x dst = .ok () out → dst.size + shape.minLen ≤ out.size) ∧
    (∀ ctx c x c', schema.decode ctx shape c = .ok x c' →
      c.consumed + shape.minLen ≤ c'.consumed) ∧
    (schema.HookFree → schema.Unvalidated → shape.exactLen ≤ lengthCap →
      ∃ x b, schema.marshalWith d x = .ok b ∧ b.length = shape.minLen) := by
  -- The least length is counted up to a cap, so it never exceeds the exact one and equals it
  -- below.
  have hcapped : Shape.Capped shape.minLen shape.exactLen := shape.minLen_capped
  refine ⟨?_, ?_, ?_⟩
  · intro x dst out hrun
    have hsize := size_le_of_encode hresolve hrun
    exact Nat.le_trans (Nat.add_le_add_left hcapped.le _) hsize
  · intro ctx c x c' hrun
    have htaken := schema.decode_atLeast hresolve ctx c x c' hrun
    exact Nat.le_trans (Nat.add_le_add_left hcapped.le _) htaken
  · intro hfree hall hcap
    obtain ⟨b, hb, hlen⟩ := schema.encode_shortest hfree hall hresolve
    have hmarshal : schema.marshalWith d (schema.shortest d) = .ok b := by
      rw [marshalWith, hresolve]
      exact hb
    exact ⟨schema.shortest d, b, hmarshal, by rw [hlen, hcapped.eq hcap]⟩

/-- Two numbers, a flag, a head, and nothing for an omitted field. -/
theorem minLen_isLeast_session :
    let schema : Schema (Tuple (BitVec 16) 2 × Option (BitVec 8) × BitVec 8 × List (BitVec 8) ×
        Unit) :=
      .record "Session"
        (.cons ⟨"versions", .default, "[u16; 2]"⟩ (.array "[u16; 2]" (.uint .u16) 2)
          (.cons ⟨"alert", .optional, "Option<u8>"⟩ (.option "Option<u8>" (.uint .u8))
            (.cons ⟨"seen", .omit, "u8"⟩ (.uint .u8)
              (.cons ⟨"id", .head 1, "Vec<u8>"⟩ (.vector "Vec<u8>" (.uint .u8)) .nil))))
        fun _ => .ok ()
    ∃ shape, schema.resolve .default = .ok shape ∧ shape.minLen = 6 ∧
      (∀ x dst out, schema.encode shape x dst = .ok () out → dst.size + 6 ≤ out.size) ∧
      (∀ ctx c x c', schema.decode ctx shape c = .ok x c' → c.consumed + 6 ≤ c'.consumed) ∧
      ∃ x b, schema.marshalWith .default x = .ok b ∧ b.length = 6 := by
  intro schema
  obtain ⟨shape, hresolve⟩ : ∃ shape, schema.resolve .default = .ok shape := ⟨_, rfl⟩
  have hlen : shape.minLen = 6 := by
    cases hresolve
    rfl
  have hcap : shape.exactLen ≤ lengthCap := by
    cases hresolve
    decide
  have hfree : schema.HookFree := ⟨trivial, trivial, trivial, trivial, trivial⟩
  have hall : schema.Unvalidated := ⟨fun _ => rfl, trivial, trivial, trivial, trivial, trivial⟩
  obtain ⟨hencode, hdecode, hleast⟩ := minLen_isLeast hresolve
  rw [hlen] at hencode hdecode hleast
  exact ⟨shape, hresolve, hlen, hencode, hdecode, hleast hfree hall hcap⟩

end Schema

end TlsWire
