import TlsWire.Proofs.Run

/-!
# What resolution yields

For every kind of type, under which directives it resolves and what its shape is then. Elements,
keys and values resolve under the default directive and are not greedy; of the present fields of a
record only the last one may be (`Fields.resolve_cons`, `Shape.checkGreedy_present`).
-/

namespace TlsWire

namespace Schema

variable {α β κ : Type} {d : Directive} {shape : Shape}

/-- Such types take no directive. -/
theorem expectDefault_ok {type : String} {u : Unit} :
    expectDefault type d = .ok u ↔ d = .default := by
  cases d <;> simp [expectDefault]

/-- Where a type asks for a part with an end of its own, a greedy one is refused. -/
theorem expectBounded_ok {type : String} {u : Unit} :
    expectBounded type shape = .ok u ↔ shape.isGreedy = false := by
  unfold expectBounded
  cases shape.isGreedy <;> simp

/-- Types with a head take the directives that give one, and no others. -/
theorem framing_ok {type : String} {head : Head} :
    framing type d = .ok head ↔ d.head? = some head := by
  unfold framing
  cases d.head? with
  | none => by_cases h : d = .default <;> simp [h]
  | some h => simp

/-- A number is of fixed width, or a varint where this is asked for. -/
theorem resolve_uint {t : UintType} :
    (Schema.uint t).resolve d = .ok shape ↔
      d = .default ∧ shape = .integer t.bits ∨ d = .varint ∧ shape = .varint t.bits := by
  cases d <;> simp [resolve, eq_comm]

/-- Elements of an array must have an end of their own, since their number is all that is known. -/
theorem resolve_array {type : String} {elem : Schema α} {length : Nat} :
    (Schema.array type elem length).resolve d = .ok shape ↔
      d = .default ∧ ∃ elemShape, elem.resolve .default = .ok elemShape ∧
        elemShape.isGreedy = false ∧ shape = .array elemShape length := by
  rw [resolve]
  simp only [Except.bind_ok, Except.pure_ok, expectDefault_ok, expectBounded_ok]
  constructor
  · rintro ⟨_, rfl, elemShape, helem, _, hbounded, rfl⟩
    exact ⟨rfl, elemShape, helem, hbounded, rfl⟩
  · rintro ⟨rfl, elemShape, helem, hbounded, rfl⟩
    exact ⟨(), rfl, elemShape, helem, (), hbounded, rfl⟩

/-- A vector takes its head from its directive. Its elements must have an end of their own. -/
theorem resolve_vector {type : String} {elem : Schema α} :
    (Schema.vector type elem).resolve d = .ok shape ↔
      ∃ head elemShape, d.head? = some head ∧ elem.resolve .default = .ok elemShape ∧
        elemShape.isGreedy = false ∧ shape = .vector elemShape head := by
  rw [resolve]
  simp only [Except.bind_ok, Except.pure_ok, framing_ok, expectBounded_ok]
  constructor
  · rintro ⟨head, hhead, elemShape, helem, _, hbounded, rfl⟩
    exact ⟨head, elemShape, hhead, helem, hbounded, rfl⟩
  · rintro ⟨head, elemShape, hhead, helem, hbounded, rfl⟩
    exact ⟨head, hhead, elemShape, helem, (), hbounded, rfl⟩

/-- A map takes its head from its directive. Its keys and values must have an end of their own. -/
theorem resolve_map {type : String} {kind : MapKind} {order : KeyOrder κ} {key : Schema κ}
    {value : Schema β} :
    (Schema.map type kind order key value).resolve d = .ok shape ↔
      ∃ head keyShape valueShape, d.head? = some head ∧
        key.resolve .default = .ok keyShape ∧ keyShape.isGreedy = false ∧
        value.resolve .default = .ok valueShape ∧ valueShape.isGreedy = false ∧
        shape = .map keyShape valueShape head := by
  rw [resolve]
  simp only [Except.bind_ok, Except.pure_ok, framing_ok, expectBounded_ok]
  constructor
  · rintro ⟨head, hhead, keyShape, hkey, _, hkeyBounded, valueShape, hvalue, _, hvalueBounded, rfl⟩
    exact ⟨head, keyShape, valueShape, hhead, hkey, hkeyBounded, hvalue, hvalueBounded, rfl⟩
  · rintro ⟨head, keyShape, valueShape, hhead, hkey, hkeyBounded, hvalue, hvalueBounded, rfl⟩
    exact ⟨head, hhead, keyShape, hkey, (), hkeyBounded, valueShape, hvalue, (), hvalueBounded,
      rfl⟩

/-- An indirection hands its directive on, but has no place for a flag. -/
theorem resolve_box {type : String} {content : Schema α} :
    (Schema.box type content).resolve d = .ok shape ↔
      d ≠ .optional ∧ ∃ target, content.resolve d = .ok target ∧ shape = .pointer target := by
  rw [resolve]
  split
  case isTrue h => simp [h]
  case isFalse h => simp [h, Except.map_ok]

/-- An option spends the directive for a flag on itself and hands on every other one. -/
theorem resolve_option {type : String} {content : Schema α} :
    (Schema.option type content).resolve d = .ok shape ↔
      (d = .optional ∧ ∃ target, content.resolve .default = .ok target ∧
        shape = .optional target) ∨
      (d ≠ .optional ∧ ∃ target, content.resolve d = .ok target ∧ shape = .pointer target) := by
  rw [resolve]
  split
  case isTrue h => simp [h, Except.map_ok]
  case isFalse h => simp [h, Except.map_ok]

/-- A record takes no directive, and its fields are checked for a greedy one that is not the last.
-/
theorem resolve_record {type : String} {fields : Fields α} {validate : α → Except String Unit}
    {placeholder : Option α} :
    (Schema.record type fields validate placeholder).resolve d = .ok shape ↔
      d = .default ∧ ∃ shapes, fields.resolve = .ok shapes ∧ shapes.checkGreedy type = .ok () ∧
        shape = .record shapes := by
  rw [resolve]
  simp only [Except.bind_ok, expectDefault_ok, Shape.ofFields_eq_ok]
  constructor
  · rintro ⟨_, rfl, shapes, hfields, hcheck, rfl⟩
    exact ⟨rfl, shapes, hfields, hcheck, rfl⟩
  · rintro ⟨rfl, shapes, hfields, hcheck, rfl⟩
    exact ⟨(), rfl, shapes, hfields, hcheck, rfl⟩

/-- A hook takes no directive, and its shape has no parts. -/
theorem resolve_custom {hook : Hook α} :
    (Schema.custom hook).resolve d = .ok shape ↔ d = .default ∧ shape = .custom := by
  rw [resolve]
  simp [Except.map_ok, expectDefault_ok]

theorem Fields.resolve_nil {shapes : Shape.Fields} :
    Fields.nil.resolve = .ok shapes ↔ shapes = .nil := by
  rw [Fields.resolve, Except.ok.injEq, eq_comm]

/-- A field is resolved under its own directive, or not at all if it is omitted. -/
theorem Fields.resolve_cons {info : FieldInfo} {schema : Schema α} {rest : Fields β}
    {shapes : Shape.Fields} :
    (Fields.cons info schema rest).resolve = .ok shapes ↔
      (info.directive = .omit ∧ ∃ restShapes, rest.resolve = .ok restShapes ∧
        shapes = .absent info.name info.directive restShapes) ∨
      (info.directive ≠ .omit ∧ ∃ shape restShapes, schema.resolve info.directive = .ok shape ∧
        rest.resolve = .ok restShapes ∧
        shapes = .present info.name info.directive shape restShapes) := by
  rw [Fields.resolve]
  -- A field that is omitted need not have a shape at all.
  split
  case isTrue h => simp [h, Except.map_ok]
  case isFalse h =>
    simp [h, Except.bind_ok, Except.map_ok, Except.mapError_ok]

/-- What is known of the shapes when the first field is written. -/
theorem Fields.resolve_cons_present {info : FieldInfo} {schema : Schema α} {rest : Fields β}
    {shapes : Shape.Fields} (hon : info.directive ≠ .omit)
    (h : (Fields.cons info schema rest).resolve = .ok shapes) :
    ∃ shape restShapes, schema.resolve info.directive = .ok shape ∧
      rest.resolve = .ok restShapes ∧
      shapes = .present info.name info.directive shape restShapes := by
  rcases Fields.resolve_cons.mp h with ⟨hoff, _⟩ | ⟨_, hpresent⟩
  · exact absurd hoff hon
  · exact hpresent

/-- What is known of the shapes when the first field is left out. -/
theorem Fields.resolve_cons_omitted {info : FieldInfo} {schema : Schema α} {rest : Fields β}
    {shapes : Shape.Fields} (hoff : info.directive = .omit)
    (h : (Fields.cons info schema rest).resolve = .ok shapes) :
    ∃ restShapes, rest.resolve = .ok restShapes ∧
      shapes = .absent info.name info.directive restShapes := by
  rcases Fields.resolve_cons.mp h with ⟨_, habsent⟩ | ⟨hon, _⟩
  · exact habsent
  · exact absurd hoff hon

end Schema

namespace Shape

variable {type name : String} {directive : Directive} {shape : Shape} {rest : Fields}

/-- Nothing may follow a greedy field. -/
theorem checkGreedy_present :
    (Fields.present name directive shape rest).checkGreedy type = .ok () ↔
      (rest.anyPresent = true → shape.isGreedy = false) ∧ rest.checkGreedy type = .ok () := by
  rw [Fields.checkGreedy]
  cases shape.isGreedy <;> cases rest.anyPresent <;> simp

/-- A field that is left out is not followed by anything, wherever it stands. -/
theorem checkGreedy_absent :
    (Fields.absent name directive rest).checkGreedy type = rest.checkGreedy type := by
  rw [Fields.checkGreedy]

/-- The last present field decides whether a record is greedy. -/
theorem isGreedy_present :
    (Fields.present name directive shape rest).isGreedy =
      if rest.anyPresent then rest.isGreedy else shape.isGreedy := by
  rw [Fields.isGreedy]

theorem isGreedy_absent : (Fields.absent name directive rest).isGreedy = rest.isGreedy := by
  rw [Fields.isGreedy]

/-- Without a present field there is nothing greedy. -/
theorem isGreedy_of_anyPresent_false (h : rest.anyPresent = false) : rest.isGreedy = false := by
  -- Shapes and their fields are nested in each other, and nothing is claimed of shapes here.
  induction rest using Fields.rec (motive_1 := fun _ => True) with
  | nil => rfl
  | present name directive shape rest => cases h
  | absent name directive rest ih =>
    rw [Fields.isGreedy]
    exact ih h
  | _ => trivial

end Shape

end TlsWire
