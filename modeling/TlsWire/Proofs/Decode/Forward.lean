import TlsWire.Proofs.Decode.Elements

/-!
# Decoders move forwards

However a decoder ends, the cursor has moved over some of the bytes in front of it: it is in the
same scope, neither before where it was nor behind the end (`Decoder.Forward`). This holds along
every shape, also along those that a schema does not resolve to, and whatever the hooks say they
have taken (`Schema.decode_forward`). Errors of decoders all say where in the input they are
(`DecodeError.Located`).
-/

namespace TlsWire

variable {α β κ σ : Type}

/-- The error says where in the input it is. -/
def DecodeError.Located : DecodeError → Prop
  | .invalidDirective _ => False
  | .trailing _ _ => False
  | _ => True

namespace Decoder

/-- The outcome of a run that starts at `c` and moves over bytes. -/
inductive Ends (c : Cursor) : EStateM.Result DecodeError Cursor α → Prop where
  | ok {a : α} {b : Bytes} {c' : Cursor} (h : c.Advances b c') : Ends c (.ok a c')
  | error {e : DecodeError} {b : Bytes} {c' : Cursor} (h : c.Advances b c') (he : e.Located) :
      Ends c (.error e c')

/-- The decoder moves over bytes, wherever it starts and however it ends. -/
def Forward (d : Decoder α) : Prop := ∀ c, Ends c (d c)

/-- A run that starts where another one has got to moves on from there. -/
theorem Ends.trans {c c' : Cursor} {b : Bytes} {r : EStateM.Result DecodeError Cursor α}
    (h : c.Advances b c') (hr : Ends c' r) : Ends c r := by
  cases hr with
  | ok h' => exact .ok (h.trans h')
  | error h' he => exact .error (h.trans h') he

namespace Forward

/-- What a decoder that succeeds has moved over. -/
theorem advances {d : Decoder α} (h : Forward d) {c c' : Cursor} {a : α} (hrun : d c = .ok a c') :
    ∃ b, c.Advances b c' := by
  have hends := h c
  rw [hrun] at hends
  cases hends with
  | ok h => exact ⟨_, h⟩

/-! ## Steps -/

/-- Nothing is moved over, which are bytes as well. -/
theorem pure {a : α} : Forward (pure a) := fun c => .ok c.advances_refl

/-- Nor here, and the error must say where it is. -/
theorem throw {e : DecodeError} (he : e.Located) : Forward (throw e : Decoder α) :=
  fun c => .error c.advances_refl he

theorem pos : Forward pos := fun c => .ok c.advances_refl

theorem cursor : Forward cursor := fun c => .ok c.advances_refl

/-- The cursor stays, whatever the result is. -/
theorem ofExcept {r : Except DecodeError α} (h : ∀ e, r = .error e → e.Located) :
    Forward (ofExcept r) := by
  cases r with
  | ok a => exact .pure
  | error e => exact .throw (h e rfl)

/-- A reader moves over bytes if it succeeds. If it fails then the cursor stays where it was. -/
theorem read {ctx : Context} {reader : Cursor → Except Truncated (α × Cursor)}
    (h : ∀ c a c', reader c = .ok (a, c') → ∃ b, c.Advances b c') : Forward (read ctx reader) := by
  intro c
  unfold Decoder.read
  cases hread : reader c with
  | ok r =>
    obtain ⟨b, hadv⟩ := h c r.1 r.2 hread
    exact .ok hadv
  | error t => exact .error c.advances_refl trivial

/-- Two steps move over what the first one does and then what the second one does. -/
theorem bind {d : Decoder α} {f : α → Decoder β} (hd : Forward d) (hf : ∀ a, Forward (f a)) :
    Forward (d >>= f) := by
  intro c
  show Ends c (EStateM.bind d f c)
  unfold EStateM.bind
  have hfirst := hd c
  generalize d c = r at hfirst
  -- Where the first step fails, the second one does not move anything.
  cases hfirst with
  | ok h => exact (hf _ _).trans h
  | error h he => exact .error h he

theorem map {d : Decoder α} {f : α → β} (hd : Forward d) : Forward (f <$> d) := by
  rw [map_eq_pure_bind]
  exact hd.bind fun _ => .pure

end Forward

/-! ## Reads -/

theorem take_forward {ctx : Context} {n : Nat} : Forward (read ctx (Cursor.take n)) :=
  .read fun _ b _ h => ⟨b, (Cursor.take_ok.mp h).1⟩

theorem readByte_forward {ctx : Context} : Forward (read ctx Cursor.readByte) :=
  .read fun _ x _ h => ⟨[x], Cursor.readByte_ok.mp h⟩

/-- What is split off is moved over. -/
theorem split_forward {ctx : Context} {n : Nat} : Forward (read ctx (Cursor.split n)) := by
  refine .read fun _ _ _ h => ?_
  obtain ⟨b, hadv, _⟩ := Cursor.split_ok.mp h
  exact ⟨b, hadv⟩

theorem uint_forward {ctx : Context} {width : Nat} : Forward (read ctx (Uint.decode width)) :=
  .read fun _ n _ h => ⟨bigEndian width n, (Uint.decode_ok.mp h).2⟩

theorem varint_forward {ctx : Context} : Forward (read ctx Varint.decode) := by
  refine .read fun _ _ _ h => ?_
  obtain ⟨b, _, hadv⟩ := Varint.decode_ok.mp h
  exact ⟨b, hadv⟩

end Decoder

/-! ## Sequences -/

namespace Sequence

open Decoder

variable {ctx : Context} {elem : Context → Decoder α} {seq seq' : Sequence} {e : DecodeError}

/-- A head moves over itself and the content, wherever the length is stated. -/
theorem ofHead_forward (ctx : Context) (head : Head) : Forward (ofHead ctx head) := by
  cases head with
  | fixed width => exact .bind uint_forward fun _ => .bind split_forward fun _ => .pure
  | varint => exact .bind varint_forward fun _ => .bind split_forward fun _ => .pure
  | unbounded => exact .bind .cursor fun _ => .bind split_forward fun _ => .pure

/-- Blaming an element keeps the place. -/
theorem blame_located {bounded : Bool} {element : Context} (he : e.Located) :
    (blame bounded element e).Located := by
  unfold blame
  split
  · split
    · trivial
    · trivial
  · exact he

/-- Whatever is wrong with an element is located, since elements move forwards. -/
theorem next_located (helem : ∀ ctx, Forward (elem ctx)) (h : next ctx elem seq = .error e seq') :
    e.Located := by
  rcases next_error h with rfl | ⟨e', scope, hrun, rfl⟩ | rfl
  · trivial
  · have hends := helem (ctx.push Step.elementName seq.scope.pos) seq.scope
    rw [hrun] at hends
    cases hends with
    | error _ he => exact blame_located he
  · trivial

/-- So is whatever a fold fails with, if adding up fails with nothing else. -/
theorem fold_located {add : σ → α → Except DecodeError σ} {acc : σ} {seq : Sequence}
    (helem : ∀ ctx, Forward (elem ctx)) (hadd : ∀ acc a e, add acc a = .error e → e.Located)
    (h : fold ctx elem add acc seq = .error e) : e.Located := by
  obtain ⟨as, seq', _, ⟨seq'', hnext⟩ | ⟨acc', a, hstep⟩⟩ := fold_error h
  · exact next_located helem hnext
  · exact hadd acc' a e hstep

end Sequence

/-! ## Kinds of types -/

namespace Decoder.Forward

variable {type : String} {ctx : Context} {shape : Shape}

/-- Numbers, also those that turn out to be too wide. -/
theorem ofUint {t : UintType} : Forward (ofUint t ctx shape) := by
  have hnarrow : ∀ reader : Cursor → Except Truncated (Nat × Cursor),
      Forward (Decoder.read ctx reader) → Forward (ofUint.narrow t ctx reader) := by
    intro reader hreader
    refine .bind hreader fun n => ?_
    show Forward (if n < byteRange t.bytes then _ else _)
    split
    · exact .pure
    · exact .throw trivial
  cases shape with
  | integer bits => exact hnarrow _ uint_forward
  | varint bits => exact hnarrow _ varint_forward
  | _ => exact .throw trivial

/-- Elements one behind the other. -/
theorem items {elem : Context → Decoder α} (h : ∀ ctx, Forward (elem ctx)) :
    (length : Nat) → Forward (items elem ctx length)
  | 0 => .pure
  | length + 1 =>
    .bind .pos fun p => .bind (h (ctx.push Step.elementName p)) fun _ =>
      .bind (items h length) fun _ => .pure

/-- Along a shape of another length nothing moves. -/
theorem ofArray {elem : Context → Shape → Decoder α} {length : Nat}
    (h : ∀ ctx shape, Forward (elem ctx shape)) :
    Forward (ofArray type elem length ctx shape) := by
  cases shape with
  | array elemShape shapeLength =>
    unfold Decoder.ofArray
    simp only
    split
    · exact items (fun ctx => h ctx elemShape) length
    · exact .throw trivial
  | _ => exact .throw trivial

/-- The content is moved over when it is split off, and the elements are decoded inside of it. -/
theorem ofVector {elem : Context → Shape → Decoder α} (h : ∀ ctx shape, Forward (elem ctx shape)) :
    Forward (ofVector type elem ctx shape) := by
  cases shape with
  | vector elemShape head =>
    refine .bind (Sequence.ofHead_forward ctx head) fun seq => .bind (.ofExcept ?_) fun _ => .pure
    intro e he
    refine Sequence.fold_located (fun ctx => h ctx elemShape) (fun _ _ _ hadd => ?_) he
    cases hadd
  | _ => exact .throw trivial

/-- A key and then a value. -/
theorem entry {key : Context → Decoder κ} {value : Context → Decoder β}
    (hkey : ∀ ctx, Forward (key ctx)) (hvalue : ∀ ctx, Forward (value ctx)) (ctx : Context) :
    Forward (entry key value ctx) :=
  .bind (hkey ctx) fun _ => .bind (hvalue ctx) fun _ => .pure

/-- As for vectors. A repeated key is told of the map, whose place is known. -/
theorem ofMap {order : KeyOrder κ} {gatherer : Gatherer order β}
    {key : Context → Shape → Decoder κ} {value : Context → Shape → Decoder β}
    (hkey : ∀ ctx shape, Forward (key ctx shape))
    (hvalue : ∀ ctx shape, Forward (value ctx shape)) :
    Forward (ofMap type gatherer key value ctx shape) := by
  cases shape with
  | map keyShape valueShape head =>
    refine .bind (Sequence.ofHead_forward ctx head) fun seq => .bind (.ofExcept ?_) fun _ => .pure
    intro e he
    refine Sequence.fold_located
      (entry (fun ctx => hkey ctx keyShape) fun ctx => hvalue ctx valueShape)
      (fun acc _ _ hadd => ?_) he
    split at hadd
    · cases hadd
    · cases hadd
      trivial
  | _ => exact .throw trivial

/-- A pointer moves as its target does. -/
theorem ofBox {content : Context → Shape → Decoder α}
    (h : ∀ ctx shape, Forward (content ctx shape)) : Forward (ofBox type content ctx shape) := by
  cases shape with
  | pointer target => exact h ctx target
  | _ => exact .throw trivial

/-- The flag is moved over, and then the value if there is one. -/
theorem ofOption {content : Context → Shape → Decoder α}
    (h : ∀ ctx shape, Forward (content ctx shape)) :
    Forward (ofOption type content ctx shape) := by
  cases shape with
  | pointer target => exact .map (h ctx target)
  | optional target =>
    refine .bind readByte_forward fun flag => ?_
    split
    · exact .pure
    · split
      · exact .map (h ctx target)
      · exact .throw trivial
  | _ => exact .throw trivial

/-- A record moves as its fields do. -/
theorem ofRecord {fields : Context → Shape.Fields → Decoder α}
    (h : ∀ ctx shapes, Forward (fields ctx shapes)) :
    Forward (ofRecord type fields ctx shape) := by
  cases shape with
  | record shapes => exact h ctx shapes
  | _ => exact .throw trivial

/-- A hook may say what it likes: more than there is is refused before the cursor moves. -/
theorem ofHook {hook : Hook α} : Forward (ofHook hook ctx shape) := by
  cases shape with
  | custom =>
    refine .bind .cursor fun c => ?_
    -- The hook has failed, or has claimed too much, or can be given what it claims.
    split
    · exact .throw trivial
    · split
      · exact .throw trivial
      · exact .bind take_forward fun _ => .pure
  | _ => exact .throw trivial

end Decoder.Forward

/-! ## Schemas -/

namespace Schema

open Decoder

/-- The first field, if the shape has one for it, and then the others. -/
theorem Fields.decode_cons_forward {info : FieldInfo} {schema : Schema α} {rest : Fields β}
    {ctx : Context} {shapes : Shape.Fields}
    (hfield : ∀ ctx shape, Forward (schema.decode ctx shape))
    (hrest : ∀ ctx shapes, Forward (rest.decode ctx shapes)) :
    Forward ((Fields.cons info schema rest).decode ctx shapes) := by
  cases shapes with
  | nil =>
    rw [Fields.decode]
    exact .throw trivial
  | present name directive shape shapes =>
    rw [Fields.decode]
    exact .bind .pos fun _ => .bind (hfield _ shape) fun _ =>
      .bind (hrest ctx shapes) fun _ => .pure
  | absent name directive shapes =>
    rw [Fields.decode]
    exact .bind (hrest ctx shapes) fun _ => .pure

mutual

/-- Whatever the shape, decoding moves forwards. -/
theorem decode_forward : {α : Type} → (schema : Schema α) → (ctx : Context) → (shape : Shape) →
    Forward (schema.decode ctx shape)
  | _, .uint _, _, _ => by
    rw [decode]
    exact .ofUint
  | _, .array _ elem _, _, _ => by
    rw [decode]
    exact .ofArray (decode_forward elem)
  | _, .vector _ elem, _, _ => by
    rw [decode]
    exact .ofVector (decode_forward elem)
  | _, .map _ _ _ key value, _, _ => by
    rw [decode]
    exact .ofMap (decode_forward key) (decode_forward value)
  | _, .box _ content, _, _ => by
    rw [decode]
    exact .ofBox (decode_forward content)
  | _, .option _ content, _, _ => by
    rw [decode]
    exact .ofOption (decode_forward content)
  | _, .record _ fields _ _, _, _ => by
    rw [decode]
    exact .ofRecord (Fields.decode_forward fields)
  | _, .custom _, _, _ => by
    rw [decode]
    exact .ofHook

/-- By induction on the fields. -/
theorem Fields.decode_forward : {α : Type} → (fields : Fields α) → (ctx : Context) →
    (shapes : Shape.Fields) → Forward (fields.decode ctx shapes)
  | _, .nil, _, _ => by
    rw [Fields.decode]
    exact .pure
  | _, .cons _ schema rest, _, _ =>
    Fields.decode_cons_forward (Schema.decode_forward schema) (Fields.decode_forward rest)

end

end Schema

end TlsWire
