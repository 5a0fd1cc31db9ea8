import TlsWire.Proofs.Decode.Isolation
import TlsWire.Proofs.Encode.Forms
import TlsWire.Proofs.EntryPoints
import TlsWire.Proofs.Schema.Unambiguous

/-!
# Along which shapes a decoder follows its encoder

Callers can encode and decode along shapes of their own, which need not be what the type resolves
to. Both sides then check on their way that the shape fits. Where the encoder finds that it does, so
does the decoder, with one exception: only the decoder looks at the length that the shape of an
array says (`Schema.decode_follows_encode`, `Schema.encode_ignores_length`).

The decoder need not succeed on what has been written. It may meet its limit, or an element that
takes no bytes (`DecodeError.Admitted`). So `Decoder.ReadsOver` says that a decoder reads exactly
the bytes in front of it, or fails with such an error. What is built from decoders like this is
again of this kind, and the bytes in front of each of them are the ones that its encoder has
written.
-/

namespace TlsWire

variable {α β κ σ : Type} {differ differ' : Prop}

/-- What a decoder may still find wrong with what has been written along the same shape. -/
inductive DecodeError.Admitted (differ : Prop) : DecodeError → Prop where
  /-- Encoders have no limit. -/
  | collectionTooLarge {loc : Location} : Admitted differ (.collectionTooLarge loc)
  /-- Encoders write elements that take no bytes. -/
  | emptyElement {loc : Location} : Admitted differ (.malformed loc .emptyElement)
  /-- Encoders tell keys apart by their bytes, decoders by what they have decoded. -/
  | duplicateKey {loc : Location} : Admitted differ (.malformed loc .duplicateKey)
  /-- Encoders do not look at the length that the shape of an array says. -/
  | otherLength {loc : Location} {type : String} (h : differ) :
      Admitted differ (.shapeMismatch loc type .array)

namespace DecodeError.Admitted

variable {e : DecodeError}

/-- The lengths in question may differ for a larger part of the value. -/
theorem imp (h : e.Admitted differ) (himp : differ → differ') : e.Admitted differ' := by
  cases h with
  | collectionTooLarge => exact .collectionTooLarge
  | emptyElement => exact .emptyElement
  | duplicateKey => exact .duplicateKey
  | otherLength h => exact .otherLength (himp h)

/-- Only an end of the input is told in another way, and there is none. -/
theorem blame {bounded : Bool} {element : Context} (h : e.Admitted differ) :
    (Sequence.blame bounded element e).Admitted differ := by
  cases h with
  | collectionTooLarge => exact .collectionTooLarge
  | emptyElement => exact .emptyElement
  | duplicateKey => exact .duplicateKey
  | otherLength h => exact .otherLength h

/-- Of these only the length of an array is about the shape. -/
theorem of_misfit (h : e.Admitted differ) (hmisfit : e.Misfit) : differ := by
  cases h with
  | collectionTooLarge => exact hmisfit.elim
  | emptyElement => exact hmisfit.elim
  | duplicateKey => exact hmisfit.elim
  | otherLength h => exact h

end DecodeError.Admitted

namespace Decoder

/-- With the bytes in front of it the decoder reads all of them and no others, or fails with an
error that is admitted. -/
def ReadsOver (differ : Prop) (d : Decoder α) (b : Bytes) : Prop :=
  ∀ c c', c.Advances b c' →
    (∃ x, d c = .ok x c') ∨ ∃ e c₁, d c = .error e c₁ ∧ e.Admitted differ

namespace ReadsOver

variable {d : Decoder α} {f : α → Decoder β} {b p t : Bytes}

theorem imp (h : ReadsOver differ d b) (himp : differ → differ') : ReadsOver differ' d b := by
  intro c c' hadv
  rcases h c c' hadv with hok | ⟨e, c₁, herror, hadmitted⟩
  · exact .inl hok
  · exact .inr ⟨e, c₁, herror, hadmitted.imp himp⟩

theorem pure {a : α} : ReadsOver differ (pure a) [] := by
  intro c c' hadv
  obtain rfl := hadv.eq_of_nil
  exact .inl ⟨a, rfl⟩

/-- An admitted error may be met anywhere, also before any byte is read. -/
theorem throw {e : DecodeError} (he : e.Admitted differ) :
    ReadsOver differ (throw e : Decoder α) b :=
  fun c _ _ => .inr ⟨e, c, rfl, he⟩

/-- The bytes are cut where the first decoder stops, and the second one has the others in front of
it. -/
theorem bind (hd : ReadsOver differ d p) (hf : ∀ a, ReadsOver differ (f a) t) :
    ReadsOver differ (d >>= f) (p ++ t) := by
  intro c c' hadv
  obtain ⟨c₁, hp, ht⟩ := hadv.split
  -- If the first decoder fails, it does so with an admitted error, and that is the end.
  rcases hd c c₁ hp with ⟨a, ha⟩ | ⟨e, c₂, he, hadmitted⟩
  · rw [bind_of_ok ha]
    exact hf a c₁ c' ht
  · exact .inr ⟨e, c₂, bind_of_error he, hadmitted⟩

/-- Computing something from the value reads nothing more. -/
theorem bind_pure {f : α → β} (hd : ReadsOver differ d b) :
    ReadsOver differ (d >>= fun a => Pure.pure (f a)) b := by
  have hrun : ReadsOver differ (d >>= fun a => Pure.pure (f a)) (b ++ []) := hd.bind fun _ => .pure
  rwa [List.append_nil] at hrun

theorem map {f : α → β} (hd : ReadsOver differ d b) : ReadsOver differ (f <$> d) b := by
  rw [map_eq_pure_bind]
  exact hd.bind_pure

/-- What comes first is known to succeed, and with what. -/
theorem after {a : α} (hd : ∀ c c', c.Advances p c' → d c = .ok a c')
    (hf : ReadsOver differ (f a) t) : ReadsOver differ (d >>= f) (p ++ t) := by
  intro c c' hadv
  obtain ⟨c₁, hp, ht⟩ := hadv.split
  rw [bind_of_ok (hd c c₁ hp)]
  exact hf c₁ c' ht

/-- The position is asked for without reading anything. -/
theorem at_pos {f : Nat → Decoder β} (hf : ∀ n, ReadsOver differ (f n) b) :
    ReadsOver differ (pos >>= f) b := by
  intro c c' hadv
  have hpos : pos c = .ok c.pos c := rfl
  rw [bind_of_ok hpos]
  exact hf c.pos c c' hadv

end ReadsOver

/-! ## Elements -/

variable {form : α → Bytes → Prop} {xs : List α} {b : Bytes} {ctx : Context}

/-- An array has as many elements as the value it has been written from, each with a form of its
own. -/
theorem items_readsOver {elem : Context → Decoder β} (h : Pieces form xs b)
    (helem : ∀ x p, form x p → ∀ ctx, ReadsOver differ (elem ctx) p) :
    ReadsOver differ (items elem ctx xs.length) b := by
  induction h with
  | nil => exact .pure
  | @cons x xs p b hx _ ih =>
    rw [List.length_cons, items]
    exact .at_pos fun n => (helem x p hx _).bind fun y => ih.bind_pure

/-- What is wrong with an element that has been written, or with one element more, is admitted. -/
theorem next_admitted {elem : Context → Decoder β} {seq seq' : Sequence} {p t : Bytes}
    {e : DecodeError} (helem : ∀ ctx, ReadsOver differ (elem ctx) p)
    (hrest : seq.scope.rest = p ++ t) (h : Sequence.next ctx elem seq = .error e seq') :
    e.Admitted differ := by
  rcases Sequence.next_error h with rfl | ⟨e', scope, hrun, rfl⟩ | rfl
  -- The limit has been reached, the element itself fails, or it has taken no byte.
  · exact .collectionTooLarge
  · obtain ⟨c₁, hadv, _⟩ := Cursor.exists_advances hrest
    rcases helem (ctx.push Step.elementName seq.scope.pos) seq.scope c₁ hadv with
      ⟨y, hy⟩ | ⟨e'', c₂, he, hadmitted⟩
    · rw [hrun] at hy
      cases hy
    · rw [hrun] at he
      cases he
      exact hadmitted.blame
  · exact .emptyElement

/-- The elements are found where they have been written, one after another. -/
theorem fold_of_pieces {elem : Context → Decoder β} {add : σ → β → Except DecodeError σ}
    (h : Pieces form xs b) (helem : ∀ x p, form x p → ∀ ctx, ReadsOver differ (elem ctx) p)
    (hadd : ∀ acc y e, add acc y = .error e → e.Admitted differ) (acc : σ) (seq : Sequence)
    (hrest : seq.scope.rest = b) :
    (∃ r, seq.fold ctx elem add acc = .ok r) ∨
      ∃ e, seq.fold ctx elem add acc = .error e ∧ e.Admitted differ := by
  -- The elements that have been written give the structure. Their forms follow each other in the
  -- scope.
  induction h generalizing acc seq with
  | nil =>
    rw [Sequence.fold_eq, Sequence.next_none.mpr ⟨hrest, rfl⟩]
    exact .inl ⟨acc, rfl⟩
  | @cons x xs p b hx _ ih =>
    rw [Sequence.fold_eq]
    cases hnext : Sequence.next ctx elem seq with
    | error e seq' => exact .inr ⟨e, rfl, next_admitted (helem x p hx) hrest hnext⟩
    | ok found seq' =>
      cases found with
      -- Where the form is empty, nothing may be left, and the decoder stops early. That is a
      -- success too.
      | none => exact .inl ⟨acc, rfl⟩
      | some y =>
        obtain ⟨_, _, scope, hrun, _, rfl⟩ := Sequence.next_some.mp hnext
        obtain ⟨c₁, hadv, hrest'⟩ := Cursor.exists_advances hrest
        -- The element has succeeded, so it has read its own bytes.
        have hscope : scope.rest = b := by
          rcases helem x p hx _ seq.scope c₁ hadv with ⟨z, hz⟩ | ⟨e, c₂, he, _⟩
          · rw [hrun] at hz
            cases hz
            exact hrest'
          · rw [hrun] at he
            cases he
        simp only
        cases hsum : add acc y with
        | error e => exact .inr ⟨e, rfl, hadd acc y e hsum⟩
        | ok acc' => exact ih acc' { seq with scope, count := seq.count + 1 } hscope

/-- Behind its head the content stands alone in a scope, so nothing that follows can be mistaken
for an element. Without a head this would fail, which is why that is excluded. -/
theorem sequence_readsOver {elem : Context → Decoder β} {add : σ → β → Except DecodeError σ}
    {start : σ} {finish : σ → κ} {head : Head} {front : Bytes} (hhead : head ≠ .unbounded)
    (hfront : head.Form b.length front) (h : Pieces form xs b)
    (helem : ∀ x p, form x p → ∀ ctx, ReadsOver differ (elem ctx) p)
    (hadd : ∀ acc y e, add acc y = .error e → e.Admitted differ) :
    ReadsOver differ (do
      let seq ← Sequence.ofHead ctx head
      let r ← ofExcept (seq.fold ctx elem add start)
      return finish r) (front ++ b) := by
  intro c c' hadv
  rw [ofHead_bind hhead hfront hadv]
  rcases fold_of_pieces h helem hadd start (.declared (c.pos + front.length) b) rfl with
    ⟨r, hr⟩ | ⟨e, he, hadmitted⟩
  · rw [hr]
    exact .inl ⟨finish r, rfl⟩
  · rw [he]
    exact .inr ⟨e, c', rfl, hadmitted⟩

/-! ## Kinds of types -/

/-- Whatever is written, the decoder reads over it. -/
def ReadsBack (differ : Prop) (encode : α → Encoder Unit) (decode : Context → Decoder β) : Prop :=
  ∀ x b, (encode x).standalone = .ok b → ∀ ctx, ReadsOver differ (decode ctx) b

section Kinds

open Encoder (AppendsOnly)

variable {type : String} {h : Head} {shape keyShape valueShape target : Shape}

/-- The lengths in question may differ for a larger part of the value. -/
theorem ReadsBack.imp {encode : α → Encoder Unit} {decode : Context → Decoder β}
    (hback : ReadsBack differ encode decode) (himp : differ → differ') :
    ReadsBack differ' encode decode :=
  fun x b hb ctx => (hback x b hb ctx).imp himp

/-- A number is read over whatever its form, also where the shape has another number of bits. -/
theorem ofUint_readsBack {t : UintType} :
    ReadsBack differ (fun n : BitVec t.bits => Encoder.ofUint t shape n.toNat)
      (fun ctx => ofUint t ctx shape) := by
  intro n b hb ctx c c' hadv
  exact .inl ⟨n, ofUint_ok.mpr ⟨b, Encoder.ofUint_forms hb, hadv⟩⟩

/-- Only here the length that the shape says is asked for. -/
theorem ofArray_readsBack {encode : Shape → α → Encoder Unit}
    {decode : Context → Shape → Decoder β} {length shapeLength : Nat}
    (hlength : shapeLength ≠ length → differ)
    (helem : ReadsBack differ (encode shape) fun ctx => decode ctx shape)
    (happend : ∀ x, AppendsOnly (encode shape x)) :
    ReadsBack differ
      (fun items : Tuple α length =>
        Encoder.ofArray type encode (.array shape shapeLength) items.val)
      (fun ctx => ofArray type decode length ctx (.array shape shapeLength)) := by
  intro items b hb ctx
  -- The encoder has written all items of the value, whatever length the shape has.
  have hpieces := (Encoder.each_ok happend).mp hb
  show ReadsOver differ (ofArray type decode length ctx (.array shape shapeLength)) b
  rw [ofArray]
  split
  case isTrue =>
    have hitems : ReadsOver differ (Decoder.items (fun ctx => decode ctx shape) ctx
        items.val.length) b := items_readsOver hpieces helem
    rwa [items.property] at hitems
  case isFalse hne => exact .throw (.otherLength (hlength hne))

/-- A vector is a head and its elements, each of which is read over. -/
theorem ofVector_readsBack {encode : Shape → α → Encoder Unit}
    {decode : Context → Shape → Decoder β} (hhead : h ≠ .unbounded)
    (helem : ReadsBack differ (encode shape) fun ctx => decode ctx shape)
    (happend : ∀ x, AppendsOnly (encode shape x)) :
    ReadsBack differ (Encoder.ofVector type encode (.vector shape h))
      (fun ctx => ofVector type decode ctx (.vector shape h)) := by
  intro items b hb ctx
  obtain ⟨front, body, hbody, hfront, rfl⟩ := Encoder.framed_ok.mp hb
  show ReadsOver differ (ofVector type decode ctx (.vector shape h)) (front ++ body)
  rw [ofVector]
  refine sequence_readsOver hhead (Encoder.head_ok hfront) ((Encoder.each_ok happend).mp hbody)
    helem ?_
  -- A list can always be extended.
  intro acc y e hadd
  cases hadd

/-- The form of an entry is that of its key and then that of its value. -/
theorem entry_readsOver {key : Context → Decoder κ} {value : Context → Decoder β} {a v : Bytes}
    (hkey : ReadsOver differ (key ctx) a) (hvalue : ReadsOver differ (value ctx) v) :
    ReadsOver differ (entry key value ctx) (a ++ v) :=
  hkey.bind fun _ => hvalue.bind_pure

/-- A map has been written in the order of the forms of its keys, and this is the order in which
its entries are found. A key may turn out to be known where forms are not read back as they were.
-/
theorem ofMap_readsBack {order : KeyOrder κ} {kind : MapKind} {encodeKey : Shape → κ → Encoder Unit}
    {encodeValue : Shape → β → Encoder Unit} {decodeKey : Context → Shape → Decoder κ}
    {decodeValue : Context → Shape → Decoder β} (hhead : h ≠ .unbounded)
    (hkey : ReadsBack differ (encodeKey keyShape) fun ctx => decodeKey ctx keyShape)
    (hvalue : ReadsBack differ (encodeValue valueShape) fun ctx => decodeValue ctx valueShape) :
    ReadsBack differ
      (fun dict : Dict order β =>
        Encoder.ofMap type encodeKey encodeValue (.map keyShape valueShape h) dict.entries)
      (fun ctx => ofMap type (kind.gatherer : Gatherer order β) decodeKey decodeValue ctx
        (.map keyShape valueShape h)) := by
  intro dict b hb ctx
  obtain ⟨forms, sorted, front, hforms, hperm, _, hfront, rfl⟩ := Encoder.entries_ok.mp hb
  -- The entries in the order in which they are on the wire.
  obtain ⟨es, _, hsorted⟩ := EncodedEntry.exists_entries_of_perm hforms hperm
  show ReadsOver differ (ofMap type (kind.gatherer : Gatherer order β) decodeKey decodeValue ctx
    (.map keyShape valueShape h)) _
  rw [ofMap]
  refine sequence_readsOver hhead (Encoder.head_ok hfront) (EncodedEntry.pieces_flatMap hsorted)
    ?_ ?_
  -- Each entry has been written as its key and its value.
  · rintro e _ ⟨f, hef, rfl⟩ ctx
    exact entry_readsOver (hkey e.1 f.key hef.key ctx) (hvalue e.2 f.value hef.value ctx)
  · intro acc e err hadd
    split at hadd
    · cases hadd
    · cases hadd
      exact .duplicateKey

/-- The flag that has been written is the one that is read. -/
theorem ofOption_readsBack {encode : Shape → α → Encoder Unit}
    {decode : Context → Shape → Decoder β}
    (hshape : shape = .optional target ∨ shape = .pointer target)
    (hcontent : ReadsBack differ (encode target) fun ctx => decode ctx target)
    (happend : ∀ x, AppendsOnly (encode target x)) :
    ReadsBack differ (Encoder.ofOption type encode shape)
      (fun ctx => ofOption type decode ctx shape) := by
  intro x b hb ctx
  rcases hshape with rfl | rfl
  -- A byte in front of the cursor is read as it is.
  · have hflag : ∀ (flag : UInt8) (c c' : Cursor), c.Advances [flag] c' →
        read ctx Cursor.readByte c = .ok flag c' :=
      fun _ _ _ hadv => read_ok.mpr (Cursor.readByte_ok.mpr hadv)
    cases x with
    | none =>
      rw [Encoder.ofOption, Encoder.standalone_append] at hb
      cases hb
      have hnone : ReadsOver differ (Pure.pure none : Decoder (Option β)) [] := .pure
      exact .after (hflag 0) hnone
    | some x =>
      obtain ⟨p, hp, rfl⟩ := (Encoder.ofOption_some_ok (happend x)).mp hb
      have hsome : ReadsOver differ (some <$> decode ctx target) p := (hcontent x p hp ctx).map
      exact .after (hflag 1) hsome
  · cases x with
    | none => cases hb
    | some x => exact (hcontent x b hb ctx).map

end Kinds

end Decoder

namespace Schema

open Decoder

mutual

/-- Whether an array of the type has another length in the shape. -/
def LengthsDiffer : {α : Type} → Schema α → Shape → Prop
  | _, .array _ elem length, shape =>
    match shape with
    | .array elemShape shapeLength => shapeLength ≠ length ∨ elem.LengthsDiffer elemShape
    | _ => False
  | _, .vector _ elem, shape =>
    match shape with
    | .vector elemShape _ => elem.LengthsDiffer elemShape
    | _ => False
  | _, .map _ _ _ key value, shape =>
    match shape with
    | .map keyShape valueShape _ => key.LengthsDiffer keyShape ∨ value.LengthsDiffer valueShape
    | _ => False
  | _, .box _ content, shape =>
    match shape with
    | .pointer target => content.LengthsDiffer target
    | _ => False
  | _, .option _ content, shape =>
    match shape with
    | .pointer target => content.LengthsDiffer target
    | .optional target => content.LengthsDiffer target
    | _ => False
  | _, .record _ fields _ _, shape =>
    match shape with
    | .record shapes => fields.LengthsDiffer shapes
    | _ => False
  | _, _, _ => False

/-- Whether an array in one of the fields has another length in its shape. -/
def Fields.LengthsDiffer : {α : Type} → Fields α → Shape.Fields → Prop
  | _, .nil, _ => False
  | _, .cons _ schema rest, shapes =>
    match shapes with
    | .present _ _ shape shapes => schema.LengthsDiffer shape ∨ rest.LengthsDiffer shapes
    | .absent _ _ shapes => rest.LengthsDiffer shapes
    | .nil => False

end

mutual

/-- The decoder goes the same way along a shape as the encoder, whatever the shape is. -/
theorem decode_readsBack : {α : Type} → (schema : Schema α) → schema.HookFree →
    (shape : Shape) → Head.unbounded ∉ shape.heads →
    ReadsBack (schema.LengthsDiffer shape) (schema.encode shape)
      (fun ctx => schema.decode ctx shape)
  | _, .uint _, _, shape, _ => by
    simp only [decode, encode]
    exact ofUint_readsBack
  | _, .array _ elem length, hfree, shape, hheads => by
    intro items b hb
    simp only [encode, decode] at hb ⊢
    cases shape with
    | array elemShape shapeLength =>
      rw [Shape.heads] at hheads
      -- The lengths differ here or in an element, and either is admitted.
      have helem := decode_readsBack elem hfree elemShape hheads
      rw [LengthsDiffer]
      exact ofArray_readsBack .inl (helem.imp .inr) (elem.encode_appendsOnly elemShape) items b hb
    | _ => cases hb
  | _, .vector _ elem, hfree, shape, hheads => by
    intro items b hb
    simp only [encode, decode] at hb ⊢
    cases shape with
    | vector elemShape head =>
      -- Neither this head nor any inside is open.
      rw [Shape.heads, List.mem_cons, not_or] at hheads
      have helem := decode_readsBack elem hfree elemShape hheads.2
      rw [LengthsDiffer]
      exact ofVector_readsBack (Ne.symm hheads.1) helem (elem.encode_appendsOnly elemShape) items b
        hb
    | _ => cases hb
  | _, .map _ _ _ key value, hfree, shape, hheads => by
    intro dict b hb
    simp only [encode, decode] at hb ⊢
    cases shape with
    | map keyShape valueShape head =>
      rw [Shape.heads, List.mem_cons, List.mem_append, not_or, not_or] at hheads
      have hkey := decode_readsBack key hfree.1 keyShape hheads.2.1
      have hvalue := decode_readsBack value hfree.2 valueShape hheads.2.2
      rw [LengthsDiffer]
      exact ofMap_readsBack (Ne.symm hheads.1) (hkey.imp .inl) (hvalue.imp .inr) dict b hb
    | _ => cases hb
  | _, .box _ content, hfree, shape, hheads => by
    intro x b hb
    simp only [encode, decode] at hb ⊢
    cases shape with
    | pointer target =>
      rw [Shape.heads] at hheads
      rw [LengthsDiffer]
      exact decode_readsBack content hfree target hheads x b hb
    | _ => cases hb
  | _, .option _ content, hfree, shape, hheads => by
    intro x b hb
    simp only [encode, decode] at hb ⊢
    cases shape with
    | pointer target =>
      rw [Shape.heads] at hheads
      rw [LengthsDiffer]
      exact ofOption_readsBack (.inr rfl) (decode_readsBack content hfree target hheads)
        (content.encode_appendsOnly target) x b hb
    | optional target =>
      rw [Shape.heads] at hheads
      rw [LengthsDiffer]
      exact ofOption_readsBack (.inl rfl) (decode_readsBack content hfree target hheads)
        (content.encode_appendsOnly target) x b hb
    | _ => cases x <;> cases hb
  | _, .record _ fields _ _, hfree, shape, hheads => by
    intro x b hb
    simp only [encode, decode] at hb ⊢
    obtain ⟨shapes, rfl⟩ := Encoder.exists_shapes_of_ofRecord hb
    rw [Shape.heads] at hheads
    rw [LengthsDiffer]
    exact Fields.decode_readsBack fields hfree shapes hheads x b (Encoder.ofRecord_ok.mp hb).2
  | _, .custom _, hfree, _, _ => hfree.elim

/-- Fields are written one after the other, and those that are left out leave no trace. -/
theorem Fields.decode_readsBack : {α : Type} → (fields : Fields α) → fields.HookFree →
    (shapes : Shape.Fields) → Head.unbounded ∉ shapes.heads →
    ReadsBack (fields.LengthsDiffer shapes) (fields.encode shapes)
      (fun ctx => fields.decode ctx shapes)
  | _, .nil, _, shapes, _ => by
    intro x b hb ctx
    rw [Fields.encode, Encoder.standalone_pure] at hb
    cases hb
    simp only [Fields.decode]
    exact .pure
  | _, .cons _ schema rest, hfree, shapes, hheads => by
    rintro ⟨x, xs⟩ b hb ctx
    cases shapes with
    | nil =>
      rw [Fields.encode] at hb
      cases hb
    | present name directive shape shapes =>
      rw [Shape.Fields.heads, List.mem_append, not_or] at hheads
      obtain ⟨p, t, hp, ht, rfl⟩ := Fields.encode_present_ok.mp hb
      have hfield := (Schema.decode_readsBack schema hfree.1 shape hheads.1 x p hp)
      have hrest := (Fields.decode_readsBack rest hfree.2 shapes hheads.2 xs t ht ctx)
      simp only [Fields.decode, Fields.LengthsDiffer]
      exact .at_pos fun n => ((hfield _).imp .inl).bind fun _ => (hrest.imp .inr).bind_pure
    | absent name directive shapes =>
      rw [Shape.Fields.heads] at hheads
      rw [Fields.encode] at hb
      simp only [Fields.decode, Fields.LengthsDiffer]
      exact (Fields.decode_readsBack rest hfree.2 shapes hheads xs b hb ctx).bind_pure

end

/-! ## Whole values -/

/-- What has been written along a shape is read along it to the last byte. Where it is not, this is
not for the shape, unless an array has another length there. -/
theorem decode_follows_encode {schema : Schema α} {shape : Shape} {x : α} {b : Bytes}
    (hfree : schema.HookFree) (hheads : Head.unbounded ∉ shape.heads)
    (hencode : (schema.encode shape x).standalone = .ok b) (ctx : Context) :
    (∃ y c, schema.decode ctx shape (.ofBytes b) = .ok y c ∧ c.consumed = b.length) ∨
      ∃ e c, schema.decode ctx shape (.ofBytes b) = .error e c ∧
        e.Admitted (schema.LengthsDiffer shape) := by
  have hrest : (Cursor.ofBytes b).rest = b ++ [] := (List.append_nil b).symm
  -- The whole input is what has been written.
  obtain ⟨c, hadv, _⟩ := Cursor.exists_advances hrest
  have hreads := schema.decode_readsBack hfree shape hheads x b hencode ctx
  rcases hreads (.ofBytes b) c hadv with ⟨y, hy⟩ | ⟨e, c₁, he, hadmitted⟩
  · exact .inl ⟨y, c, hy, (Cursor.advances_ofBytes hadv).1⟩
  · exact .inr ⟨e, c₁, he, hadmitted⟩

/-- A head of five bytes and varints for numbers of another size do not keep the decoder from
following, since no array has another length. -/
theorem decode_follows_encode_wide_head :
    let schema : Schema (List (Tuple (BitVec 16) 2)) :=
      .vector "Vec<[u16; 2]>" (.array "[u16; 2]" (.uint .u16) 2)
    let shape : Shape := .vector (.array (.varint 8) 2) (.fixed 5)
    (schema.encode shape [⟨[1#16, 300#16], rfl⟩]).standalone = .ok [0, 0, 0, 0, 3, 1, 0x41, 0x2C] ∧
      ∀ ctx e c, schema.decode ctx shape (.ofBytes [0, 0, 0, 0, 3, 1, 0x41, 0x2C]) = .error e c →
        ¬ e.Misfit := by
  intro schema shape
  have hencode : (schema.encode shape [⟨[1#16, 300#16], rfl⟩]).standalone =
      .ok [0, 0, 0, 0, 3, 1, 0x41, 0x2C] := by rfl
  have hfree : schema.HookFree := trivial
  have hheads : Head.unbounded ∉ shape.heads := by decide
  have hsame : ¬ schema.LengthsDiffer shape := by
    simp [schema, shape, LengthsDiffer]
  refine ⟨hencode, ?_⟩
  intro ctx e c herror hmisfit
  rcases decode_follows_encode hfree hheads hencode ctx with ⟨y, c', hok, _⟩ | ⟨e', c', he, hwhy⟩
  · rw [herror] at hok
    cases hok
  · rw [herror] at he
    cases he
    exact hsame (hwhy.of_misfit hmisfit)

/-- The encoder writes an array along a shape of another length, and the decoder refuses to. -/
theorem encode_ignores_length :
    let schema : Schema (Tuple (BitVec 8) 2) := .array "[u8; 2]" (.uint .u8) 2
    let shape : Shape := .array (.integer 8) 3
    schema.HookFree ∧ Head.unbounded ∉ shape.heads ∧
      (schema.encode shape ⟨[1#8, 2#8], rfl⟩).standalone = .ok [1, 2] ∧
      schema.decode (.top {}) shape (.ofBytes [1, 2]) =
        .error (.shapeMismatch [] "[u8; 2]" .array) (.ofBytes [1, 2]) :=
  ⟨trivial, by decide, rfl, rfl⟩

end Schema

end TlsWire
