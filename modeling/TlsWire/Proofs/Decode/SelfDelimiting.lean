import TlsWire.Proofs.Cursor.Extend
import TlsWire.Proofs.Decode.Grammar

/-!
# Self-delimiting decoding

A value whose shape is not greedy ends by itself: what follows it is not looked at, and of all
errors only a truncation can be mended by more input. `Prolonged t r r'` relates the outcome of a
decoder to its outcome with `t` behind the scope; `SelfDelimiting` says that the two are always so
related.

Nothing has to be known of the elements of a vector or map. They are decoded inside a scope whose
length the head has declared, so more input makes no difference to them, and where they lack bytes
the error is no truncation (`Sequence.fold_final`).
-/

namespace TlsWire

variable {α β κ σ : Type}

/-- More input does not mend the error. -/
def DecodeError.Final (e : DecodeError) : Prop := ∀ loc short, e ≠ .truncated loc short

namespace Decoder

/-- How a decoder ends when `t` is there as well, given how it ends without. -/
inductive Prolonged (t : Bytes) :
    EStateM.Result DecodeError Cursor α → EStateM.Result DecodeError Cursor α → Prop where
  | ok (a : α) (c : Cursor) : Prolonged t (.ok a c) (.ok a (c.extend t))
  | final {e : DecodeError} (c c' : Cursor) (h : e.Final) : Prolonged t (.error e c) (.error e c')
  | short {loc : Location} {needed available : Nat} (c : Cursor)
      {r : EStateM.Result DecodeError Cursor α} (hshort : available < needed)
      (hmore : t.length < needed - available →
        ∃ c', r = .error (.truncated loc ⟨needed, available + t.length⟩) c') :
      Prolonged t (.error (.truncated loc ⟨needed, available⟩) c) r

/-- The decoder does not depend on what follows the bytes that it takes. -/
def SelfDelimiting (d : Decoder α) : Prop := ∀ c t, Prolonged t (d c) (d (c.extend t))

namespace SelfDelimiting

/-! ## Steps -/

/-- What reads nothing depends on nothing. -/
theorem pure {a : α} : SelfDelimiting (pure a) := fun c _ => .ok a c

/-- An error that is raised without reading is raised whatever follows, unless it is a truncation.
-/
theorem throw {e : DecodeError} (h : e.Final) : SelfDelimiting (throw e : Decoder α) :=
  fun c t => .final c (c.extend t) h

/-- The position is counted from the front, where nothing changes. -/
theorem pos : SelfDelimiting pos := fun c _ => .ok c.pos c

/-- A result that is there already does not change, and its error must not be a truncation. -/
theorem ofExcept {r : Except DecodeError α} (h : ∀ e, r = .error e → e.Final) :
    SelfDelimiting (ofExcept r) := by
  cases r with
  | ok a => exact .pure
  | error e => exact .throw (h e rfl)

/-- A reader is stable if it takes its bytes from the front, and counts those that it lacks. -/
theorem read {ctx : Context} {reader : Cursor → Except Truncated (α × Cursor)}
    (h : ∀ c t, Cursor.Stable t (reader c) (reader (c.extend t))) :
    SelfDelimiting (read ctx reader) := by
  intro c t
  have hstable := h c t
  unfold Decoder.read
  generalize hr : reader c = r at hstable
  generalize hr' : reader (c.extend t) = r' at hstable
  cases hstable with
  | ok a after => exact .ok a after
  | short hshort hmore =>
    -- The bytes that are lacking are still lacking, and `t` is among those that are available.
    refine .short c hshort fun hlen => ?_
    rw [hmore hlen]
    exact ⟨c.extend t, rfl⟩

/-- A second step needs to be self-delimiting for what the first one can return. -/
theorem bind {d : Decoder α} {f : α → Decoder β} (hd : SelfDelimiting d)
    (hf : ∀ c a c', d c = .ok a c' → SelfDelimiting (f a)) : SelfDelimiting (d >>= f) := by
  intro c t
  show Prolonged t (EStateM.bind d f c) (EStateM.bind d f (c.extend t))
  unfold EStateM.bind
  have hfirst := hd c t
  have hsecond := hf c
  generalize d c = r at hfirst hsecond
  generalize d (c.extend t) = r' at hfirst
  cases hfirst with
  -- Only where the first step succeeds does `t` get as far as the second one.
  | ok a c' => exact hsecond a c' rfl c' t
  | final c' c'' h => exact .final c' c'' h
  | short c' hshort hmore =>
    refine .short c' hshort fun hlen => ?_
    obtain ⟨c'', hr⟩ := hmore hlen
    rw [hr]
    exact ⟨c'', rfl⟩

/-- Computing something from the value looks at no input. -/
theorem map {d : Decoder α} {f : α → β} (hd : SelfDelimiting d) : SelfDelimiting (f <$> d) := by
  rw [map_eq_pure_bind]
  exact hd.bind fun _ _ _ _ => .pure

end SelfDelimiting

end Decoder

/-! ## Content of a declared length -/

namespace Sequence

variable {ctx : Context} {elem : Context → Decoder α} {seq seq' : Sequence} {e : DecodeError}

/-- Behind a declared length a truncation is turned into a malformed element. -/
theorem blame_final (element : Context) (e : DecodeError) : (blame true element e).Final := by
  intro loc short heq
  cases e <;> cases heq

/-- An element leaves the sequence what it is, only with less of it. -/
theorem next_bounded {found : Option α} (h : next ctx elem seq = .ok found seq') :
    seq'.bounded = seq.bounded := by
  cases found with
  | none => rw [(next_none.mp h).2]
  | some a =>
    obtain ⟨_, _, scope, _, _, rfl⟩ := next_some.mp h
    rfl

/-- So do any number of elements. -/
theorem Yields.bounded {as : List α} (h : Yields ctx elem seq as seq') :
    seq'.bounded = seq.bounded := by
  induction h with
  | nil => rfl
  | cons hnext _ ih => exact ih.trans (next_bounded hnext)

/-- The next element may be missing, fail or be empty. None of these is mended by more input. -/
theorem next_final (hbounded : seq.bounded = true) (h : next ctx elem seq = .error e seq') :
    e.Final := by
  rcases next_error h with rfl | ⟨e', _, _, rfl⟩ | rfl
  · exact nofun
  · -- The scope was declared, so it is the declaration that is blamed.
    rw [hbounded]
    exact blame_final _ e'
  · exact nofun

/-- Where the length of the content is declared, lack of bytes in it is no truncation. -/
theorem fold_final {add : σ → α → Except DecodeError σ} {acc : σ} {seq : Sequence}
    (hbounded : seq.bounded = true) (hadd : ∀ acc a e, add acc a = .error e → e.Final)
    (h : fold ctx elem add acc seq = .error e) : e.Final := by
  obtain ⟨as, seq', hrun, ⟨seq'', hnext⟩ | ⟨acc', a, hstep⟩⟩ := fold_error h
  · exact next_final (hrun.bounded.trans hbounded) hnext
  · exact hadd acc' a e hstep

/-- A head is read from the front, and so is the content whose length it declares. Without a head
the content is all there is, so that more input is more content. -/
theorem ofHead_selfDelimiting {head : Head} (hhead : head ≠ .unbounded) :
    Decoder.SelfDelimiting (ofHead ctx head) := by
  have hsplit : ∀ length, Decoder.SelfDelimiting (do
      let scope ← Decoder.read ctx (Cursor.split length)
      return (⟨scope, true, 0⟩ : Sequence)) := fun length =>
    .bind (.read (Cursor.split_stable length)) fun _ _ _ _ => .pure
  cases head with
  | fixed width => exact .bind (.read (Uint.decode_stable width)) fun _ length _ _ => hsplit length
  | varint => exact .bind (.read Varint.decode_stable) fun _ length _ _ => hsplit length
  | unbounded => exact absurd rfl hhead

/-- The sequence remembers that its length has been declared. -/
theorem ofHead_bounded {head : Head} (hhead : head ≠ .unbounded) {c c' : Cursor}
    (h : ofHead ctx head c = .ok seq c') : seq.bounded = true := by
  obtain ⟨_, _, _, _, _, _, _, rfl⟩ := ofHead_ok.mp h
  exact decide_eq_true hhead

end Sequence

/-! ## Kinds of types -/

namespace Decoder.SelfDelimiting

variable {type : String} {ctx : Context} {shape : Shape}

/-- The bytes of a number are known in advance, or from the first one of them. -/
theorem ofUint {t : UintType} : SelfDelimiting (ofUint t ctx shape) := by
  -- A number that is too wide stays so, since its bytes are all there.
  have hnarrow : ∀ reader : Cursor → Except Truncated (Nat × Cursor),
      (∀ c t, Cursor.Stable t (reader c) (reader (c.extend t))) →
      SelfDelimiting (ofUint.narrow t ctx reader) := by
    intro reader hreader
    refine .bind (.read hreader) fun _ n _ _ => ?_
    show SelfDelimiting (if n < byteRange t.bytes then _ else _)
    split
    · exact .pure
    · exact .throw nofun
  cases shape with
  | integer bits => exact hnarrow _ (Uint.decode_stable t.bytes)
  | varint bits => exact hnarrow _ Varint.decode_stable
  | _ => exact .throw nofun

/-- Items one after the other, as many as the type has. -/
theorem items {elem : Context → Decoder α} (h : ∀ ctx, SelfDelimiting (elem ctx)) :
    (length : Nat) → SelfDelimiting (items elem ctx length)
  | 0 => .pure
  | length + 1 =>
    .bind .pos fun _ p _ _ => .bind (h (ctx.push Step.elementName p)) fun _ _ _ _ =>
      .bind (items h length) fun _ _ _ _ => .pure

/-- An array whose elements end by themselves does so too. -/
theorem ofArray {elem : Context → Shape → Decoder α} {length : Nat}
    (h : ∀ ctx, SelfDelimiting (elem ctx shape)) (shapeLength : Nat) :
    SelfDelimiting (ofArray type elem length ctx (.array shape shapeLength)) := by
  unfold Decoder.ofArray
  simp only
  split
  · exact items h length
  · exact .throw nofun

/-- The elements are not asked for anything. -/
theorem ofVector {elem : Context → Shape → Decoder α} {head : Head} (hhead : head ≠ .unbounded) :
    SelfDelimiting (ofVector type elem ctx (.vector shape head)) := by
  refine .bind (Sequence.ofHead_selfDelimiting hhead) fun _ seq _ hseq => ?_
  refine .bind (.ofExcept fun e he => ?_) fun _ _ _ _ => .pure
  refine Sequence.fold_final (Sequence.ofHead_bounded hhead hseq) (fun _ _ _ hadd => ?_) he
  cases hadd

/-- Neither are the entries of a map. A repeated key is found by looking at entries that are
complete. -/
theorem ofMap {order : KeyOrder κ} {gatherer : Gatherer order β}
    {key : Context → Shape → Decoder κ} {value : Context → Shape → Decoder β}
    {keyShape valueShape : Shape} {head : Head} (hhead : head ≠ .unbounded) :
    SelfDelimiting (ofMap type gatherer key value ctx (.map keyShape valueShape head)) := by
  refine .bind (Sequence.ofHead_selfDelimiting hhead) fun _ seq _ hseq => ?_
  refine .bind (.ofExcept fun e he => ?_) fun _ _ _ _ => .pure
  refine Sequence.fold_final (Sequence.ofHead_bounded hhead hseq) (fun acc entry e hadd => ?_) he
  split at hadd
  · cases hadd
  · cases hadd
    exact nofun

/-- A pointer ends where its target does. -/
theorem ofBox {content : Context → Shape → Decoder α} (h : SelfDelimiting (content ctx shape)) :
    SelfDelimiting (ofBox type content ctx (.pointer shape)) := h

/-- The flag tells whether a value follows, so it has to be read first. -/
theorem ofOption {content : Context → Shape → Decoder α} {target : Shape}
    (hshape : shape = .optional target ∨ shape = .pointer target)
    (h : SelfDelimiting (content ctx target)) :
    SelfDelimiting (ofOption type content ctx shape) := by
  rcases hshape with rfl | rfl
  · refine .bind (.read Cursor.readByte_stable) fun _ flag _ _ => ?_
    split
    · exact .pure
    · split
      · exact .map h
      · exact .throw nofun
  · exact .map h

end Decoder.SelfDelimiting

/-! ## Schemas -/

namespace Schema

open Decoder

/-- If a record is not greedy then none of its present fields is. -/
theorem Fields.decode_cons_selfDelimiting {info : FieldInfo} {schema : Schema α} {rest : Fields β}
    {shapes : Shape.Fields} {type : String}
    (hresolve : (Fields.cons info schema rest).resolve = .ok shapes)
    (hcheck : shapes.checkGreedy type = .ok ()) (hgreedy : shapes.isGreedy = false)
    (hfield : ∀ shape, schema.resolve info.directive = .ok shape → shape.isGreedy = false →
      ∀ ctx, SelfDelimiting (schema.decode ctx shape))
    (hrest : ∀ shapes, rest.resolve = .ok shapes → shapes.checkGreedy type = .ok () →
      shapes.isGreedy = false → ∀ ctx, SelfDelimiting (rest.decode ctx shapes)) (ctx : Context) :
    SelfDelimiting ((Fields.cons info schema rest).decode ctx shapes) := by
  rcases Fields.resolve_cons.mp hresolve with ⟨_, restShapes, hrestShapes, rfl⟩ |
    ⟨_, shape, restShapes, hshape, hrestShapes, rfl⟩
  · rw [Shape.checkGreedy_absent] at hcheck
    rw [Shape.isGreedy_absent] at hgreedy
    rw [Fields.decode]
    exact .bind (hrest _ hrestShapes hcheck hgreedy ctx) fun _ _ _ _ => .pure
  · obtain ⟨hbounded, hcheck⟩ := Shape.checkGreedy_present.mp hcheck
    rw [Shape.isGreedy_present] at hgreedy
    -- Before another present field no field is greedy, and the last one is what the record is.
    have hshapeBounded : shape.isGreedy = false := by
      cases hany : restShapes.anyPresent with
      | true => exact hbounded hany
      | false => rwa [hany] at hgreedy
    have hrestBounded : restShapes.isGreedy = false := by
      cases hany : restShapes.anyPresent with
      | true => rwa [hany] at hgreedy
      | false => exact Shape.isGreedy_of_anyPresent_false hany
    rw [Fields.decode]
    exact .bind .pos fun _ p _ _ => .bind (hfield _ hshape hshapeBounded _) fun _ _ _ _ =>
      .bind (hrest _ hrestShapes hcheck hrestBounded ctx) fun _ _ _ _ => .pure

mutual

/-- A value of a shape that is not greedy ends by itself. -/
theorem decode_selfDelimiting : {α : Type} → (schema : Schema α) → schema.HookFree →
    {d : Directive} → {shape : Shape} → schema.resolve d = .ok shape → shape.isGreedy = false →
    ∀ ctx, SelfDelimiting (schema.decode ctx shape)
  | _, .uint _, _, _, _, _, _, _ => by
    rw [decode]
    exact .ofUint
  | _, .array _ elem _, hfree, _, _, hresolve, _, _ => by
    obtain ⟨_, elemShape, helem, hbounded, rfl⟩ := resolve_array.mp hresolve
    rw [decode]
    exact .ofArray (decode_selfDelimiting elem hfree helem hbounded) _
  | _, .vector _ _, _, _, _, hresolve, hgreedy, _ => by
    -- The head is not the open one, since this would make the shape greedy.
    obtain ⟨head, elemShape, _, _, _, rfl⟩ := resolve_vector.mp hresolve
    rw [decode]
    refine .ofVector ?_
    rintro rfl
    cases hgreedy
  | _, .map _ _ _ _ _, _, _, _, hresolve, hgreedy, _ => by
    obtain ⟨head, keyShape, valueShape, _, _, _, _, _, rfl⟩ := resolve_map.mp hresolve
    rw [decode]
    refine .ofMap ?_
    rintro rfl
    cases hgreedy
  | _, .box _ content, hfree, _, _, hresolve, hgreedy, ctx => by
    obtain ⟨_, target, hcontent, rfl⟩ := resolve_box.mp hresolve
    rw [decode]
    exact .ofBox (decode_selfDelimiting content hfree hcontent hgreedy ctx)
  | _, .option _ content, hfree, _, _, hresolve, hgreedy, ctx => by
    rw [decode]
    rcases resolve_option.mp hresolve with ⟨_, target, hcontent, rfl⟩ | ⟨_, target, hcontent, rfl⟩
    · exact .ofOption (.inl rfl) (decode_selfDelimiting content hfree hcontent hgreedy ctx)
    · exact .ofOption (.inr rfl) (decode_selfDelimiting content hfree hcontent hgreedy ctx)
  | _, .record _ fields _ _, hfree, _, _, hresolve, hgreedy, ctx => by
    obtain ⟨_, shapes, hfields, hcheck, rfl⟩ := resolve_record.mp hresolve
    rw [decode]
    exact Fields.decode_selfDelimiting fields hfree hfields hcheck hgreedy ctx
  | _, .custom _, hfree, _, _, _, _, _ => hfree.elim

/-- By induction on the fields. That the earlier ones are not greedy has been checked by the
record. -/
theorem Fields.decode_selfDelimiting : {α : Type} → (fields : Fields α) → fields.HookFree →
    {shapes : Shape.Fields} → {type : String} → fields.resolve = .ok shapes →
    shapes.checkGreedy type = .ok () → shapes.isGreedy = false →
    ∀ ctx, SelfDelimiting (fields.decode ctx shapes)
  | _, .nil, _, _, _, _, _, _, _ => .pure
  | _, .cons _ schema rest, hfree, _, _, hresolve, hcheck, hgreedy, ctx =>
    Fields.decode_cons_selfDelimiting hresolve hcheck hgreedy
      (fun _ => Schema.decode_selfDelimiting schema hfree.1)
      (fun _ => Fields.decode_selfDelimiting rest hfree.2) ctx

end

/-! ## Whole inputs -/

section Whole

variable {schema : Schema α} {d : Directive} {shape : Shape} {config : Config}

/-- Errors of a whole input are those of its decoder, once the type has resolved. -/
theorem unmarshalWith_error (hresolve : schema.resolve d = .ok shape) {data : Bytes}
    {e : DecodeError} :
    schema.unmarshalWith d config data = .error e ↔
      ∃ c, schema.decode (.top config) shape (.ofBytes data) = .error e c := by
  simp only [unmarshalWith, hresolve]
  cases schema.decode (.top config) shape (.ofBytes data) with
  | ok x c => simp
  | error e' c => simp

/-- A longer input is the same cursor with more behind it. -/
theorem decode_prolonged (hfree : schema.HookFree) (hresolve : schema.resolve d = .ok shape)
    (hgreedy : shape.isGreedy = false) (config : Config) (data t : Bytes) :
    Prolonged t (schema.decode (.top config) shape (.ofBytes data))
      (schema.decode (.top config) shape (.ofBytes (data ++ t))) := by
  rw [Cursor.ofBytes_append]
  exact schema.decode_selfDelimiting hfree hresolve hgreedy (.top config) (.ofBytes data) t

/-- The bytes of a value are enough to decode it. -/
theorem unmarshalWith_take_append (hfree : schema.HookFree)
    (hresolve : schema.resolve d = .ok shape) (hgreedy : shape.isGreedy = false) {data : Bytes}
    {n : Nat} {x : α} (h : schema.unmarshalWith d config data = .ok (n, x)) (t : Bytes) :
    schema.unmarshalWith d config (data.take n ++ t) = .ok (n, x) := by
  obtain ⟨b, rest, rfl, rfl, hform, hwithin⟩ := exists_wireForm_of_unmarshalWith hfree hresolve h
  rw [List.take_left]
  -- The bytes that have been read are a form of the value, and a form is read back whatever
  -- follows.
  refine unmarshalWith_of_wireForm hresolve hform hwithin fun hg => ?_
  rw [hgreedy] at hg
  cases hg

/-- Fewer bytes than a value has are truncated. -/
theorem unmarshalWith_take_lt (hfree : schema.HookFree) (hresolve : schema.resolve d = .ok shape)
    (hgreedy : shape.isGreedy = false) {data : Bytes} {m n : Nat} {x : α}
    (h : schema.unmarshalWith d config data = .ok (n, x)) (hm : m < n) :
    ∃ loc short, schema.unmarshalWith d config (data.take m) = .error (.truncated loc short) := by
  have hwhole : schema.unmarshalWith d config (data.take n) = .ok (n, x) := by
    have happend := unmarshalWith_take_append hfree hresolve hgreedy h []
    rwa [List.append_nil] at happend
  have hsplit : data.take n = data.take m ++ (data.take n).drop m := by
    have htake : (data.take n).take m = data.take m := by
      rw [List.take_take, Nat.min_eq_left (Nat.le_of_lt hm)]
    rw [← htake, List.take_append_drop]
  obtain ⟨c, hrun, hconsumed⟩ := (unmarshalWith_ok hresolve).mp hwhole
  -- The decoder is run on the cut input, and compared with its run on all bytes of the value.
  have hlonger := decode_prolonged hfree hresolve hgreedy config (data.take m)
    ((data.take n).drop m)
  rw [← hsplit, hrun] at hlonger
  generalize hcut : schema.decode (.top config) shape (.ofBytes (data.take m)) = r at hlonger
  cases hlonger with
  | ok a c =>
    -- The value would have been there already, but there are not as many bytes.
    have hread : schema.unmarshalWith d config (data.take m) = .ok (n, x) :=
      (unmarshalWith_ok hresolve).mpr ⟨c, hcut, hconsumed⟩
    obtain ⟨b, t, hdata, hlen, _⟩ := exists_wireForm_of_unmarshalWith hfree hresolve hread
    have hlength := congrArg List.length hdata
    rw [List.length_take, List.length_append] at hlength
    omega
  | short c _ _ => exact ⟨_, _, (unmarshalWith_error hresolve).mpr ⟨c, hcut⟩⟩

/-- More input does not mend a final error. -/
theorem unmarshalWith_append_final (hfree : schema.HookFree)
    (hresolve : schema.resolve d = .ok shape) (hgreedy : shape.isGreedy = false) {data : Bytes}
    {e : DecodeError} (h : schema.unmarshalWith d config data = .error e) (hfinal : e.Final)
    (t : Bytes) : schema.unmarshalWith d config (data ++ t) = .error e := by
  obtain ⟨c, hrun⟩ := (unmarshalWith_error hresolve).mp h
  have hlonger := decode_prolonged hfree hresolve hgreedy config data t
  rw [hrun] at hlonger
  generalize hmore : schema.decode (.top config) shape (.ofBytes (data ++ t)) = r at hlonger
  cases hlonger with
  | final c c' _ => exact (unmarshalWith_error hresolve).mpr ⟨c', hmore⟩
  -- A truncation is not final.
  | short c _ _ => exact absurd rfl (hfinal _ _)

/-- As long as the bytes that are lacking are not there, they are lacking. -/
theorem unmarshalWith_append_short (hfree : schema.HookFree)
    (hresolve : schema.resolve d = .ok shape) (hgreedy : shape.isGreedy = false) {data : Bytes}
    {loc : Location} {needed available : Nat}
    (h : schema.unmarshalWith d config data = .error (.truncated loc ⟨needed, available⟩)) :
    available < needed ∧ ∀ t : Bytes, t.length < needed - available →
      schema.unmarshalWith d config (data ++ t) =
        .error (.truncated loc ⟨needed, available + t.length⟩) := by
  obtain ⟨c, hrun⟩ := (unmarshalWith_error hresolve).mp h
  have hlonger := decode_prolonged hfree hresolve hgreedy config data
  rw [hrun] at hlonger
  refine ⟨?_, fun t hlen => ?_⟩
  -- That the counts are apart is known from any extension, the empty one included.
  · have hempty := hlonger []
    generalize schema.decode (.top config) shape (.ofBytes (data ++ [])) = r at hempty
    cases hempty with
    | final _ _ hfinal => exact absurd rfl (hfinal _ _)
    | short _ hshort _ => exact hshort
  · have hmore := hlonger t
    generalize hmore' : schema.decode (.top config) shape (.ofBytes (data ++ t)) = r at hmore
    cases hmore with
    | final _ _ hfinal => exact absurd rfl (hfinal _ _)
    | short _ _ hcounts =>
      obtain ⟨c', rfl⟩ := hcounts hlen
      exact (unmarshalWith_error hresolve).mpr ⟨c', hmore'⟩

/-- A value that ends by itself is decoded from its own bytes, whatever follows, and cut short it is
truncated. An error that is not a truncation stays whatever follows, and a truncation tells how many
bytes are lacking at least. -/
theorem unmarshalWith_selfDelimiting (hfree : schema.HookFree)
    (hresolve : schema.resolve d = .ok shape) (hgreedy : shape.isGreedy = false) (config : Config)
    (data : Bytes) :
    (∀ n x, schema.unmarshalWith d config data = .ok (n, x) →
      (∀ t, schema.unmarshalWith d config (data.take n ++ t) = .ok (n, x)) ∧
      ∀ m < n, ∃ loc short,
        schema.unmarshalWith d config (data.take m) = .error (.truncated loc short)) ∧
    (∀ e, schema.unmarshalWith d config data = .error e → e.Final →
      ∀ t, schema.unmarshalWith d config (data ++ t) = .error e) ∧
    ∀ loc needed available,
      schema.unmarshalWith d config data = .error (.truncated loc ⟨needed, available⟩) →
      available < needed ∧ ∀ t : Bytes, t.length < needed - available →
        schema.unmarshalWith d config (data ++ t) =
          .error (.truncated loc ⟨needed, available + t.length⟩) := by
  refine ⟨fun n x h => ⟨?_, ?_⟩, ?_, ?_⟩
  · exact unmarshalWith_take_append hfree hresolve hgreedy h
  · exact fun m hm => unmarshalWith_take_lt hfree hresolve hgreedy h hm
  · exact fun e h hfinal => unmarshalWith_append_final hfree hresolve hgreedy h hfinal
  · exact fun loc needed available h => unmarshalWith_append_short hfree hresolve hgreedy h

/-- A vector of which three of four bytes are lacking: one more is not enough. -/
theorem unmarshalWith_selfDelimiting_short_vector :
    let schema : Schema (BitVec 16 × List (BitVec 8) × Unit) :=
      .record "Packet"
        (.cons ⟨"id", .default, "u16"⟩ (.uint .u16)
          (.cons ⟨"body", .head 1, "Vec<u8>"⟩ (.vector "Vec<u8>" (.uint .u8)) .nil))
        fun _ => .ok ()
    schema.unmarshalWith .default {} [0, 5, 4, 9] = .error (.truncated [⟨"body", 2⟩] ⟨4, 1⟩) ∧
      schema.unmarshalWith .default {} ([0, 5, 4, 9] ++ [7]) =
        .error (.truncated [⟨"body", 2⟩] ⟨4, 2⟩) := by
  intro schema
  have hfree : schema.HookFree := ⟨trivial, trivial, trivial⟩
  have hresolve : schema.resolve .default = .ok (.record (.present "id" .default (.integer 16)
      (.present "body" (.head 1) (.vector (.integer 8) (.fixed 1)) .nil))) := rfl
  -- The head declares four bytes, and one is there.
  have hshort : schema.unmarshalWith .default {} [0, 5, 4, 9] =
      .error (.truncated [⟨"body", 2⟩] ⟨4, 1⟩) := by rfl
  have hmore := (unmarshalWith_selfDelimiting hfree hresolve rfl {} [0, 5, 4, 9]).2.2 _ _ _ hshort
  exact ⟨hshort, hmore.2 [7] (by decide)⟩

end Whole

end Schema

end TlsWire
