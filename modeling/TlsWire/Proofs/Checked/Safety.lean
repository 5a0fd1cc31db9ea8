import TlsWire.Hook.Refusing
import TlsWire.Proofs.Checked.Follows
import TlsWire.Proofs.Decode.Isolation

/-!
# Hostile input is safe

Decoding never does what it must not do, whatever the bytes are, whatever hooks claim, and also
along shapes that the type does not resolve to (`Schema.decode_safe`). Checked decoding does what
plain decoding does, kind by kind, so it has no fault; and plain decoding moves forwards within its
scope.
-/

namespace TlsWire

variable {α κ β : Type}

namespace Checked

variable {type : String} {ctx : Context} {shape : Shape}

/-! ## Kinds of types -/

/-- A result that is known to be without a fault can be used as it is. -/
theorem ofExcept_follows {x : Except Fault (Except DecodeError α)} {r : Except DecodeError α}
    (h : x = .ok r) : Follows Eq (ofExcept x) (Decoder.ofExcept r) := by
  subst h
  cases r with
  | ok a => exact .pure rfl
  | error e => exact .throw

/-- A number is read by its width, which is one that the window can read, or by its class. -/
theorem ofUint_follows {t : UintType} :
    Follows Eq (ofUint t ctx shape) (Decoder.ofUint t ctx shape) := by
  -- The check against the type is the same on both sides.
  have hnarrow : ∀ {number reader}, Follows Eq number (Decoder.read ctx reader) →
      Follows Eq (ofUint.narrow t ctx number) (Decoder.ofUint.narrow t ctx reader) := by
    intro number reader hnumber
    refine hnumber.bind fun n n' hn => ?_
    subst hn
    split
    · exact .pure rfl
    · exact .throw
  cases shape with
  | integer bits =>
    have hwidth : 1 ≤ t.bytes ∧ t.bytes ≤ 8 := by cases t <;> decide
    exact hnarrow (uint_follows hwidth)
  | varint bits => exact hnarrow varint_follows
  | _ => exact .throw

/-- Elements one after another, each behind the same bytes. -/
theorem items_follows {elem' : Context → Checked α} {elem : Context → Decoder α}
    (h : ∀ ctx, Follows Eq (elem' ctx) (elem ctx)) :
    (length : Nat) → Follows Eq (items elem' ctx length) (Decoder.items elem ctx length)
  | 0 => .pure rfl
  | length + 1 => by
    refine .pos fun w => (h _).bind fun x x' hx => ?_
    refine (items_follows h length).bind fun xs xs' hxs => .pure ?_
    rw [hx, hxs]

/-- The length is known from the type. The window is asked how much is left, which has no fault. -/
theorem ofArray_follows {elem' : Context → Shape → Checked α} {elem : Context → Shape → Decoder α}
    {length : Nat} (hshape : shape.Readable)
    (h : ∀ ctx shape, shape.Readable → Follows Eq (elem' ctx shape) (elem ctx shape)) :
    Follows Eq (ofArray type elem' length ctx shape)
      (Decoder.ofArray type elem length ctx shape) := by
  cases shape with
  | array elemShape shapeLength =>
    rw [ofArray, Decoder.ofArray]
    split
    case isTrue =>
      intro w c hw
      show Agrees _ _ ((do let _ ← w.remaining; _ : Checked _) w) _
      rw [remaining_eq_ok hw]
      exact items_follows (fun ctx => h ctx elemShape hshape) length w c hw
    case isFalse => exact .throw
  | _ => exact .throw

/-- What is made of all elements. -/
theorem all_follows {σ : Type} {elem' : Context → Checked α} {elem : Context → Decoder α}
    {add : σ → α → Except DecodeError σ} {acc : σ} {finish : σ → β} {seq' : Sequence}
    {seq : TlsWire.Sequence} (helem : ∀ ctx, Follows Eq (elem' ctx) (elem ctx))
    (hforward : ∀ ctx, Decoder.Forward (elem ctx)) (h : seq'.Shows seq) :
    Follows Eq (do return finish (← ofExcept (seq'.all ctx elem' add acc)))
      (do return finish (← Decoder.ofExcept (seq.fold ctx elem add acc))) := by
  have hall : seq'.all ctx elem' add acc = .ok (seq.fold ctx elem add acc) :=
    Sequence.all_eq_ok helem hforward h
  refine (ofExcept_follows hall).bind fun s s' hs => .pure ?_
  rw [hs]

/-- Room is reserved for a number of elements that the window can tell without a fault. Then each
element is decoded as it is without checks. -/
theorem ofVector_follows {elem' : Context → Shape → Checked α}
    {elem : Context → Shape → Decoder α} (hshape : shape.Readable)
    (h : ∀ ctx shape, shape.Readable → Follows Eq (elem' ctx shape) (elem ctx shape))
    (hforward : ∀ ctx shape, Decoder.Forward (elem ctx shape)) :
    Follows Eq (ofVector type elem' ctx shape) (Decoder.ofVector type elem ctx shape) := by
  cases shape with
  | vector elemShape head =>
    obtain ⟨helem, hhead⟩ := hshape
    refine (Sequence.ofHead_follows hhead).bind fun seq' seq hseq => ?_
    refine .check (Sequence.capacity_eq_ok hseq) ?_
    exact all_follows (fun ctx => h ctx elemShape helem) (fun ctx => hforward ctx elemShape) hseq
  | _ => exact .throw

/-- A key and then a value. -/
theorem entry_follows {key' : Context → Checked κ} {key : Context → Decoder κ}
    {value' : Context → Checked β} {value : Context → Decoder β}
    (hkey : ∀ ctx, Follows Eq (key' ctx) (key ctx))
    (hvalue : ∀ ctx, Follows Eq (value' ctx) (value ctx)) (ctx : Context) :
    Follows Eq (entry key' value' ctx) (Decoder.entry key value ctx) := by
  refine (hkey ctx).bind fun k k' hk => (hvalue ctx).bind fun v v' hv => .pure ?_
  rw [hk, hv]

/-- A map that is hashed reserves room, and one that is ordered does not. -/
theorem ofMap_follows {order : KeyOrder κ} {kind : MapKind} {key' : Context → Shape → Checked κ}
    {key : Context → Shape → Decoder κ} {value' : Context → Shape → Checked β}
    {value : Context → Shape → Decoder β} (hshape : shape.Readable)
    (hkey : ∀ ctx shape, shape.Readable → Follows Eq (key' ctx shape) (key ctx shape))
    (hvalue : ∀ ctx shape, shape.Readable → Follows Eq (value' ctx shape) (value ctx shape))
    (hkeyForward : ∀ ctx shape, Decoder.Forward (key ctx shape))
    (hvalueForward : ∀ ctx shape, Decoder.Forward (value ctx shape)) :
    Follows Eq (ofMap type kind key' value' ctx shape : Checked (Dict order β))
      (Decoder.ofMap type kind.gatherer key value ctx shape) := by
  cases shape with
  | map keyShape valueShape head =>
    obtain ⟨hkeyShape, hvalueShape, hhead⟩ := hshape
    refine (Sequence.ofHead_follows hhead).bind fun seq' seq hseq => ?_
    have hentries := entry_follows (fun ctx => hkey ctx keyShape hkeyShape)
      fun ctx => hvalue ctx valueShape hvalueShape
    have hforward := Decoder.Forward.entry (fun ctx => hkeyForward ctx keyShape)
      fun ctx => hvalueForward ctx valueShape
    -- Either way the reservation comes to a number.
    have hreserve : ∃ n, reserve kind seq' ctx
        (cappedAdd keyShape.minLen valueShape.minLen) = .ok n := by
      cases kind with
      | ordered => exact ⟨_, rfl⟩
      | hashed => exact ⟨_, Sequence.capacity_eq_ok hseq⟩
    obtain ⟨n, hreserve⟩ := hreserve
    exact .check hreserve (all_follows hentries hforward hseq)
  | _ => exact .throw

/-- A pointer adds nothing that could fail. -/
theorem ofBox_follows {content' : Context → Shape → Checked α}
    {content : Context → Shape → Decoder α} (hshape : shape.Readable)
    (h : ∀ ctx shape, shape.Readable → Follows Eq (content' ctx shape) (content ctx shape)) :
    Follows Eq (ofBox type content' ctx shape) (Decoder.ofBox type content ctx shape) := by
  cases shape with
  | pointer target => exact h ctx target hshape
  | _ => exact .throw

/-- The flag is read and compared, and then the content is decoded. -/
theorem ofOption_follows {content' : Context → Shape → Checked α}
    {content : Context → Shape → Decoder α} (hshape : shape.Readable)
    (h : ∀ ctx shape, shape.Readable → Follows Eq (content' ctx shape) (content ctx shape)) :
    Follows Eq (ofOption type content' ctx shape) (Decoder.ofOption type content ctx shape) := by
  cases shape with
  | pointer target => exact (h ctx target hshape).map fun x x' hx => congrArg some hx
  | optional target =>
    refine readByte_follows.bind fun flag flag' hflag => ?_
    subst hflag
    split
    · exact .pure rfl
    · split
      · exact (h ctx target hshape).map fun x x' hx => congrArg some hx
      · exact .throw
  | _ => exact .throw

/-- A record adds nothing that could fail. -/
theorem ofRecord_follows {fields' : Context → Shape.Fields → Checked α}
    {fields : Context → Shape.Fields → Decoder α} (hshape : shape.Readable)
    (h : ∀ ctx shapes, shapes.Readable → Follows Eq (fields' ctx shapes) (fields ctx shapes)) :
    Follows Eq (ofRecord type fields' ctx shape) (Decoder.ofRecord type fields ctx shape) := by
  cases shape with
  | record shapes => exact h ctx shapes hshape
  | _ => exact .throw

/-- What a hook claims is compared with what there is before anything is read. -/
theorem ofHook_follows {hook : Hook α} :
    Follows Eq (ofHook hook ctx shape) (Decoder.ofHook hook ctx shape) := by
  cases shape with
  | custom =>
    -- How much is left and what it is are asked for first, in a window that is valid.
    refine .window fun w c hw => .check (remaining_eq_ok hw) (.check (rest_eq_ok hw) ?_)
    cases hook.decode c.rest with
    | error reason => exact .throw
    | ok r =>
      obtain ⟨consumed, x⟩ := r
      simp only
      split
      case isTrue => exact .throw
      case isFalse => exact take_follows.bind fun _ _ _ => .pure rfl
  | _ => exact .throw

end Checked

namespace Schema

open Checked

/-- One field after another, with the position asked for in between. -/
theorem Fields.decodeChecked_cons_follows {info : FieldInfo} {schema : Schema α} {rest : Fields β}
    {ctx : Context} {shapes : Shape.Fields} (hshapes : shapes.Readable)
    (hfield : ∀ ctx shape, shape.Readable →
      Follows Eq (schema.decodeChecked ctx shape) (schema.decode ctx shape))
    (hrest : ∀ ctx shapes, shapes.Readable →
      Follows Eq (rest.decodeChecked ctx shapes) (rest.decode ctx shapes)) :
    Follows Eq ((Fields.cons info schema rest).decodeChecked ctx shapes)
      ((Fields.cons info schema rest).decode ctx shapes) := by
  cases shapes with
  | nil =>
    rw [decodeChecked, decode]
    exact .throw
  | present name directive shape shapes =>
    obtain ⟨hshape, hshapes⟩ := hshapes
    rw [decodeChecked, decode]
    refine .pos fun w => (hfield _ shape hshape).bind fun x x' hx => ?_
    refine (hrest ctx shapes hshapes).bind fun xs xs' hxs => .pure ?_
    rw [hx, hxs]
  | absent name directive shapes =>
    rw [decodeChecked, decode]
    refine (hrest ctx shapes hshapes).bind fun xs xs' hxs => .pure ?_
    rw [hxs]

mutual

/-- Checked decoding has no fault and does what decoding does. -/
theorem decodeChecked_follows : {α : Type} → (schema : Schema α) → (ctx : Context) →
    (shape : Shape) → shape.Readable →
    Follows Eq (schema.decodeChecked ctx shape) (schema.decode ctx shape)
  | _, .uint _, _, _, _ => by
    rw [decodeChecked, decode]
    exact ofUint_follows
  | _, .array _ elem _, _, _, h => by
    rw [decodeChecked, decode]
    exact ofArray_follows h (decodeChecked_follows elem)
  | _, .vector _ elem, _, _, h => by
    rw [decodeChecked, decode]
    exact ofVector_follows h (decodeChecked_follows elem) elem.decode_forward
  | _, .map _ _ _ key value, _, _, h => by
    rw [decodeChecked, decode]
    exact ofMap_follows h (decodeChecked_follows key) (decodeChecked_follows value)
      key.decode_forward value.decode_forward
  | _, .box _ content, _, _, h => by
    rw [decodeChecked, decode]
    exact ofBox_follows h (decodeChecked_follows content)
  | _, .option _ content, _, _, h => by
    rw [decodeChecked, decode]
    exact ofOption_follows h (decodeChecked_follows content)
  | _, .record _ fields _ _, _, _, h => by
    rw [decodeChecked, decode]
    exact ofRecord_follows h (Fields.decodeChecked_follows fields)
  | _, .custom _, _, _, _ => by
    rw [decodeChecked, decode]
    exact ofHook_follows

/-- By induction on the fields. -/
theorem Fields.decodeChecked_follows : {α : Type} → (fields : Fields α) → (ctx : Context) →
    (shapes : Shape.Fields) → shapes.Readable →
    Follows Eq (fields.decodeChecked ctx shapes) (fields.decode ctx shapes)
  | _, .nil, _, _, _ => by
    rw [Fields.decodeChecked, Fields.decode]
    exact .pure rfl
  | _, .cons _ schema rest, _, _, h =>
    Fields.decodeChecked_cons_follows h (Schema.decodeChecked_follows schema)
      (Fields.decodeChecked_follows rest)

end

/-! ## Shapes that schemas resolve to -/

/-- A head that a directive selects is at most three bytes wide. -/
theorem readable_of_head? {d : Directive} {head : Head} (h : d.head? = some head) :
    head.Readable := by
  cases head with
  | fixed width =>
    obtain ⟨_, hlow, hhigh⟩ := Directive.head?_eq_fixed.mp h
    exact ⟨hlow, Nat.le_trans hhigh (by decide)⟩
  | varint => trivial
  | unbounded => trivial

mutual

/-- So whatever a type resolves to is readable, by induction on the schema. -/
theorem readable_of_resolve : {α : Type} → (schema : Schema α) → {d : Directive} →
    {shape : Shape} → schema.resolve d = .ok shape → shape.Readable
  | _, .uint _, _, _, h => by
    obtain ⟨_, rfl⟩ | ⟨_, rfl⟩ := resolve_uint.mp h
    · trivial
    · trivial
  | _, .array _ elem _, _, _, h => by
    obtain ⟨_, _, helem, _, rfl⟩ := resolve_array.mp h
    rw [Shape.Readable]
    exact readable_of_resolve elem helem
  | _, .vector _ elem, _, _, h => by
    obtain ⟨_, _, hhead, helem, _, rfl⟩ := resolve_vector.mp h
    exact ⟨readable_of_resolve elem helem, readable_of_head? hhead⟩
  | _, .map _ _ _ key value, _, _, h => by
    obtain ⟨_, _, _, hhead, hkey, _, hvalue, _, rfl⟩ := resolve_map.mp h
    exact ⟨readable_of_resolve key hkey, readable_of_resolve value hvalue,
      readable_of_head? hhead⟩
  | _, .box _ content, _, _, h => by
    obtain ⟨_, _, hcontent, rfl⟩ := resolve_box.mp h
    rw [Shape.Readable]
    exact readable_of_resolve content hcontent
  | _, .option _ content, _, _, h => by
    obtain ⟨_, _, hcontent, rfl⟩ | ⟨_, _, hcontent, rfl⟩ := resolve_option.mp h
    · rw [Shape.Readable]
      exact readable_of_resolve content hcontent
    · rw [Shape.Readable]
      exact readable_of_resolve content hcontent
  | _, .record _ fields _ _, _, _, h => by
    obtain ⟨_, _, hfields, _, rfl⟩ := resolve_record.mp h
    exact Fields.readable_of_resolve fields hfields
  | _, .custom _, _, _, h => by
    obtain ⟨_, rfl⟩ := resolve_custom.mp h
    trivial

/-- The fields that are on the wire are readable. -/
theorem Fields.readable_of_resolve : {α : Type} → (fields : Fields α) → {shapes : Shape.Fields} →
    fields.resolve = .ok shapes → shapes.Readable
  | _, .nil, _, h => by
    rw [Fields.resolve_nil.mp h]
    trivial
  | _, .cons _ schema rest, _, h => by
    obtain ⟨_, _, hrest, rfl⟩ | ⟨_, _, _, hshape, hrest, rfl⟩ := Fields.resolve_cons.mp h
    · rw [Shape.Fields.Readable]
      exact Fields.readable_of_resolve rest hrest
    · exact ⟨Schema.readable_of_resolve schema hshape, Fields.readable_of_resolve rest hrest⟩

end

/-! ## Whole inputs -/

variable {schema : Schema α} {d : Directive} {config : Config} {data : Bytes}

/-- What is reported as consumed has been there. -/
theorem consumed_le {n : Nat} {x : α} (h : schema.unmarshalWith d config data = .ok (n, x)) :
    n ≤ data.length := by
  obtain ⟨shape, hresolve⟩ := resolve_of_unmarshalWith h
  obtain ⟨c, hrun, rfl⟩ := (unmarshalWith_ok hresolve).mp h
  -- The cursor has moved forwards over bytes of the input.
  obtain ⟨b, hadv⟩ := (schema.decode_forward _ shape).advances hrun
  obtain ⟨hlen, hdata⟩ := Cursor.advances_ofBytes hadv
  rw [hlen, hdata, List.length_append]
  exact Nat.le_add_right _ _

/-- Decoding itself never finds that something is left. -/
theorem unmarshalWith_ne_trailing {consumed length : Nat} :
    schema.unmarshalWith d config data ≠ .error (.trailing consumed length) := by
  intro h
  cases hresolve : schema.resolve d with
  | error e =>
    rw [unmarshalWith, hresolve] at h
    cases h
  | ok shape =>
    obtain ⟨c, hrun⟩ := (unmarshalWith_error hresolve).mp h
    -- Every error of a decoder says where it was met, and this one does not.
    have hends := schema.decode_forward (.top config) shape (.ofBytes data)
    rw [hrun] at hends
    cases hends with
    | error _ hlocated => exact hlocated

/-- What is left over is reported with the numbers of bytes that were read and that there are. -/
theorem trailing_le {consumed length : Nat}
    (h : schema.unmarshalExact data = .error (.trailing consumed length)) :
    consumed ≤ length ∧ length = data.length := by
  rw [unmarshalExact, Except.bind_error] at h
  rcases h with h | ⟨⟨n, x⟩, hrun, h⟩
  · exact absurd h unmarshalWith_ne_trailing
  · simp only at h
    split at h
    case isTrue => cases h
    case isFalse =>
      cases h
      exact ⟨consumed_le hrun, rfl⟩

/-- Whatever the shape, the hooks and the bytes: decoding has no fault, and the cursor ends neither
before where it was nor behind its scope. What is reported as consumed is there, and a loop comes to
an end because each of its elements uses up content. -/
theorem decode_safe (schema : Schema α) {shape : Shape}
    (hshape : (∃ d, schema.resolve d = .ok shape) ∨ shape.Readable) :
    (∀ (ctx : Context) (w : Window), w.Valid →
      ∃ r w', schema.decodeChecked ctx shape w = .ok (r, w') ∧ w.pos ≤ w'.pos ∧ w'.pos ≤ w.stop ∧
        schema.decode ctx shape w.cursor = Decoder.ofExcept r w'.cursor) ∧
    (∀ d config data n x, schema.unmarshalWith d config data = .ok (n, x) → n ≤ data.length) ∧
    (∀ data n x, schema.unmarshal data = .ok (n, x) → n ≤ data.length) ∧
    (∀ data target n, (schema.unmarshalInto data target).1 = .ok n → n ≤ data.length) ∧
    (∀ data consumed length, schema.unmarshalExact data = .error (.trailing consumed length) →
      consumed ≤ length ∧ length = data.length) ∧
    ∀ (β : Type) (ctx : Context) (elem : Context → Decoder β) (seq : Sequence),
      (∀ b seq', Sequence.next ctx elem seq = .ok (some b) seq' →
        seq'.scope.remaining < seq.scope.remaining) ∧
      ∃ bs last, Sequence.Yields ctx elem seq bs last ∧ bs.length ≤ seq.scope.remaining ∧
        ∀ b seq', Sequence.next ctx elem last ≠ .ok (some b) seq' := by
  refine ⟨fun ctx w hw => ?_, fun _ _ _ _ _ h => consumed_le h, fun _ _ _ h => consumed_le h,
    fun data target n h => ?_, fun _ _ _ h => trailing_le h, fun β ctx elem seq => ⟨?_, ?_⟩⟩
  -- Shapes of types are readable, and others are taken as such.
  · have hreadable : shape.Readable := by
      obtain ⟨d, hresolve⟩ | hreadable := hshape
      · exact schema.readable_of_resolve hresolve
      · exact hreadable
    exact (schema.decodeChecked_follows ctx shape hreadable).exists_end
      (schema.decode_forward ctx shape) hw
  · unfold unmarshalInto at h
    cases hrun : schema.unmarshal data with
    | error e =>
      rw [hrun] at h
      cases h
    | ok r =>
      rw [hrun] at h
      cases h
      exact consumed_le hrun
  · exact fun _ _ => Sequence.remaining_lt_of_next
  -- The loop ends where no element follows, which is after as many as there are bytes at most.
  · obtain ⟨bs, last, hrun, hlast⟩ := Sequence.exists_yields ctx elem seq
    have hlength := hrun.length_le
    exact ⟨bs, last, hrun, by omega, hlast⟩

/-- A head of eight bytes, which no directive selects, before two bytes for a hook that claims
three. The claim is refused, and the cursor is where the declared content ends. -/
theorem decode_safe_liar :
    let schema : Schema (List Unit) := .vector "Vec<Liar>" (.custom .liar)
    let shape : Shape := .vector .custom (.fixed 8)
    let w : Window := .ofBytes [0, 0, 0, 0, 0, 0, 0, 2, 5, 6, 7]
    shape.Readable ∧ w.Valid ∧
      ∃ w', schema.decodeChecked (.top {}) shape w =
        .ok (.error (.hookOverrun [⟨"[]", 8⟩] 3 2), w') ∧ w'.pos = 10 ∧ w'.pos ≤ w.stop := by
  intro schema shape w
  have hshape : shape.Readable := ⟨trivial, by decide, by decide⟩
  have hw : w.Valid := Window.valid_ofBytes _
  obtain ⟨r, w', hrun, -, hstop, hplain⟩ := (schema.decode_safe (.inr hshape)).1 (.top {}) w hw
  -- The hook is given the two bytes of the content and claims three.
  have hrefused : schema.decode (.top {}) shape w.cursor =
      .error (.hookOverrun [⟨"[]", 8⟩] 3 2) ⟨[7], 0, 10, 1, rfl⟩ := by
    have hframed : Head.fixed 8 ≠ .unbounded := nofun
    have hfront : Head.Form (.fixed 8) [5, (6 : UInt8)].length [0, 0, 0, 0, 0, 0, 0, 2] :=
      .fixed (by decide)
    have hadv : w.cursor.Advances ([0, 0, 0, 0, 0, 0, 0, 2] ++ [5, 6]) ⟨[7], 0, 10, 1, rfl⟩ :=
      ⟨rfl, rfl, rfl⟩
    show (vector "Vec<Liar>" (custom .liar)).decode (.top {}) (.vector .custom (.fixed 8)) _ = _
    rw [decode, Decoder.ofVector, Decoder.ofHead_bind hframed hfront hadv, Sequence.fold_eq]
    rfl
  rw [hrefused] at hplain
  cases r with
  | ok xs => cases hplain
  | error e =>
    obtain ⟨rfl, hcursor⟩ := EStateM.Result.error.inj hplain
    -- The checked run ends in the same place as the plain one.
    have hpos : w'.pos = 10 := by rw [← Window.pos_cursor, ← hcursor]; rfl
    exact ⟨hshape, hw, w', hrun, hpos, hstop⟩

end Schema

end TlsWire
