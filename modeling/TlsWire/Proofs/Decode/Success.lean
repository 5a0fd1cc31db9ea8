import TlsWire.Proofs.Decode.Elements
import TlsWire.Proofs.Dict

/-!
# When decoding succeeds

For every kind of type, exactly when its decoder succeeds: the shape fits, and the parts are decoded
one after another. Later proofs use these facts and do not open the decoders again.
-/

namespace TlsWire

namespace Decoder

variable {α β κ : Type} {ctx : Context} {shape : Shape} {c c' : Cursor}

/-- A number that has been read is handed on as it is, or refused if the type has no room for it.
-/
theorem narrow_ok {t : UintType} {reader : Cursor → Except Truncated (Nat × Cursor)}
    {n : BitVec t.bits} :
    ofUint.narrow t ctx reader c = .ok n c' ↔ reader c = .ok (n.toNat, c') := by
  -- The check admits what the type has room for, so nothing is cut off.
  have hrange : byteRange t.bytes = 2 ^ t.bits := by cases t <;> rfl
  rw [ofUint.narrow]
  simp only [bind_ok, read_ok]
  constructor
  · rintro ⟨m, c₁, hread, hrun⟩
    split at hrun
    case isTrue hlt =>
      obtain ⟨rfl, rfl⟩ := pure_ok.mp hrun
      rwa [BitVec.toNat_ofNat, Nat.mod_eq_of_lt (hrange ▸ hlt)]
    case isFalse => exact absurd hrun throw_ne_ok
  · intro hread
    refine ⟨n.toNat, c', hread, ?_⟩
    rw [if_pos (hrange ▸ n.isLt), pure_ok]
    exact ⟨BitVec.ofNat_toNat t.bits n ▸ by simp, rfl⟩

/-- A number is decoded exactly when a form of it is in front of the cursor. -/
theorem ofUint_ok {t : UintType} {n : BitVec t.bits} :
    ofUint t ctx shape c = .ok n c' ↔
      ∃ b, WireForm.OfUint t shape n.toNat b ∧ c.Advances b c' := by
  have hrange : n.toNat < byteRange t.bytes := by
    have hlt := n.isLt
    cases t <;> exact hlt
  -- The two shapes of numbers, then every other one, which is a mismatch.
  cases shape with
  | integer bits =>
    simp only [ofUint, narrow_ok, Uint.decode_ok]
    constructor
    · rintro ⟨_, hadv⟩
      exact ⟨_, .integer, hadv⟩
    · rintro ⟨_, ⟨⟩, hadv⟩
      exact ⟨hrange, hadv⟩
  | varint bits =>
    simp only [ofUint, narrow_ok, Varint.decode_ok]
    constructor
    · rintro ⟨b, hform, hadv⟩
      exact ⟨b, .varint hform, hadv⟩
    · rintro ⟨b, ⟨⟩ | hform, hadv⟩
      exact ⟨b, hform, hadv⟩
  | _ =>
    constructor
    · intro h
      exact absurd h throw_ne_ok
    · rintro ⟨_, ⟨⟩, _⟩

/-- An array is decoded exactly when its shape has the length of the type and the items are there.
-/
theorem ofArray_ok {type : String} {elem : Context → Shape → Decoder α} {length : Nat}
    {xs : Tuple α length} :
    ofArray type elem length ctx shape c = .ok xs c' ↔
      ∃ elemShape, shape = .array elemShape length ∧
        Items ctx (fun ctx => elem ctx elemShape) c xs.val c' := by
  cases shape with
  | array elemShape shapeLength =>
    rw [ofArray]
    split
    case isTrue h =>
      subst h
      rw [items_ok]
      constructor
      · intro hrun
        exact ⟨elemShape, rfl, hrun⟩
      · rintro ⟨_, heq, hrun⟩
        cases heq
        exact hrun
    case isFalse h =>
      -- An array of another length is refused before anything is read.
      constructor
      · intro hrun
        exact absurd hrun throw_ne_ok
      · rintro ⟨_, heq, _⟩
        cases heq
        exact absurd rfl h
  | _ =>
    constructor
    · intro h
      exact absurd h throw_ne_ok
    · rintro ⟨_, heq, _⟩
      cases heq

/-- Elements are collected latest first. -/
theorem foldlM_cons_ok {xs acc r : List α} :
    xs.foldlM (fun acc x => (.ok (x :: acc) : Except DecodeError (List α))) acc = .ok r ↔
      r = xs.reverse ++ acc := by
  -- By induction on the elements, for every list of those collected before.
  induction xs generalizing acc with
  | nil => rw [List.foldlM_nil, Except.pure_ok, eq_comm, List.reverse_nil, List.nil_append]
  | cons x xs ih =>
    rw [List.foldlM_cons, Except.bind_ok]
    simp only [Except.ok.injEq, exists_eq_left', ih, List.reverse_cons, List.append_assoc,
      List.singleton_append]

/-- A vector is decoded exactly when its head is, and elements fill the scope that the head gives.
-/
theorem ofVector_ok {type : String} {elem : Context → Shape → Decoder α} {xs : List α} :
    ofVector type elem ctx shape c = .ok xs c' ↔
      ∃ elemShape head seq, shape = .vector elemShape head ∧
        Sequence.ofHead ctx head c = .ok seq c' ∧
        Elements ctx (fun ctx => elem ctx elemShape) seq.count seq.scope xs := by
  cases shape with
  | vector elemShape head =>
    simp only [ofVector, bind_ok, pure_ok, ofExcept_ok, Sequence.fold_ok, foldlM_cons_ok,
      List.append_nil]
    constructor
    -- The collected list is turned around at the end.
    · rintro ⟨seq, _, hhead, _, _, ⟨⟨as, hrun, rfl⟩, rfl⟩, hrev, rfl⟩
      rw [List.reverse_reverse] at hrev
      exact ⟨elemShape, head, seq, rfl, hhead, hrev ▸ hrun⟩
    · rintro ⟨_, _, seq, heq, hhead, hrun⟩
      cases heq
      exact ⟨seq, c', hhead, _, c', ⟨⟨xs, hrun, rfl⟩, rfl⟩, List.reverse_reverse xs, rfl⟩
  | _ =>
    constructor
    · intro h
      exact absurd h throw_ne_ok
    · rintro ⟨_, _, _, heq, _⟩
      cases heq

/-- An entry is its key followed by its value. -/
theorem entry_ok {key : Context → Decoder κ} {value : Context → Decoder β} {e : κ × β} :
    entry key value ctx c = .ok e c' ↔
      ∃ c₁, key ctx c = .ok e.1 c₁ ∧ value ctx c₁ = .ok e.2 c' := by
  simp only [entry, bind_ok, pure_ok]
  constructor
  · rintro ⟨k, c₁, hkey, v, _, hvalue, rfl, rfl⟩
    exact ⟨c₁, hkey, hvalue⟩
  · rintro ⟨c₁, hkey, hvalue⟩
    exact ⟨e.1, c₁, hkey, e.2, c', hvalue, rfl, rfl⟩

/-- A map is decoded exactly when entries fill the scope, in any order and without a repeated key.
Which container gathers them makes no difference. -/
theorem ofMap_ok {order : KeyOrder κ} {type : String} {kind : MapKind}
    {key : Context → Shape → Decoder κ} {value : Context → Shape → Decoder β}
    {dict : Dict order β} :
    ofMap type kind.gatherer key value ctx shape c = .ok dict c' ↔
      ∃ keyShape valueShape head seq es, shape = .map keyShape valueShape head ∧
        Sequence.ofHead ctx head c = .ok seq c' ∧
        Elements ctx (entry (fun ctx => key ctx keyShape) fun ctx => value ctx valueShape)
          seq.count seq.scope es ∧ es.Perm dict.entries := by
  cases shape with
  | map keyShape valueShape head =>
    simp only [ofMap, bind_ok, pure_ok, ofExcept_ok, Sequence.fold_ok]
    constructor
    · rintro ⟨seq, _, hhead, s, _, ⟨⟨es, hrun, hgather⟩, rfl⟩, hfinish, rfl⟩
      exact ⟨_, _, head, seq, es, rfl, hhead, hrun, kind.gather_ok.mp ⟨s, hgather, hfinish⟩⟩
    · rintro ⟨_, _, _, seq, es, heq, hhead, hrun, hperm⟩
      cases heq
      obtain ⟨s, hgather, hfinish⟩ := kind.gather_ok.mpr hperm
      exact ⟨seq, c', hhead, s, c', ⟨⟨es, hrun, hgather⟩, rfl⟩, hfinish, rfl⟩
  | _ =>
    constructor
    · intro h
      exact absurd h throw_ne_ok
    · rintro ⟨_, _, _, _, _, heq, _⟩
      cases heq

/-- A pointer has nothing of its own on the wire. -/
theorem ofBox_ok {type : String} {content : Context → Shape → Decoder α} {x : α} :
    ofBox type content ctx shape c = .ok x c' ↔
      ∃ target, shape = .pointer target ∧ content ctx target c = .ok x c' := by
  cases shape with
  | pointer target => simp [ofBox]
  | _ => simp [ofBox, throw_ne_ok]

/-- An option is a zero, or a one with its content behind it. Along a pointer its content is all
there is. -/
theorem ofOption_ok {type : String} {content : Context → Shape → Decoder α} {x : Option α} :
    ofOption type content ctx shape c = .ok x c' ↔
      (∃ target, shape = .optional target ∧ x = none ∧ c.Advances [0] c') ∨
      (∃ target y c₁, shape = .optional target ∧ x = some y ∧ c.Advances [1] c₁ ∧
        content ctx target c₁ = .ok y c') ∨
      (∃ target y, shape = .pointer target ∧ x = some y ∧ content ctx target c = .ok y c') := by
  cases shape with
  | pointer target =>
    simp only [ofOption, map_ok]
    constructor
    · rintro ⟨y, hrun, rfl⟩
      exact .inr (.inr ⟨target, y, rfl, rfl, hrun⟩)
    · rintro (⟨_, heq, _⟩ | ⟨_, _, _, heq, _⟩ | ⟨_, y, heq, rfl, hrun⟩)
      · cases heq
      · cases heq
      · cases heq
        exact ⟨y, hrun, rfl⟩
  | optional target =>
    simp only [ofOption, bind_ok, read_ok, Cursor.readByte_ok]
    constructor
    · rintro ⟨flag, c₁, hflag, hrun⟩
      -- A flag is zero, one, or refused.
      split at hrun
      case isTrue h0 =>
        obtain ⟨rfl, rfl⟩ := pure_ok.mp hrun
        exact .inl ⟨target, rfl, rfl, h0 ▸ hflag⟩
      case isFalse =>
        split at hrun
        case isTrue h1 =>
          obtain ⟨y, hcontent, rfl⟩ := map_ok.mp hrun
          exact .inr (.inl ⟨target, y, c₁, rfl, rfl, h1 ▸ hflag, hcontent⟩)
        case isFalse => exact absurd hrun throw_ne_ok
    · rintro (⟨_, heq, rfl, hflag⟩ | ⟨_, y, c₁, heq, rfl, hflag, hrun⟩ | ⟨_, _, heq, _⟩)
      · exact ⟨0, c', hflag, pure_ok.mpr ⟨rfl, rfl⟩⟩
      · cases heq
        exact ⟨1, c₁, hflag, map_ok.mpr ⟨y, hrun, rfl⟩⟩
      · cases heq
  | _ => simp [ofOption, throw_ne_ok]

/-- A record adds nothing to its fields. -/
theorem ofRecord_ok {type : String} {fields : Context → Shape.Fields → Decoder α} {x : α} :
    ofRecord type fields ctx shape c = .ok x c' ↔
      ∃ shapes, shape = .record shapes ∧ fields ctx shapes c = .ok x c' := by
  cases shape with
  | record shapes => simp [ofRecord]
  | _ => simp [ofRecord, throw_ne_ok]

/-- A hook is given all that remains, and the cursor moves over as much as the hook has used. -/
theorem ofHook_ok {hook : Hook α} {x : α} :
    ofHook hook ctx shape c = .ok x c' ↔
      ∃ b, shape = .custom ∧ hook.decode c.rest = .ok (b.length, x) ∧ c.Advances b c' := by
  cases shape with
  | custom =>
    simp only [ofHook, bind_ok, cursor_ok]
    constructor
    · rintro ⟨_, _, ⟨rfl, rfl⟩, hrun⟩
      cases hdecode : hook.decode c.rest with
      | error reason =>
        rw [hdecode] at hrun
        exact absurd hrun throw_ne_ok
      | ok r =>
        obtain ⟨consumed, y⟩ := r
        rw [hdecode] at hrun
        simp only at hrun
        split at hrun
        -- A hook that has used more than there is fails.
        case isTrue => exact absurd hrun throw_ne_ok
        case isFalse =>
          simp only [bind_ok, read_ok, pure_ok] at hrun
          obtain ⟨b, _, htake, rfl, rfl⟩ := hrun
          obtain ⟨hadv, rfl⟩ := Cursor.take_ok.mp htake
          exact ⟨b, trivial, rfl, hadv⟩
    · rintro ⟨b, _, hdecode, hadv⟩
      refine ⟨c, c, ⟨rfl, rfl⟩, ?_⟩
      -- What the cursor can move over is no more than what remains.
      have hwithin : ¬ c.remaining < b.length := by
        rw [hadv.remaining]
        omega
      simp only [hdecode, hwithin, if_false, bind_ok, read_ok, pure_ok]
      exact ⟨b, c', Cursor.take_ok.mpr ⟨hadv, rfl⟩, trivial, rfl⟩
  | _ => simp [ofHook, throw_ne_ok]

end Decoder

namespace Schema

variable {α β : Type} {ctx : Context} {c c' : Cursor} {info : FieldInfo} {schema : Schema α}
  {rest : Fields β}

/-- A field that is present is decoded before the others, one that is absent takes its default. -/
theorem Fields.decode_ok {shapes : Shape.Fields} {x : α × β} :
    (Fields.cons info schema rest).decode ctx shapes c = .ok x c' ↔
      (∃ name directive shape restShapes c₁, shapes = .present name directive shape restShapes ∧
        schema.decode (ctx.push name c.pos) shape c = .ok x.1 c₁ ∧
        rest.decode ctx restShapes c₁ = .ok x.2 c') ∨
      (∃ name directive restShapes, shapes = .absent name directive restShapes ∧
        x.1 = schema.default ∧ rest.decode ctx restShapes c = .ok x.2 c') := by
  cases shapes with
  | nil => simp [Fields.decode, Decoder.throw_ne_ok]
  | present name directive shape restShapes =>
    simp only [Fields.decode, Decoder.bind_ok, Decoder.pure_ok, Decoder.pos_ok]
    constructor
    -- The cursor is only looked at to note where the field starts.
    · rintro ⟨_, _, ⟨rfl, rfl⟩, y, c₁, hfield, ys, _, hrest, rfl, rfl⟩
      exact .inl ⟨name, directive, shape, restShapes, c₁, rfl, hfield, hrest⟩
    · rintro (⟨_, _, _, _, c₁, heq, hfield, hrest⟩ | ⟨_, _, _, heq, _⟩)
      · cases heq
        exact ⟨_, c, ⟨rfl, rfl⟩, x.1, c₁, hfield, x.2, c', hrest, rfl, rfl⟩
      · cases heq
  | absent name directive restShapes =>
    simp only [Fields.decode, Decoder.bind_ok, Decoder.pure_ok]
    constructor
    · rintro ⟨ys, _, hrest, rfl, rfl⟩
      exact .inr ⟨name, directive, restShapes, rfl, rfl, hrest⟩
    · rintro (⟨_, _, _, _, _, heq, _⟩ | ⟨_, _, _, heq, hdefault, hrest⟩)
      · cases heq
      · cases heq
        exact ⟨x.2, c', hrest, Prod.ext hdefault.symm rfl, rfl⟩

end Schema

end TlsWire
