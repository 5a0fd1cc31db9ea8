import TlsWire.Proofs.Encode.Append
import TlsWire.Proofs.Pieces
import TlsWire.Proofs.Run

/-!
# What encoders write on their own

The outcome of an encoder on a buffer of its own, computed from the outcomes of its parts. Parts
that are run one after another write their bytes back to back (`standalone_bind_ok`, `each_ok`), and
a head comes before content that is complete (`standalone_framed`). An error of the whole is an
error of a part, of the head, or of the arrangement of entries.
-/

namespace TlsWire

variable {α β κ : Type}

namespace Encoder

@[simp] theorem standalone_pure : standalone (pure ()) = .ok [] := rfl

@[simp] theorem standalone_throw {e : EncodeError} : standalone (throw e) = .error e := rfl

@[simp] theorem standalone_append {bytes : Bytes} : standalone (append bytes) = .ok bytes := by
  show Except.ok (#[] ++ bytes.toArray).toList = .ok bytes
  rw [Array.empty_append]

@[simp] theorem standalone_emit {r : Except EncodeError Bytes} : standalone (emit r) = r := by
  cases r with
  | error e => exact standalone_throw
  | ok bytes => exact standalone_append

/-- The second encoder does not see what the first one has written. -/
theorem standalone_bind {d e : Encoder Unit} (he : AppendsOnly e) :
    standalone (d >>= fun _ => e) = (do
      let b ← d.standalone
      let b' ← e.standalone
      return b ++ b') := by
  have hrun : (d >>= fun _ => e).run #[] = EStateM.bind d (fun _ => e) #[] := rfl
  unfold standalone
  rw [hrun, EStateM.bind, EStateM.run, EStateM.run]
  cases d #[] with
  | error err out => rfl
  | ok _ out =>
    simp only
    -- The second one starts behind what the first has written, and appends as it would to nothing.
    rw [he out]
    cases e #[] with
    | error err out' => rfl
    | ok _ out' =>
      show Except.ok (out ++ out').toList = .ok (out.toList ++ out'.toList)
      rw [Array.toList_append]

/-- The forms of both stand one behind the other. -/
theorem standalone_bind_ok {d e : Encoder Unit} (he : AppendsOnly e) {b : Bytes} :
    standalone (d >>= fun _ => e) = .ok b ↔
      ∃ p t, d.standalone = .ok p ∧ e.standalone = .ok t ∧ b = p ++ t := by
  rw [standalone_bind he]
  simp only [Except.bind_ok, Except.pure_ok]
  constructor
  · rintro ⟨p, hp, t, ht, rfl⟩
    exact ⟨p, t, hp, ht, rfl⟩
  · rintro ⟨p, t, hp, ht, rfl⟩
    exact ⟨p, hp, t, ht, rfl⟩

/-- An error is that of the first encoder, or that of the second behind a form of the first. -/
theorem standalone_bind_error {d e : Encoder Unit} (he : AppendsOnly e) {err : EncodeError} :
    standalone (d >>= fun _ => e) = .error err ↔
      d.standalone = .error err ∨ ∃ p, d.standalone = .ok p ∧ e.standalone = .error err := by
  rw [standalone_bind he]
  simp only [Except.bind_error, Except.pure_ne_error, and_false, exists_false, or_false]

/-! ## Several items -/

/-- Items that are run one after another write the pieces that each of them writes on its own. -/
theorem each_ok {encode : α → Encoder Unit} (h : ∀ x, AppendsOnly (encode x)) {xs : List α}
    {b : Bytes} :
    (each encode xs).standalone = .ok b ↔
      Pieces (fun x p => (encode x).standalone = .ok p) xs b := by
  -- By induction on the items, for every run of bytes.
  induction xs generalizing b with
  | nil =>
    rw [each, standalone_pure, Except.ok.injEq, Pieces.nil_iff, eq_comm]
  | cons x xs ih =>
    rw [each, standalone_bind_ok (.each h xs), Pieces.cons_iff]
    simp only [ih]
    constructor
    · rintro ⟨p, t, hp, ht, rfl⟩
      exact ⟨p, t, rfl, hp, ht⟩
    · rintro ⟨p, t, rfl, hp, ht⟩
      exact ⟨p, t, hp, ht, rfl⟩

/-- An error among items is the error of one of them. -/
theorem exists_of_each_error {encode : α → Encoder Unit} (h : ∀ x, AppendsOnly (encode x))
    {xs : List α} {e : EncodeError} (hrun : (each encode xs).standalone = .error e) :
    ∃ x ∈ xs, (encode x).standalone = .error e := by
  induction xs with
  | nil =>
    rw [each, standalone_pure] at hrun
    cases hrun
  | cons x xs ih =>
    rw [each, standalone_bind_error (.each h xs)] at hrun
    rcases hrun with hx | ⟨_, _, hxs⟩
    · exact ⟨x, List.mem_cons_self, hx⟩
    · obtain ⟨y, hy, herr⟩ := ih hxs
      exact ⟨y, List.mem_cons_of_mem _ hy, herr⟩

/-! ## Heads -/

/-- The content comes first, since its length is in the head. -/
theorem standalone_framed {h : Head} {content : Encoder Unit} :
    (framed h content).standalone = (do
      let body ← content.standalone
      let front ← (head h body.length).standalone
      return front ++ body) := by
  cases h with
  | unbounded =>
    -- Such content is not staged, which cannot be seen in what is written.
    show content.standalone = _
    cases content.standalone <;> rfl
  | _ =>
    unfold framed
    simp only
    cases content.standalone with
    -- Content that fails is never put behind a head.
    | error e => rfl
    | ok body =>
      simp only
      rw [standalone_bind .append, standalone_append]
      rfl

/-- An error of a frame is that of the content, or that of a head that cannot state its length. -/
theorem framed_error {h : Head} {content : Encoder Unit} {err : EncodeError} :
    (framed h content).standalone = .error err ↔
      content.standalone = .error err ∨
        ∃ body, content.standalone = .ok body ∧ (head h body.length).standalone = .error err := by
  rw [standalone_framed]
  simp only [Except.bind_error, Except.pure_ne_error, and_false, exists_false, or_false]

/-- A frame is a head that states the length of the content, and the content. -/
theorem framed_ok {h : Head} {content : Encoder Unit} {b : Bytes} :
    (framed h content).standalone = .ok b ↔
      ∃ front body, content.standalone = .ok body ∧
        (head h body.length).standalone = .ok front ∧ b = front ++ body := by
  rw [standalone_framed]
  simp only [Except.bind_ok, Except.pure_ok]
  constructor
  · rintro ⟨body, hbody, front, hfront, rfl⟩
    exact ⟨front, body, hbody, hfront, rfl⟩
  · rintro ⟨front, body, hbody, hfront, rfl⟩
    exact ⟨body, hbody, front, hfront, rfl⟩

/-! ## Kinds of types -/

section Kinds

variable {type : String} {content : Shape → α → Encoder Unit} {target : Shape} {x : α}

/-- A value that is there stands behind a one. -/
theorem ofOption_some_ok (happend : AppendsOnly (content target x)) {b : Bytes} :
    (ofOption type content (.optional target) (some x)).standalone = .ok b ↔
      ∃ p, (content target x).standalone = .ok p ∧ b = 1 :: p := by
  rw [ofOption, standalone_bind_ok happend, standalone_append]
  constructor
  · rintro ⟨_, p, ⟨⟩, hp, rfl⟩
    exact ⟨p, hp, rfl⟩
  · rintro ⟨p, hp, rfl⟩
    exact ⟨[1], p, rfl, hp, rfl⟩

/-- The flag is always written, so an error is that of the content. -/
theorem ofOption_some_error (happend : AppendsOnly (content target x)) {err : EncodeError} :
    (ofOption type content (.optional target) (some x)).standalone = .error err ↔
      (content target x).standalone = .error err := by
  rw [ofOption, standalone_bind_error happend, standalone_append]
  simp

/-- A record looks at its value before it looks at the shape. Along a shape of another kind nothing
is written either way. -/
theorem exists_shapes_of_ofRecord {validate : α → Except String Unit}
    {fields : Shape.Fields → α → Encoder Unit} {shape : Shape} {b : Bytes}
    (h : (ofRecord type validate fields shape x).standalone = .ok b) :
    ∃ shapes, shape = .record shapes := by
  unfold ofRecord at h
  cases hvalidate : validate x with
  | error reason =>
    rw [hvalidate] at h
    cases h
  | ok _ =>
    rw [hvalidate] at h
    cases shape with
    | record shapes => exact ⟨shapes, rfl⟩
    | _ => cases h

/-- A record is written if it is accepted, and as its fields are. -/
theorem ofRecord_ok {validate : α → Except String Unit}
    {fields : Shape.Fields → α → Encoder Unit} {shapes : Shape.Fields} {b : Bytes} :
    (ofRecord type validate fields (.record shapes) x).standalone = .ok b ↔
      validate x = .ok () ∧ (fields shapes x).standalone = .ok b := by
  unfold ofRecord
  cases validate x with
  | error reason => simp
  | ok _ => simp

end Kinds

end Encoder

namespace Schema

variable {info : FieldInfo} {schema : Schema α} {rest : Fields β} {name : String}
  {directive : Directive} {shape : Shape} {shapes : Shape.Fields} {x : α} {xs : β}

/-- A present field is written in front of the others. -/
theorem Fields.encode_present_ok {b : Bytes} :
    ((Fields.cons info schema rest).encode (.present name directive shape shapes)
        (x, xs)).standalone = .ok b ↔
      ∃ p t, (schema.encode shape x).standalone = .ok p ∧
        (rest.encode shapes xs).standalone = .ok t ∧ b = p ++ t := by
  rw [Fields.encode]
  exact Encoder.standalone_bind_ok (rest.encode_appendsOnly shapes xs)

/-- An error of the fields is that of the first, or one of the others behind a form of the first.
-/
theorem Fields.encode_present_error {err : EncodeError} :
    ((Fields.cons info schema rest).encode (.present name directive shape shapes)
        (x, xs)).standalone = .error err ↔
      (schema.encode shape x).standalone = .error err ∨
        ∃ p, (schema.encode shape x).standalone = .ok p ∧
          (rest.encode shapes xs).standalone = .error err := by
  rw [Fields.encode]
  exact Encoder.standalone_bind_error (rest.encode_appendsOnly shapes xs)

end Schema

end TlsWire
