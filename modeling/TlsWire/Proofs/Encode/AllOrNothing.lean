import TlsWire.Proofs.Encode.Append

/-!
# Encoders that fail without a trace

An encoder that fails leaves its buffer as far as it got. The items of an array and the fields of a
record are written one by one, and a presence flag before the value it announces, so an error in one
of them leaves what is in front of it. Where content is staged this happens to the stage and not to
the buffer: nothing is written before the whole form is known, and then nothing can fail any more
(`AllOrNothing`).

`AllOrNothing.framed` says so of any content at all, hence of frames inside frames.
`Schema.encode_allOrNothing` adds which types are written in this way along which shapes
(`Schema.Staged`): vectors behind a head, maps with or without one, numbers, hooks, and these behind
an indirection.
-/

namespace TlsWire

variable {α β κ : Type}

namespace Encoder

/-- Where the encoder fails, the buffer is what it was. -/
def AllOrNothing (encoder : Encoder Unit) : Prop :=
  ∀ dst e out, encoder dst = .error e out → out = dst

theorem AllOrNothing.throw {e : EncodeError} : AllOrNothing (throw e) := by
  intro dst e' out hrun
  cases hrun
  rfl

/-- After the last check there are only bytes to append. -/
theorem AllOrNothing.bind {d e : Encoder Unit} (hd : AllOrNothing d)
    (he : ∀ dst, ∃ out, e dst = .ok () out) : AllOrNothing (d >>= fun _ => e) := by
  intro dst err out hrun
  change EStateM.bind d (fun _ => e) dst = .error err out at hrun
  unfold EStateM.bind at hrun
  cases hfirst : d dst with
  -- Past the first encoder there is no error to speak of.
  | ok u mid =>
    obtain ⟨out', hsecond⟩ := he mid
    rw [hfirst] at hrun
    cases hsecond.symm.trans hrun
  | error err' mid =>
    rw [hfirst] at hrun
    cases hrun
    exact hd dst err out hfirst

/-- An encoder that never fails has nothing to undo. -/
theorem AllOrNothing.of_total {e : Encoder Unit} (he : ∀ dst, ∃ out, e dst = .ok () out) :
    AllOrNothing e := by
  intro dst err out hrun
  obtain ⟨out', hok⟩ := he dst
  cases hok.symm.trans hrun

theorem append_total (bytes : Bytes) (dst : Buffer) : ∃ out, append bytes dst = .ok () out :=
  ⟨_, rfl⟩

theorem each_append_total (es : List EncodedEntry) (dst : Buffer) :
    ∃ out, each (fun e => append e.bytes) es dst = .ok () out := by
  induction es generalizing dst with
  | nil => exact ⟨dst, rfl⟩
  | cons e es ih => exact ih (dst ++ e.bytes.toArray)

/-- Either the whole form is appended or none of it. -/
theorem AllOrNothing.emit {r : Except EncodeError Bytes} : AllOrNothing (emit r) := by
  cases r with
  | error e => exact .throw
  | ok bytes => exact .of_total (append_total bytes)

theorem AllOrNothing.head {h : Head} {length : Nat} : AllOrNothing (head h length) := by
  cases h with
  | fixed width => exact .emit
  | varint => exact .emit
  | unbounded => exact .of_total fun dst => ⟨dst, rfl⟩

/-! ## Frames -/

section Frames

variable {head : Head} {content : Encoder Unit}

/-- Content behind a head is staged. -/
theorem framed_eq (hframed : head ≠ .unbounded) :
    framed head content =
      match content.standalone with
      | .error e => throw e
      | .ok body => (do
        Encoder.head head body.length
        append body) := by
  cases head with
  | unbounded => exact absurd rfl hframed
  | _ => rfl

/-- Whatever the content is, and whatever it does to the stage. -/
theorem AllOrNothing.framed (hframed : head ≠ .unbounded) : AllOrNothing (framed head content) := by
  rw [framed_eq hframed]
  cases content.standalone with
  | error e => exact .throw
  | ok body => exact .bind .head (append_total body)

/-- The error of the content is the error of the frame, and what the content has written before it
is gone. -/
theorem framed_of_content_error (hframed : head ≠ .unbounded) {e : EncodeError} {written : Buffer}
    (hcontent : content #[] = .error e written) (dst : Buffer) :
    framed head content dst = .error e dst := by
  have hstandalone : content.standalone = .error e := by
    rw [standalone, EStateM.run, hcontent]
  rw [framed_eq hframed, hstandalone]
  rfl

/-- Content that is too long for its head is not written either. -/
theorem framed_of_head_error (hframed : head ≠ .unbounded) {e : EncodeError} {body : Buffer}
    {dst out : Buffer} (hcontent : content #[] = .ok () body)
    (hhead : Encoder.head head body.size dst = .error e out) :
    framed head content dst = .error e dst := by
  have hstandalone : content.standalone = .ok body.toList := by
    rw [standalone, EStateM.run, hcontent]
  -- Nothing of the head is there when it turns out that it cannot state the length.
  have hout : out = dst := AllOrNothing.head dst e out hhead
  rw [hout] at hhead
  rw [framed_eq hframed, hstandalone]
  show EStateM.bind (Encoder.head head body.toList.length) (fun _ => append body.toList) dst = _
  rw [Array.length_toList, EStateM.bind, hhead]

/-- Entries are encoded and arranged before the first of them is written, so a map fails without a
trace whether or not it has a head. -/
theorem AllOrNothing.entries {type : String} {key : κ → Encoder Unit}
    {value : β → Encoder Unit} {es : List (κ × β)} :
    AllOrNothing (entries type head key value es) := by
  unfold Encoder.entries
  -- Whether every entry has a form and no key is repeated is known before anything is written.
  split
  · exact .throw
  · split
    · exact .throw
    · rename_i sorted _
      -- Without a head the content is not staged, but by now it cannot fail.
      by_cases hframed : head = .unbounded
      · subst hframed
        exact .of_total (each_append_total sorted)
      · exact .framed hframed

end Frames

/-! ## Kinds of types -/

section Kinds

variable {type : String} {shape : Shape}

theorem AllOrNothing.ofUint {t : UintType} {n : Nat} : AllOrNothing (ofUint t shape n) := by
  cases shape with
  | integer bits => exact .emit
  | varint bits => exact .emit
  | _ => exact .throw

/-- Without a head a vector writes its elements into the buffer itself, and is not staged. -/
theorem AllOrNothing.ofVector {elem : Shape → α → Encoder Unit} {items : List α}
    (h : ∀ elemShape, shape ≠ .vector elemShape .unbounded) :
    AllOrNothing (ofVector type elem shape items) := by
  cases shape with
  | vector elemShape head =>
    exact .framed fun hhead => h elemShape (congrArg _ hhead)
  | _ => exact .throw

theorem AllOrNothing.ofMap {key : Shape → κ → Encoder Unit} {value : Shape → β → Encoder Unit}
    {es : List (κ × β)} : AllOrNothing (ofMap type key value shape es) := by
  cases shape with
  | map keyShape valueShape head => exact .entries
  | _ => exact .throw

theorem AllOrNothing.ofBox {content : Shape → α → Encoder Unit} {x : α}
    (h : ∀ target, shape = .pointer target → AllOrNothing (content target x)) :
    AllOrNothing (ofBox type content shape x) := by
  cases shape with
  | pointer target => exact h target rfl
  | _ => exact .throw

/-- With a flag, the flag is written before the content is known. -/
theorem AllOrNothing.ofOption {content : Shape → α → Encoder Unit} {x : Option α}
    (hrequired : ∀ target, shape ≠ .optional target)
    (h : ∀ target x, shape = .pointer target → AllOrNothing (content target x)) :
    AllOrNothing (ofOption type content shape x) := by
  cases shape with
  | optional target => exact absurd rfl (hrequired target)
  | pointer target =>
    cases x with
    | none => exact .throw
    | some x => exact h target x rfl
  | _ => exact .throw

theorem AllOrNothing.ofHook {hook : Hook α} {x : α} : AllOrNothing (ofHook hook shape x) := by
  unfold Encoder.ofHook
  cases hook.validate x with
  | error reason => exact .throw
  | ok _ =>
    cases shape with
    | custom => exact .emit
    | _ => exact .throw

end Kinds

end Encoder

namespace Schema

open Encoder

/-- Whether a value is written along the shape only once its whole form is known. The type of a
shape does not matter unless it leads further: a shape of another kind is refused at once. -/
def Staged : {α : Type} → Schema α → Shape → Prop
  | _, .uint _, _ => True
  | _, .array _ _ _, _ => False
  | _, .vector _ _, shape => ∀ elemShape, shape ≠ .vector elemShape .unbounded
  | _, .map _ _ _ _ _, _ => True
  | _, .box _ content, shape => ∀ target, shape = .pointer target → content.Staged target
  | _, .option _ content, shape =>
    (∀ target, shape ≠ .optional target) ∧
    ∀ target, shape = .pointer target → content.Staged target
  | _, .record _ _ _ _, _ => False
  | _, .custom _, _ => True

/-- By induction on the type, along the indirections that lead to the part that is written. -/
theorem Staged.encode : {α : Type} → {schema : Schema α} → {shape : Shape} →
    schema.Staged shape → (x : α) → AllOrNothing (schema.encode shape x)
  | _, .uint _, _, _, _ => by
    rw [Schema.encode]
    exact .ofUint
  | _, .vector _ _, _, h, _ => by
    rw [Schema.encode]
    exact .ofVector h
  | _, .map _ _ _ _ _, _, _, _ => by
    rw [Schema.encode]
    exact .ofMap
  -- Behind an indirection it is the content that has to be staged.
  | _, .box _ content, _, h, x => by
    rw [Schema.encode]
    exact .ofBox fun target htarget => Staged.encode (h target htarget) x
  | _, .option _ content, _, h, _ => by
    rw [Schema.encode]
    exact .ofOption h.1 fun target x htarget => Staged.encode (h.2 target htarget) x
  | _, .custom _, _, _, _ => by
    rw [Schema.encode]
    exact .ofHook

/-- A frame that fails leaves the buffer as it was, and it fails with the error of its content or of
its head. So does every value that is staged, whatever is inside and whichever part fails. -/
theorem encode_allOrNothing :
    (∀ (head : Head) (content : Encoder Unit), head ≠ .unbounded →
      AllOrNothing (framed head content) ∧
      (∀ dst e written, content #[] = .error e written → framed head content dst = .error e dst) ∧
      ∀ dst body e out, content #[] = .ok () body → Encoder.head head body.size dst = .error e out →
        framed head content dst = .error e dst) ∧
    ∀ {α : Type} (schema : Schema α) (shape : Shape), schema.Staged shape →
      ∀ x, AllOrNothing (schema.encode shape x) :=
  ⟨fun _ _ hframed => ⟨.framed hframed, fun dst _ _ h => framed_of_content_error hframed h dst,
      fun _ _ _ _ => framed_of_head_error hframed⟩,
    fun _ _ h => h.encode⟩

/-- The second element of the inner vector fails when the first is written already. Without its head
the inner vector leaves that one; with it the outer one leaves nothing, behind an indirection and
with a buffer that is not empty. -/
theorem encode_allOrNothing_nested :
    let inner : Schema (List (Option (BitVec 8))) :=
      .vector "Vec<Option<u8>>" (.option "Option<u8>" (.uint .u8))
    let outer : Schema (List (List (Option (BitVec 8)))) :=
      .box "Box<Vec<Vec<Option<u8>>>>" (.vector "Vec<Vec<Option<u8>>>" inner)
    let innerShape (head : Head) : Shape := .vector (.pointer (.integer 8)) head
    let error : EncodeError := .requiredNone "Option<u8>"
    inner.encode (innerShape .unbounded) [some 1, none] #[9] = .error error #[9, 1] ∧
    outer.encode (.pointer (.vector (innerShape (.fixed 1)) (.fixed 1))) [[], [some 1, none]] #[9] =
      .error error #[9] := by
  intro inner outer innerShape error
  refine ⟨rfl, ?_⟩
  have hfails : ∃ out, outer.encode (.pointer (.vector (innerShape (.fixed 1)) (.fixed 1)))
      [[], [some 1, none]] #[9] = .error error out := ⟨_, rfl⟩
  have hstaged : outer.Staged (.pointer (.vector (innerShape (.fixed 1)) (.fixed 1))) := by
    rintro target ⟨⟩ elemShape ⟨⟩
  obtain ⟨out, hout⟩ := hfails
  have huntouched : out = #[9] := encode_allOrNothing.2 outer _ hstaged _ _ _ _ hout
  rwa [huntouched] at hout

end Schema

end TlsWire
