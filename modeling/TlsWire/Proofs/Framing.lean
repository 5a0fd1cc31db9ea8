import TlsWire.Proofs.Components
import TlsWire.Proofs.Decode.Isolation
import TlsWire.Proofs.Decode.Relocation
import TlsWire.Proofs.Encode.EntryOrder
import TlsWire.Proofs.Encode.Forms
import TlsWire.Proofs.Encode.Verdict

/-!
# What the head changes

A vector or map with a head is what it is without one, behind the bytes that state its length. This
holds in both directions. Encoding stages the content, which makes no difference to the content
itself; decoding splits the content off, so its elements are decoded as if the input ended there,
only further on (`Relocation`). The one error that is not the same afterwards is a truncation: the
input has not ended, so the element is at fault (`DecodeError.behindHead`).

* `Encoder.standalone_head` — what is written for a length, and when it cannot be stated;
* `Schema.marshalWith_framed` — the form of a collection under a head, from its form without one;
* `Schema.framing_changes_head` — the same for decoding as well.
-/

namespace TlsWire

variable {α β κ σ σ' : Type}

/-! ## Heads -/

namespace Head

/-- The largest length that the head can state. -/
def max : Head → Nat
  | .fixed width => 2 ^ (8 * width) - 1
  | .varint => 2 ^ 62 - 1
  | .unbounded => 0

/-- The bytes that state a length. A varint has its class in the top two bits. -/
def front : Head → Nat → Bytes
  | .fixed width, length => bigEndian width length
  | .varint, length =>
    if length < 0x40 then bigEndian 1 length
    else if length < 0x4000 then bigEndian 2 (0x4000 + length)
    else if length < 0x40000000 then bigEndian 4 (0x80000000 + length)
    else bigEndian 8 (0xC000000000000000 + length)
  | .unbounded, _ => []

end Head

/-- A varint is written in the first class that has room for it, with the number of the class in
its two highest bits. Beyond the last class there is nothing. -/
theorem Varint.encode_eq (n : Nat) :
    Varint.encode n =
      if n ≤ Head.varint.max then .ok (Head.varint.front n) else .error ⟨n, Head.varint.max⟩ := by
  have hroom : Varint.room 0 = 0x40 ∧ Varint.room 1 = 0x4000 ∧ Varint.room 2 = 0x40000000 ∧
      Varint.room 3 = 0x4000000000000000 := by decide
  have hmax : Head.varint.max = Varint.max := by decide
  obtain ⟨h0, h1, h2, h3⟩ := hroom
  -- The classes are tried in order.
  have hclass : Varint.class? n =
      if n < 0x40 then some 0 else if n < 0x4000 then some 1 else if n < 0x40000000 then some 2
      else if n < 0x4000000000000000 then some 3 else none := by
    simp only [Varint.class?, List.find?_cons, List.find?_nil, h0, h1, h2, h3]
    split_ifs <;> simp [*]
  have hle : n ≤ Varint.max ↔ n < 0x4000000000000000 := by
    rw [Varint.max, h3]
    omega
  -- In each class the number is added to a multiple of the room, which puts the class on top.
  rw [Varint.encode, hclass, Head.front, hmax]
  split_ifs <;> first | omega | simp [Varint.formLength, h0, h1, h2, h3]

namespace Encoder

variable {d : Directive} {head : Head} {type : String}

/-- The bytes that state the length, if the head can state it. -/
theorem standalone_head (hhead : d.head? = some head) (hframed : head ≠ .unbounded) (length : Nat) :
    (Encoder.head head length).standalone =
      if length ≤ head.max then .ok (head.front length)
      else .error (.overflow ⟨length, head.max⟩) := by
  cases head with
  | fixed width =>
    -- What a directive can ask for is narrow enough for the largest number to be what the width
    -- allows.
    have hnarrow : width ≤ 8 := Directive.narrow_of_head? hhead
    have hmax : Uint.max width = Head.max (.fixed width) := by
      rw [Uint.max, Nat.min_eq_left hnarrow, byteRange_eq_two_pow, Head.max]
    rw [Encoder.head, uint, standalone_emit, Uint.encode, hmax]
    split
    · rfl
    · rfl
  | varint =>
    rw [Encoder.head, varint, standalone_emit, Varint.encode_eq]
    split
    · rfl
    · rfl
  | unbounded => exact absurd rfl hframed

/-- Staged content is written as it would be on its own, after its length. -/
theorem standalone_framed_unbounded (head : Head) (content : Encoder Unit) :
    (framed head content).standalone = (do
      let body ← (framed .unbounded content).standalone
      let front ← (Encoder.head head body.length).standalone
      return front ++ body) :=
  standalone_framed

/-- Entries are put in order before the head is written, so the head makes no difference to them.
-/
theorem standalone_entries_unbounded {key : κ → Encoder Unit} {value : β → Encoder Unit}
    (es : List (κ × β)) :
    (entries type head key value es).standalone = (do
      let body ← (entries type .unbounded key value es).standalone
      let front ← (Encoder.head head body.length).standalone
      return front ++ body) := by
  rw [standalone_entries, standalone_entries]
  simp only [bind_assoc, standalone_framed_unbounded head]

end Encoder

/-! ## Collections -/

/-- The same shape with another head. -/
def Shape.withHead (head : Head) : Shape → Shape
  | .vector elem _ => .vector elem head
  | .map key value _ => .map key value head
  | shape => shape

namespace Schema

/-- Whether values of the type are vectors or maps. -/
def IsCollection : {α : Type} → Schema α → Prop
  | _, .vector _ _ => True
  | _, .map _ _ _ _ _ => True
  | _, _ => False

variable {schema : Schema α} {d : Directive} {head : Head}

/-- Both directives select a head, only not the same one. -/
theorem framing_alike_headNone (type : String) (hhead : d.head? = some head) :
    Alike (@Eq DirectiveError) (fun h h' => h = .unbounded ∧ h' = head)
      (framing type .headNone) (framing type d) := by
  rw [framing, framing, hhead]
  exact .ok ⟨rfl, rfl⟩

/-- The head has no part in whether the type resolves. -/
theorem resolve_collection (hcollection : schema.IsCollection) (hhead : d.head? = some head) :
    Alike Eq (fun shape shape' => shape' = shape.withHead head) (schema.resolve .headNone)
      (schema.resolve d) := by
  have hsame : ∀ {α : Type} (x : Except DirectiveError α), Alike Eq Eq x x :=
    .refl (fun _ => rfl) (fun _ => rfl)
  cases schema with
  | vector type elem =>
    rw [resolve, resolve]
    refine (framing_alike_headNone type hhead).bind fun _ _ hheads => ?_
    -- From here on the two resolve the same types, under the same directives.
    obtain ⟨rfl, rfl⟩ := hheads
    refine (hsame _).bind fun shape _ hshape => ?_
    subst hshape
    exact (hsame _).bind fun _ _ _ => .pure rfl
  | map type kind order key value =>
    rw [resolve, resolve]
    refine (framing_alike_headNone type hhead).bind fun _ _ hheads => ?_
    obtain ⟨rfl, rfl⟩ := hheads
    refine (hsame _).bind fun keyShape _ hkeyShape => ?_
    subst hkeyShape
    refine (hsame _).bind fun _ _ _ => (hsame _).bind fun valueShape _ hvalueShape => ?_
    subst hvalueShape
    exact (hsame _).bind fun _ _ _ => .pure rfl
  | _ => exact absurd hcollection id

/-- The content is the same under every head, and so are the errors in it. -/
theorem encode_withHead (hcollection : schema.IsCollection) {shape : Shape}
    (hshape : schema.resolve .headNone = .ok shape) (x : α) :
    (schema.encode (shape.withHead head) x).standalone = (do
      let body ← (schema.encode shape x).standalone
      let front ← (Encoder.head head body.length).standalone
      return front ++ body) := by
  cases schema with
  | vector type elem =>
    -- The shape has been resolved without a head, so its own head is the open one.
    obtain ⟨_, elemShape, ⟨⟩, _, _, rfl⟩ := resolve_vector.mp hshape
    rw [encode, encode]
    exact Encoder.standalone_framed_unbounded head _
  | map type kind order key value =>
    obtain ⟨_, keyShape, valueShape, ⟨⟩, _, _, _, _, rfl⟩ := resolve_map.mp hshape
    rw [encode, encode]
    exact Encoder.standalone_entries_unbounded _
  | _ => exact absurd hcollection id

/-- The form of a collection is its length and then its form without a head. -/
theorem marshalWith_framed (hcollection : schema.IsCollection) (hhead : d.head? = some head)
    (hframed : head ≠ .unbounded) (x : α) :
    schema.marshalWith d x = (do
      let body ← schema.marshalWith .headNone x
      if body.length ≤ head.max then return head.front body.length ++ body
      else throw (.overflow ⟨body.length, head.max⟩)) := by
  unfold marshalWith
  rcases (resolve_collection hcollection hhead).values_or_errors with
    ⟨shape, shape', hshape, hshape', rfl⟩ | ⟨e, e', he, he', rfl⟩
  · rw [hshape, hshape']
    simp only [encode_withHead hcollection hshape, Encoder.standalone_head hhead hframed]
    -- For every content the head is written or the length overflows.
    refine congrArg _ (funext fun body => ?_)
    split
    · rfl
    · rfl
  · rw [he, he']
    rfl

end Schema

/-! ## Content behind a head -/

/-- The outermost step of a path. -/
def Location.outermost (loc : Location) : Location := loc.drop (loc.length - 1)

/-- The step that has been made first is at the end of the path. -/
theorem Location.outermost_append (loc : Location) (step : Step) :
    Location.outermost (loc ++ [step]) = [step] := by
  rw [outermost, List.length_append, List.length_singleton, Nat.add_sub_cancel, List.drop_left]

/-- What becomes of an error in content that the input ends with, when a head of `front` bytes
declares the length of the content. What was a truncation is the fault of the element. -/
def DecodeError.behindHead (front : Nat) : DecodeError → DecodeError
  | .truncated loc _ => .malformed (Relocation.location ⟨front, []⟩ loc.outermost) .overrun
  | e => Relocation.error ⟨front, []⟩ e

namespace Relocation

variable {front : Nat} {config : Config}

abbrev BehindHead (front : Nat) (e e' : DecodeError) : Prop := e' = e.behindHead front

/-- An error inside an element becomes what a head makes of it: a truncation is the fault of the
element, whose step is the outermost one of the path, and all else is only further on. -/
theorem blames_behindHead {R : α → α → Prop} {elem : Context → Decoder α}
    (helem : ∀ (r : Relocation) ctx, r.Follows R (elem ctx) (elem (r.context ctx))) :
    Relocation.Blames ⟨front, []⟩ (BehindHead front) false true (.top config) elem where
  final e he := by
    cases e with
    | truncated loc t => exact absurd rfl (he loc t)
    | _ => rfl
  inside pos c e c' hrun := by
    cases e with
    | truncated loc t =>
      -- The path goes on inside the element. What is reported is the element itself.
      obtain ⟨inner, hinner⟩ := location_of_error helem hrun
      cases inner with
      | truncated inside t' =>
        cases hinner
        show _ = DecodeError.malformed (Relocation.location _ (Location.outermost (_ ++ [_]))) _
        rw [Location.outermost_append]
        rfl
      | _ => cases hinner
    | _ => rfl

end Relocation

namespace Sequence

/-- Without a head the content is everything that is left. -/
theorem ofHead_unbounded (ctx : Context) (data : Bytes) :
    ∃ c', ofHead ctx .unbounded (.ofBytes data) = .ok ⟨.ofBytes data, false, 0⟩ c' ∧
      c'.consumed = data.length := by
  -- All of the data is content, and nothing comes after it.
  have hall : (Cursor.ofBytes data).rest = data ++ [] := (List.append_nil data).symm
  obtain ⟨c', hadv, hrest⟩ := Cursor.exists_advances hall
  have hopen : ofHead ctx .unbounded (.ofBytes data) = .ok ⟨.ofBytes data, false, 0⟩ c' :=
    ofHead_ok.mpr ⟨[], .ofBytes data, data, .unbounded, Cursor.advances_refl _, hadv,
      fun _ => hrest, rfl⟩
  exact ⟨c', hopen, (Cursor.advances_ofBytes hadv).1⟩

end Sequence

namespace Decoder

variable {ctx : Context} {head : Head} {c c' : Cursor} {seq : Sequence}

/-- Once the content is opened, what is computed from it is the outcome, and the cursor stays
behind it. -/
theorem sequence_bind {run : Sequence → Except DecodeError σ} {finish : σ → α}
    (hopen : Sequence.ofHead ctx head c = .ok seq c') :
    (do
      let seq ← Sequence.ofHead ctx head
      let s ← ofExcept (run seq)
      return finish s : Decoder α) c = ofExcept ((run seq).map finish) c' := by
  rw [bind_of_ok hopen]
  cases run seq with
  | ok s => rfl
  | error e => rfl

/-- The whole outcome of decoding content on its own, and of decoding it behind a head. -/
structure Reframed (front body : Bytes) (r r' : EStateM.Result DecodeError Cursor α) : Prop where
  exists_outcomes : ∃ x x' c c', Alike (Relocation.BehindHead front.length) Eq x x' ∧
    r = ofExcept x c ∧ c.consumed = body.length ∧
    r' = ofExcept x' c' ∧ c'.consumed = front.length + body.length

/-- Opening the content without a head and with one leaves the same scope, in two places. So
whatever is alike in two places makes the two decoders alike. -/
theorem sequence_reframed {run : Sequence → Except DecodeError σ} {finish : σ → α}
    {S : σ → σ → Prop} {config : Config} {front body t : Bytes} (hframed : head ≠ .unbounded)
    (hfront : head.Form body.length front)
    (hrun : ∀ seq seq', Relocation.SameContent ⟨front.length, []⟩ false true seq seq' →
      Alike (Relocation.BehindHead front.length) S (run seq) (run seq'))
    (hfinish : ∀ s s', S s s' → finish s = finish s') :
    Reframed front body
      ((do
        let seq ← Sequence.ofHead (.top config) .unbounded
        let s ← ofExcept (run seq)
        return finish s : Decoder α) (.ofBytes body))
      ((do
        let seq ← Sequence.ofHead (.top config) head
        let s ← ofExcept (run seq)
        return finish s : Decoder α) (.ofBytes (front ++ body ++ t))) := by
  obtain ⟨c, hopen, hconsumed⟩ := Sequence.ofHead_unbounded (.top config) body
  have hall : (Cursor.ofBytes (front ++ body ++ t)).rest = front ++ body ++ t := rfl
  obtain ⟨c', hadv, _⟩ := Cursor.exists_advances hall
  have hopen' : Sequence.ofHead (.top config) head (.ofBytes (front ++ body ++ t)) =
      .ok (.declared (0 + front.length) body) c' := Sequence.ofHead_complete hframed hfront hadv
  -- The same bytes, once at the front of an input and once behind the head.
  have hsame : Relocation.SameContent ⟨front.length, []⟩ false true ⟨.ofBytes body, false, 0⟩
      (.declared (0 + front.length) body) := ⟨⟨rfl, rfl⟩, rfl, rfl, rfl⟩
  have hconsumed' : c'.consumed = front.length + body.length := by
    rw [(Cursor.advances_ofBytes hadv).1, List.length_append]
  refine ⟨_, _, c, c', ?_, sequence_bind hopen, hconsumed, sequence_bind hopen', hconsumed'⟩
  -- What is gathered from the content is alike, and what is made of it is the same.
  have halike := hrun _ _ hsame
  generalize run ⟨.ofBytes body, false, 0⟩ = x at halike ⊢
  generalize run (.declared (0 + front.length) body) = x' at halike ⊢
  cases halike with
  | ok hs => exact .ok (hfinish _ _ hs)
  | error he => exact .error he

end Decoder

namespace Schema

open Relocation

/-- Content is decoded behind a head as it is where the input ends with it. -/
theorem decode_withHead {schema : Schema α} {shape : Shape} {head : Head} {front body t : Bytes}
    (hcollection : schema.IsCollection) (hshape : schema.resolve .headNone = .ok shape)
    (hframed : head ≠ .unbounded) (hfront : head.Form body.length front) (config : Config) :
    Decoder.Reframed front body (schema.decode (.top config) shape (.ofBytes body))
      (schema.decode (.top config) (shape.withHead head) (.ofBytes (front ++ body ++ t))) := by
  cases schema with
  | vector type elem =>
    obtain ⟨_, elemShape, ⟨⟩, _, _, rfl⟩ := resolve_vector.mp hshape
    have helem : ∀ (r : Relocation) ctx, r.Follows (Sends id) (elem.decode ctx elemShape)
        (elem.decode (r.context ctx) elemShape) := fun _ ctx => elem.decode_relocates ctx elemShape
    rw [decode, decode]
    -- Elements are decoded alike in every place, so a list of them is.
    refine Decoder.sequence_reframed (S := Sends (List.map id)) hframed hfront
      (fun seq seq' hseq => ?_) fun xs xs' hxs => ?_
    · exact fold_vector_alike (blames_behindHead helem) (helem _) hseq
    · rw [hxs, List.map_id]
  | map type kind order key value =>
    obtain ⟨_, keyShape, valueShape, ⟨⟩, _, _, _, _, rfl⟩ := resolve_map.mp hshape
    have hentry : ∀ (r : Relocation) ctx, r.Follows (Sends (Prod.map id id))
        (Decoder.entry (fun ctx => key.decode ctx keyShape)
          (fun ctx => value.decode ctx valueShape) ctx)
        (Decoder.entry (fun ctx => key.decode ctx keyShape)
          (fun ctx => value.decode ctx valueShape) (r.context ctx)) := fun _ ctx =>
      .entry (fun ctx => key.decode_relocates ctx keyShape)
        (fun ctx => value.decode_relocates ctx valueShape) ctx
    rw [decode, decode]
    -- Entries are gathered alike, and a key that is turned away is turned away in both places.
    refine Decoder.sequence_reframed (S := SameEntries kind kind id id) hframed hfront
      (fun seq seq' hseq => ?_) fun s s' hs => ?_
    · exact fold_map_alike (blames_behindHead hentry) (hentry _) Function.injective_id hseq
    · refine (hs.finish Function.injective_id (h := id) fun dict => ?_).symm
      rw [Prod.map_id, List.map_id]
      exact .refl _
  | _ => exact absurd hcollection id

variable {schema : Schema α} {d : Directive} {head : Head}

/-- Content that decodes without a head is all taken, and behind a head it is taken as well. -/
theorem unmarshalWith_framed (hcollection : schema.IsCollection) (hhead : d.head? = some head)
    (hframed : head ≠ .unbounded) {body : Bytes} (hroom : body.length ≤ head.max) (t : Bytes)
    (config : Config) :
    (∀ n x, schema.unmarshalWith .headNone config body = .ok (n, x) → n = body.length) ∧
    schema.unmarshalWith d config (head.front body.length ++ body ++ t) =
      ((schema.unmarshalWith .headNone config body).map fun r =>
        ((head.front body.length).length + r.1, r.2)).mapError
          (DecodeError.behindHead (head.front body.length).length) := by
  -- A length that the head can state has a form in it, and this is the one that would be written.
  have hfront : head.Form body.length (head.front body.length) :=
    Encoder.head_ok (by rw [Encoder.standalone_head hhead hframed, if_pos hroom])
  unfold unmarshalWith
  rcases (resolve_collection hcollection hhead).values_or_errors with
    ⟨shape, shape', hshape, hshape', rfl⟩ | ⟨e, e', he, he', rfl⟩
  · obtain ⟨x, x', c, c', halike, hrun, hconsumed, hrun', hconsumed'⟩ :=
      (decode_withHead (t := t) hcollection hshape hframed hfront config).exists_outcomes
    rw [hshape, hshape']
    simp only [hrun, hrun']
    -- Without a head the run ends behind the content, and with one as much further on.
    cases halike with
    | ok hx =>
      subst hx
      refine ⟨fun n y hok => ?_, ?_⟩
      · cases hok
        exact hconsumed
      · show Except.ok (c'.consumed, _) = .ok ((head.front body.length).length + c.consumed, _)
        rw [hconsumed, hconsumed']
    | error he =>
      subst he
      exact ⟨nofun, rfl⟩
  · rw [he, he']
    exact ⟨nofun, rfl⟩

/-- The directive of a vector or map chooses its head and nothing else. The form is the form without
a head behind its length, if the head can state that, and every error is the same. Content that
decodes on its own decodes behind its length, whatever follows it. An error in it is the same and
further on, but a truncation means that an element leaves the content. -/
theorem framing_changes_head (hcollection : schema.IsCollection) (hhead : d.head? = some head)
    (hframed : head ≠ .unbounded) :
    (∀ x, schema.marshalWith d x = (do
      let body ← schema.marshalWith .headNone x
      if body.length ≤ head.max then return head.front body.length ++ body
      else throw (.overflow ⟨body.length, head.max⟩))) ∧
    ∀ (body t : Bytes) (config : Config), body.length ≤ head.max →
      (∀ n x, schema.unmarshalWith .headNone config body = .ok (n, x) → n = body.length) ∧
      schema.unmarshalWith d config (head.front body.length ++ body ++ t) =
        ((schema.unmarshalWith .headNone config body).map fun r =>
          ((head.front body.length).length + r.1, r.2)).mapError
            (DecodeError.behindHead (head.front body.length).length) :=
  ⟨marshalWith_framed hcollection hhead hframed,
    fun _ t config hroom => unmarshalWith_framed hcollection hhead hframed hroom t config⟩

/-- The third byte of the content is half an element. The other half is missing where the input
ends, and it is outside the content where a head declares that, whether or not a byte follows. -/
theorem framing_changes_head_half_element :
    let schema : Schema (List (BitVec 16)) := .vector "Vec<u16>" (.uint .u16)
    schema.marshalWith (.head 1) [5] = .ok [2, 0, 5] ∧
    schema.unmarshalWith .headNone {} [0, 5, 7] = .error (.truncated [⟨"[]", 2⟩] ⟨2, 1⟩) ∧
    schema.unmarshalWith (.head 1) {} [3, 0, 5, 7, 9] =
      .error (.malformed [⟨"[]", 3⟩] .overrun) := by
  intro schema
  obtain ⟨hmarshal, hunmarshal⟩ :=
    @framing_changes_head _ schema (.head 1) (.fixed 1) trivial rfl (by decide)
  have hbody : schema.marshalWith .headNone [5] = .ok [0, 5] := by decide +kernel
  -- On its own the content ends in the middle of its second element.
  have hhalf : schema.unmarshalWith .headNone {} [0, 5, 7] =
      .error (.truncated [⟨"[]", 2⟩] ⟨2, 1⟩) := by decide +kernel
  refine ⟨?_, hhalf, ?_⟩
  · rw [hmarshal, hbody]
    rfl
  · exact ((hunmarshal [0, 5, 7] [9] {} (by decide)).2.trans (by rw [hhalf]; rfl))

end Schema

end TlsWire
