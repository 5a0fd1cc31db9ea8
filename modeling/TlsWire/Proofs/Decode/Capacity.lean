import TlsWire.Hook.Raw
import TlsWire.Proofs.Decode.Forward
import TlsWire.Proofs.Schema.MinLen

/-!
# Space reserved for elements

Before the first element of a vector or hashed map is decoded, space is reserved for as many
elements as `Sequence.capacity` says. That is never more than the content can hold and the limit
admits, and it is enough: no state that the loop passes through has stored more elements
(`Sequence.Reserves`).

A `Loop` is told by the states at its head: `Passes` for those it goes through and `Stops` for the
last one of them, where it finds no other element, or fails. What a step keeps up is `Paid`: every
stored element has been paid for, with as many bytes of the content as its shape takes at least,
and at least with one, and with one place under the limit. The capacity follows by division.
-/

namespace TlsWire

variable {α β κ σ : Type}

/-- What the loop over the content of a sequence does: how it decodes an element, and what it
stores. -/
structure Loop (α σ : Type) where
  elem : Context → Decoder α
  add : σ → α → Except DecodeError σ
  start : σ
  /-- How many elements are stored. -/
  size : σ → Nat

namespace Loop

variable (loop : Loop α σ) (ctx : Context)

/-- The outcome of the loop. -/
def run (seq : Sequence) : Except DecodeError σ := seq.fold ctx loop.elem loop.add loop.start

/-- The loop over `seq` passes through a state: what it has stored so far, and the sequence that it
goes on with. -/
inductive Passes (seq : Sequence) : σ → Sequence → Prop where
  | start : Passes seq loop.start seq
  | step {stored stored' : σ} {rest rest' : Sequence} {a : α} (before : Passes seq stored rest)
      (hnext : Sequence.next ctx loop.elem rest = .ok (some a) rest')
      (hadd : loop.add stored a = .ok stored') : Passes seq stored' rest'

/-- The loop goes no further than a state, and this is its outcome. -/
inductive Stops (stored : σ) (rest : Sequence) : Except DecodeError σ → Prop where
  | finished {rest' : Sequence} (hnext : Sequence.next ctx loop.elem rest = .ok none rest') :
      Stops stored rest (.ok stored)
  | failed {rest' : Sequence} {e : DecodeError}
      (hnext : Sequence.next ctx loop.elem rest = .error e rest') : Stops stored rest (.error e)
  | refused {rest' : Sequence} {a : α} {e : DecodeError}
      (hnext : Sequence.next ctx loop.elem rest = .ok (some a) rest')
      (hadd : loop.add stored a = .error e) : Stops stored rest (.error e)

variable {loop ctx} {seq : Sequence}

/-- What is left of a loop has the outcome of all of it. -/
theorem Passes.run_eq {stored : σ} {rest : Sequence} (h : Passes loop ctx seq stored rest) :
    loop.run ctx seq = rest.fold ctx loop.elem loop.add stored := by
  induction h with
  | start => rfl
  | step _ hnext hadd ih =>
    rw [ih, Sequence.fold_eq, hnext]
    simp only [hadd]

/-- From every state that it passes through a loop comes to the last one. -/
theorem Passes.exists_stops {stored : σ} {rest : Sequence} (h : Passes loop ctx seq stored rest) :
    ∃ stored' rest', Passes loop ctx seq stored' rest' ∧
      Stops loop ctx stored' rest' (rest.fold ctx loop.elem loop.add stored) := by
  rw [Sequence.fold_eq]
  -- By recursion on the content that is left, which every element uses up.
  cases hnext : Sequence.next ctx loop.elem rest with
  | error e rest' => exact ⟨stored, rest, h, .failed hnext⟩
  | ok found rest' =>
    cases found with
    | none => exact ⟨stored, rest, h, .finished hnext⟩
    | some a =>
      simp only
      cases hadd : loop.add stored a with
      | error e => exact ⟨stored, rest, h, .refused hnext hadd⟩
      | ok stored' => exact (h.step hnext hadd).exists_stops
  termination_by rest.scope.remaining
  decreasing_by exact Sequence.remaining_lt_of_next hnext

end Loop

namespace Sequence

/-! ## What is stored has been paid for -/

/-- Of the content of `start`, so many elements have been stored and `rest` is left. -/
structure Paid (ctx : Context) (minLen : Nat) (start : Sequence) (stored : Nat)
    (rest : Sequence) : Prop where
  counted : rest.count = stored
  limit : stored ≤ ctx.maxCollect
  content : stored * max minLen 1 + rest.scope.remaining ≤ start.scope.remaining

namespace Paid

variable {ctx : Context} {minLen stored : Nat} {start rest rest' : Sequence}

/-- At first nothing is stored, and all of the content is left to pay with. -/
theorem init (hcount : start.count = 0) : Paid ctx minLen start 0 start where
  counted := hcount
  limit := Nat.zero_le _
  content := Nat.le_of_eq (by rw [Nat.zero_mul, Nat.zero_add])

/-- The next element takes as many bytes as its shape says, and in any case one. -/
theorem step {elem : Context → Decoder α} {a : α} (h : Paid ctx minLen start stored rest)
    (hlen : Decoder.AtLeast elem minLen) (hforward : ∀ ctx, Decoder.Forward (elem ctx))
    (hnext : next ctx elem rest = .ok (some a) rest') :
    Paid ctx minLen start (stored + 1) rest' := by
  obtain ⟨_, hlimit, scope, hrun, hsolid, rfl⟩ := next_some.mp hnext
  obtain ⟨b, hadv⟩ := (hforward _).advances hrun
  have hremaining : rest.scope.remaining = b.length + scope.remaining := hadv.remaining
  -- The element has moved the cursor by its fewest bytes at least.
  have htaken : minLen ≤ b.length := by
    have hconsumed := hlen _ _ _ _ hrun
    rw [hadv.consumed] at hconsumed
    omega
  -- And by one, since it would have been refused otherwise.
  have hprice : max minLen 1 ≤ b.length := by omega
  refine ⟨congrArg (· + 1) h.counted, h.counted ▸ hlimit, ?_⟩
  calc (stored + 1) * max minLen 1 + scope.remaining
      = stored * max minLen 1 + (max minLen 1 + scope.remaining) := by
        rw [Nat.add_one_mul, Nat.add_assoc]
    _ ≤ stored * max minLen 1 + rest.scope.remaining := by omega
    _ ≤ start.scope.remaining := h.content

/-- What has been paid for has found space. -/
theorem le_capacity (h : Paid ctx minLen start stored rest) :
    stored ≤ start.capacity ctx minLen := by
  have hpos : 0 < max minLen 1 := by omega
  have hcontent : stored * max minLen 1 ≤ start.scope.remaining :=
    Nat.le_trans (Nat.le_add_right _ _) h.content
  exact Nat.le_min.mpr ⟨(Nat.le_div_iff_mul_le hpos).mpr hcontent, h.limit⟩

end Paid

end Sequence

namespace Loop

/-- The loop decodes elements of at least `minLen` bytes, and stores them one at a time. -/
structure Steady (loop : Loop α σ) (minLen : Nat) : Prop where
  atLeast : Decoder.AtLeast loop.elem minLen
  forward : ∀ ctx, Decoder.Forward (loop.elem ctx)
  size_start : loop.size loop.start = 0
  size_add : ∀ stored a stored', loop.add stored a = .ok stored' →
    loop.size stored' = loop.size stored + 1

/-- By induction on the states that the loop passes through: each step pays for what it stores. -/
theorem Passes.paid {loop : Loop α σ} {ctx : Context} {minLen : Nat} {seq rest : Sequence}
    {stored : σ} (h : Passes loop ctx seq stored rest) (hloop : loop.Steady minLen)
    (hcount : seq.count = 0) : seq.Paid ctx minLen (loop.size stored) rest := by
  induction h with
  | start => exact hloop.size_start ▸ .init hcount
  | step _ hnext hadd ih =>
    exact hloop.size_add _ _ _ hadd ▸ ih.step hloop.atLeast hloop.forward hnext

end Loop

/-! ## Reserving space -/

/-- The space reserved for elements of at least `minLen` bytes lies within the content and the
limit, and the loop never outgrows it. -/
structure Sequence.Reserves (seq : Sequence) (ctx : Context) (loop : Loop α σ)
    (minLen : Nat) : Prop where
  content : seq.capacity ctx minLen * max minLen 1 ≤ seq.scope.rest.length
  limit : seq.capacity ctx minLen ≤ ctx.maxCollect
  enough : ∀ stored rest, loop.Passes ctx seq stored rest →
    loop.size stored ≤ seq.capacity ctx minLen
  /-- From every state the loop goes on to its outcome. -/
  passes : ∀ stored rest, loop.Passes ctx seq stored rest →
    loop.run ctx seq = rest.fold ctx loop.elem loop.add stored
  /-- Whatever this outcome is, the loop comes to it in a state that it passes through. -/
  stops : ∃ stored rest, loop.Passes ctx seq stored rest ∧
    loop.Stops ctx stored rest (loop.run ctx seq)

/-- Everything that is asked of the space follows from the loop storing one element at a time.
Nothing is assumed of how it ends. -/
theorem Loop.Steady.reserves {loop : Loop α σ} {minLen : Nat} (hloop : loop.Steady minLen)
    {ctx : Context} {seq : Sequence} (hcount : seq.count = 0) : seq.Reserves ctx loop minLen where
  content := by
    rw [← seq.scope.remaining_eq]
    calc seq.capacity ctx minLen * max minLen 1
        ≤ seq.scope.remaining / max minLen 1 * max minLen 1 :=
          Nat.mul_le_mul_right _ (Nat.min_le_left _ _)
      _ ≤ seq.scope.remaining := Nat.div_mul_le_self _ _
  limit := Nat.min_le_right _ _
  enough _ _ h := (h.paid hloop hcount).le_capacity
  passes _ _ h := h.run_eq
  stops := Passes.start.exists_stops

namespace Decoder

/-- A decoder that takes some bytes also takes fewer. -/
theorem AtLeast.of_le {d : Context → Decoder α} {len len' : Nat} (h : AtLeast d len)
    (hle : len' ≤ len) : AtLeast d len' := fun ctx c x c' hrun =>
  Nat.le_trans (Nat.add_le_add_left hle c.consumed) (h ctx c x c' hrun)

/-- An entry takes the bytes of its key and those of its value. -/
theorem entry_atLeast {key : Context → Decoder κ} {value : Context → Decoder β}
    {keyLen valueLen : Nat} (hkey : AtLeast key keyLen) (hvalue : AtLeast value valueLen) :
    AtLeast (entry key value) (keyLen + valueLen) := by
  intro ctx c e c' hrun
  obtain ⟨c₁, hk, hv⟩ := entry_ok.mp hrun
  have hkeyLen := hkey ctx c _ c₁ hk
  have hvalueLen := hvalue ctx c₁ _ c' hv
  omega

end Decoder

namespace Schema

/-- Elements take the fewest bytes of their shape, also where these have been capped. -/
theorem decode_atLeast_minLen {schema : Schema α} {d : Directive} {shape : Shape}
    (h : schema.resolve d = .ok shape) :
    Decoder.AtLeast (fun ctx => schema.decode ctx shape) shape.minLen :=
  (schema.decode_atLeast h).of_le shape.minLen_capped.le

/-- The loop of a vector. It stores elements latest first. -/
def vectorLoop (elem : Schema α) (elemShape : Shape) : Loop α (List α) where
  elem ctx := elem.decode ctx elemShape
  add stored x := .ok (x :: stored)
  start := []
  size := List.length

/-- The loop of a hashed map, of which `duplicate` is the error if a key occurs twice. -/
def hashedLoop (order : KeyOrder κ) (key : Schema κ) (value : Schema β)
    (keyShape valueShape : Shape) (duplicate : DecodeError) : Loop (κ × β) (List (κ × β)) where
  elem := Decoder.entry (fun ctx => key.decode ctx keyShape) fun ctx => value.decode ctx valueShape
  add := (Gatherer.hashed : Gatherer order β).gather duplicate
  start := (Gatherer.hashed : Gatherer order β).start
  size := List.length

/-- The loop of a vector stores every element that it decodes. -/
theorem vectorLoop_steady {elem : Schema α} {elemShape : Shape}
    (helem : elem.resolve .default = .ok elemShape) :
    (vectorLoop elem elemShape).Steady elemShape.minLen where
  atLeast := decode_atLeast_minLen helem
  forward ctx := elem.decode_forward ctx elemShape
  size_start := rfl
  size_add _ _ _ hadd := by
    cases hadd
    rfl

/-- The loop of a hashed map stores every entry that it goes on with. -/
theorem hashedLoop_steady {order : KeyOrder κ} {key : Schema κ} {value : Schema β}
    {keyShape valueShape : Shape} {duplicate : DecodeError}
    (hkey : key.resolve .default = .ok keyShape)
    (hvalue : value.resolve .default = .ok valueShape) :
    (hashedLoop order key value keyShape valueShape duplicate).Steady
      (cappedAdd keyShape.minLen valueShape.minLen) where
  atLeast := (Decoder.entry_atLeast (decode_atLeast_minLen hkey)
    (decode_atLeast_minLen hvalue)).of_le (Nat.min_le_left _ lengthCap)
  forward := Decoder.Forward.entry (fun ctx => key.decode_forward ctx keyShape)
    fun ctx => value.decode_forward ctx valueShape
  size_start := rfl
  size_add stored e stored' hadd := by
    -- An entry whose key is known is not stored, but then the loop does not go on either.
    simp only [hashedLoop, Gatherer.gather] at hadd
    split at hadd
    case h_1 grown hgrown =>
      cases hadd
      obtain ⟨_, hcons⟩ := Option.ite_none_left_eq_some.mp hgrown
      cases hcons
      rfl
    case h_2 => cases hadd

/-- Once a vector or hashed map has split its content off, the space that it reserves is bounded by
this content and by the limit, and however the loop goes that decodes it, the space is enough. -/
theorem reserves_of_ofHead :
    (∀ {α : Type} {type : String} {elem : Schema α} {d : Directive} {shape : Shape},
      (vector type elem).resolve d = .ok shape → ∃ elemShape head,
        shape = .vector elemShape head ∧
        ∀ {ctx : Context} {c c' : Cursor} {seq : Sequence},
          Sequence.ofHead ctx head c = .ok seq c' →
          (vector type elem).decode ctx shape c =
            (Decoder.ofExcept ((vectorLoop elem elemShape).run ctx seq) >>= fun stored =>
              pure stored.reverse) c' ∧
          seq.Reserves ctx (vectorLoop elem elemShape) elemShape.minLen) ∧
    (∀ {κ β : Type} {type : String} {order : KeyOrder κ} {key : Schema κ} {value : Schema β}
      {d : Directive} {shape : Shape},
      (map type .hashed order key value).resolve d = .ok shape → ∃ keyShape valueShape head,
        shape = .map keyShape valueShape head ∧
        ∀ {ctx : Context} {c c' : Cursor} {seq : Sequence},
          Sequence.ofHead ctx head c = .ok seq c' →
          let loop := hashedLoop order key value keyShape valueShape
            (.malformed ctx.location .duplicateKey)
          (map type .hashed order key value).decode ctx shape c =
            (Decoder.ofExcept (loop.run ctx seq) >>= fun stored =>
              pure (Gatherer.hashed.finish stored)) c' ∧
          seq.Reserves ctx loop (cappedAdd keyShape.minLen valueShape.minLen)) := by
  constructor
  · intro α type elem d shape hresolve
    obtain ⟨head, elemShape, _, helem, _, rfl⟩ := resolve_vector.mp hresolve
    refine ⟨elemShape, head, rfl, fun {ctx c c' seq} hopen => ⟨?_, ?_⟩⟩
    · rw [decode, Decoder.ofVector]
      exact Decoder.bind_of_ok hopen
    -- The sequence has just been opened, so that nothing is counted yet.
    · obtain ⟨_, _, _, _, _, _, _, rfl⟩ := Sequence.ofHead_ok.mp hopen
      exact (vectorLoop_steady helem).reserves rfl
  · intro κ β type order key value d shape hresolve
    obtain ⟨head, keyShape, valueShape, _, hkey, _, hvalue, _, rfl⟩ := resolve_map.mp hresolve
    refine ⟨keyShape, valueShape, head, rfl, fun {ctx c c' seq} hopen => ⟨?_, ?_⟩⟩
    · rw [decode, Decoder.ofMap]
      exact Decoder.bind_of_ok hopen
    · obtain ⟨_, _, _, _, _, _, _, rfl⟩ := Sequence.ofHead_ok.mp hopen
      exact (hashedLoop_steady hkey hvalue).reserves rfl

/-- Seven bytes of content have space for two entries of three bytes. Both are stored before the
loop fails at the seventh byte, the key of an entry without a value. A hook may take less than a
byte, but then it is no element: three bytes have space for three of them. -/
theorem reserves_of_ofHead_incomplete :
    let schema : Schema (Dict (.bitVec 8) (BitVec 16)) :=
      .map "HashMap<u8, u16>" .hashed (.bitVec 8) (uint .u8) (uint .u16)
    let seq : Sequence := ⟨⟨[1, 0, 5, 2, 0, 6, 3], 1, 0, 7, rfl⟩, true, 0⟩
    let loop := hashedLoop (β := BitVec 16) (.bitVec 8) (uint .u8) (uint .u16) (.integer 8)
      (.integer 16) (.malformed [] .duplicateKey)
    let tags : Sequence := ⟨⟨[7, 8, 9], 0, 0, 3, rfl⟩, false, 0⟩
    schema.resolve (.head 1) = .ok (.map (.integer 8) (.integer 16) (.fixed 1)) ∧
      Sequence.ofHead (.top {}) (.fixed 1) (.ofBytes [7, 1, 0, 5, 2, 0, 6, 3]) =
        .ok seq ⟨[], 0, 8, 0, rfl⟩ ∧
      seq.capacity (.top {}) 3 = 2 ∧ seq.Reserves (.top {}) loop 3 ∧
      loop.run (.top {}) seq = .error (.malformed [⟨"[]", 7⟩] .overrun) ∧
      (vector "Vec<Tag>" (custom Hook.tag)).resolve .headNone = .ok (.vector .custom .unbounded) ∧
      Sequence.ofHead (.top {}) .unbounded (.ofBytes [7, 8, 9]) = .ok tags ⟨[], 0, 3, 0, rfl⟩ ∧
      tags.capacity (.top {}) 0 = 3 ∧
      tags.Reserves (.top {}) (vectorLoop (custom Hook.tag) .custom) 0 := by
  intro schema seq loop tags
  have hresolve : schema.resolve (.head 1) = .ok (.map (.integer 8) (.integer 16) (.fixed 1)) := rfl
  have hopen : Sequence.ofHead (.top {}) (.fixed 1) (.ofBytes [7, 1, 0, 5, 2, 0, 6, 3]) =
      .ok seq ⟨[], 0, 8, 0, rfl⟩ := rfl
  -- The loop fails at its third entry.
  have hrun : loop.run (.top {}) seq = .error (.malformed [⟨"[]", 7⟩] .overrun) := by
    decide +kernel
  have htags : (vector "Vec<Tag>" (custom Hook.tag)).resolve .headNone =
      .ok (.vector .custom .unbounded) := rfl
  have hopenTags : Sequence.ofHead (.top {}) .unbounded (.ofBytes [7, 8, 9]) =
      .ok tags ⟨[], 0, 3, 0, rfl⟩ := rfl
  refine ⟨hresolve, hopen, by decide, ?_, hrun, htags, hopenTags, by decide, ?_⟩
  · obtain ⟨_, _, _, heq, h⟩ := reserves_of_ofHead.2 hresolve
    cases heq
    exact (h hopen).2
  · obtain ⟨_, _, heq, h⟩ := reserves_of_ofHead.1 htags
    cases heq
    exact (h hopenTags).2

end Schema

end TlsWire
