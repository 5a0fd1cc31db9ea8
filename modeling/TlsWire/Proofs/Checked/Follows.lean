import TlsWire.Proofs.Checked.Decode
import TlsWire.Proofs.Decode.Forward

/-!
# Checked computations that do what plain ones do

A checked computation follows a plain decoder if, from any valid window, it runs without a fault and
ends as the decoder does at the cursor that the window shows (`Checked.Follows`). This is closed
under the ways of building decoders, so it is enough to look at the reads, where the checks are, and
at the loop over the elements of a sequence. The loop stays within its budget because every element
uses up content (`Checked.Sequence.fold_eq_ok`).
-/

namespace TlsWire

variable {α α' β β' σ : Type}

/-- The window is valid, and the cursor is where it is. -/
structure Window.Shows (w : Window) (c : Cursor) : Prop where
  valid : w.Valid
  cursor : w.cursor = c

/-- A valid window shows the cursor that it stands for. -/
theorem Window.Valid.shows {w : Window} (h : w.Valid) : w.Shows w.cursor := ⟨h, rfl⟩

namespace Checked

/-- A run without a fault that ends as another one does. `R` relates the values, `V` the states. -/
inductive Agrees {S T : Type} (V : S → T → Prop) (R : α → β → Prop) :
    Except Fault (Except DecodeError α × S) → EStateM.Result DecodeError T β → Prop where
  | ok {a : α} {b : β} {s : S} {t : T} (hvalue : R a b) (hstate : V s t) :
      Agrees V R (.ok (.ok a, s)) (.ok b t)
  | error {e : DecodeError} {s : S} {t : T} (hstate : V s t) :
      Agrees V R (.ok (.error e, s)) (.error e t)

/-- The checked computation does without a fault what the decoder does. -/
def Follows (R : α → β → Prop) (d' : Checked α) (d : Decoder β) : Prop :=
  ∀ w c, w.Shows c → Agrees Window.Shows R (d' w) (d c)

namespace Follows

variable {R : α → β → Prop} {Q : α' → β' → Prop} {d' : Checked α} {d : Decoder β}

/-! ## Steps -/

/-- A value costs nothing and cannot fail. -/
theorem pure {a : α} {b : β} (h : R a b) : Follows R (pure a) (pure b) := fun _ _ hw => .ok h hw

/-- The same error, with the window where it was. -/
theorem throw {e : DecodeError} : Follows R (throw e) (throw e) := fun _ _ hw => .error hw

/-- Two steps run without a fault if the first does, and the second does from wherever the first
has got to. -/
theorem bind {f' : α → Checked α'} {f : β → Decoder β'} (h : Follows R d' d)
    (hf : ∀ a b, R a b → Follows Q (f' a) (f b)) : Follows Q (d' >>= f') (d >>= f) := by
  intro w c hw
  have hfirst := h w c hw
  show Agrees Window.Shows Q (ExceptT.bind d' f' w) (EStateM.bind d f c)
  unfold ExceptT.bind ExceptT.mk EStateM.bind
  show Agrees Window.Shows Q (Except.bind (d' w) _) _
  generalize d' w = r' at hfirst
  generalize d c = r at hfirst
  -- There is no third case: the first step has no fault.
  cases hfirst with
  | ok hvalue hstate => exact hf _ _ hvalue _ _ hstate
  | error hstate => exact .error hstate

/-- Computing something from the values has no fault. -/
theorem map {f : α → α'} {g : β → β'} (h : Follows R d' d) (hf : ∀ a b, R a b → Q (f a) (g b)) :
    Follows Q (f <$> d') (g <$> d) := by
  rw [map_eq_pure_bind, map_eq_pure_bind]
  exact h.bind fun a b hab => .pure (hf a b hab)

/-- A check that succeeds. -/
theorem check {x : Except Fault α'} {a : α'} {f' : α' → Checked α} (hx : x = .ok a)
    (h : Follows R (f' a) d) : Follows R ((x : Checked α') >>= f') d := by
  subst hx
  exact h

/-- The window is at hand, and with it the cursor that it shows. -/
theorem window {f' : Window → Checked α} {f : Cursor → Decoder β}
    (h : ∀ w c, w.Shows c → Follows R (f' w) (f c)) :
    Follows R (get >>= f') (Decoder.cursor >>= f) :=
  fun w c hw => h w c hw w c hw

/-- The window knows its position as the cursor does. -/
theorem pos {f' : Window → Checked α} {f : Nat → Decoder β}
    (h : ∀ w, Follows R (f' w) (f w.pos)) : Follows R (get >>= f') (Decoder.pos >>= f) := by
  intro w c hw
  obtain rfl := hw.cursor
  exact h w w _ hw

end Follows

/-! ## Reads -/

/-- What is left is counted without an underflow, because the index is within the buffer. -/
theorem remaining_eq_ok {w : Window} {c : Cursor} (h : w.Shows c) :
    w.remaining = .ok c.remaining := by
  obtain rfl := h.cursor
  exact if_pos h.valid

/-- What is left is a slice of the buffer. -/
theorem rest_eq_ok {w : Window} {c : Cursor} (h : w.Shows c) : w.rest = .ok c.rest := by
  obtain rfl := h.cursor
  show (if w.read ≤ w.data.length ∧ w.data.length ≤ w.data.length then _ else _) = _
  rw [if_pos ⟨h.valid, Nat.le_refl _⟩, List.take_length]
  rfl

/-- What is asked for has been found to be there, so the slice does not leave the buffer. -/
theorem take_follows {ctx : Context} {n : Nat} :
    Follows (fun a b => a = b ∧ a.length = n) (take ctx n) (Decoder.read ctx (Cursor.take n)) := by
  intro w c hw
  have htake : take ctx n w =
      (if c.remaining < n then throw (.truncated ctx.location ⟨n, c.remaining⟩)
      else do
        let bytes ← slice w.data w.read (w.read + n)
        set (w.skip n)
        return bytes : Checked Bytes) w := by
    show (do let available ← w.remaining; _ : Checked Bytes) w = _
    rw [remaining_eq_ok hw]
    rfl
  rw [htake]
  unfold Decoder.read Cursor.take
  split
  case isTrue hshort =>
    rw [if_neg (Nat.not_le.mpr hshort)]
    exact .error hw
  case isFalse hlong =>
    obtain rfl := hw.cursor
    -- The slice ends within the buffer, since as many bytes have been found to be left.
    have hstop : w.read + n ≤ w.data.length := by
      have hvalid : w.read ≤ w.data.length := hw.valid
      have hle : n ≤ w.data.length - w.read := Nat.le_of_not_lt hlong
      omega
    have hslice : slice w.data w.read (w.read + n) = .ok ((w.data.drop w.read).take n) := by
      rw [slice, if_pos ⟨Nat.le_add_right _ _, hstop⟩, List.drop_take, Nat.add_sub_cancel_left]
    have hlength : ((w.data.drop w.read).take n).length = n := by
      rw [List.length_take, List.length_drop]
      omega
    rw [if_pos (Nat.le_of_not_lt hlong), hslice]
    exact .ok ⟨rfl, hlength⟩ ⟨hstop, Cursor.ext List.drop_drop.symm rfl rfl⟩

/-- A read whose value is computed from another one's, and from where it starts. -/
theorem read_bind {ctx : Context} {reader : Cursor → Except Truncated (β × Cursor)}
    (f : Cursor → β → β') (c : Cursor) :
    Decoder.read ctx (fun c => do let (b, after) ← reader c; return (f c b, after)) c =
      (do let b ← Decoder.read ctx reader; return f c b : Decoder β') c := by
  show _ = EStateM.bind _ _ c
  simp only [Decoder.read, EStateM.bind]
  cases reader c <;> rfl

/-- One byte has been taken, so there is a first one to look at. -/
theorem readByte_follows {ctx : Context} :
    Follows Eq (readByte ctx) (Decoder.read ctx Cursor.readByte) := by
  intro w c hw
  have hread : Decoder.read ctx Cursor.readByte c = _ := read_bind (fun _ => (List.headD · 0)) c
  rw [hread]
  refine take_follows.bind (fun bytes b hbytes => ?_) w c hw
  obtain ⟨rfl, hlength⟩ := hbytes
  obtain ⟨x, rfl⟩ := List.length_eq_one_iff.mp hlength
  exact .pure rfl

/-- What has been taken is a buffer of its own, with the index in front of it. -/
theorem split_follows {ctx : Context} {n : Nat} :
    Follows Window.Shows (split ctx n) (Decoder.read ctx (Cursor.split n)) := by
  intro w c hw
  have hread : Decoder.read ctx (Cursor.split n) c = _ := read_bind Cursor.scope c
  rw [hread]
  refine take_follows.bind (fun bytes b hbytes => .pure ?_) w c hw
  obtain ⟨rfl, _⟩ := hbytes
  obtain rfl := hw.cursor
  exact ⟨Nat.zero_le _, Cursor.ext rfl rfl rfl⟩

/-- The width has to be one that can be read. Then the number is made of the bytes taken. -/
theorem uint_follows {ctx : Context} {width : Nat} (h : 1 ≤ width ∧ width ≤ 8) :
    Follows Eq (uint ctx width) (Decoder.read ctx (Uint.decode width)) := by
  intro w c hw
  have hread : Decoder.read ctx (Uint.decode width) c = _ := read_bind (fun _ => ofBigEndian) c
  rw [hread, uint, if_pos h]
  refine take_follows.bind (fun bytes b hbytes => .pure ?_) w c hw
  rw [hbytes.1]

/-- The largest number of a width is computed without an underflow. -/
theorem uintMax_eq_ok (width : Nat) : uintMax width = .ok (Uint.max width) := by
  unfold uintMax Uint.max
  split
  case isTrue hwide => rw [Nat.min_eq_right hwide]; rfl
  case isFalse hnarrow =>
    rw [Nat.min_eq_left (Nat.le_of_not_le hnarrow)]
    exact if_pos (byteRange_pos width)

/-- The class is in the first byte, and tells a length of at most eight bytes. The number is what
is left when the class bits are masked out, which needs the largest number of that width. -/
theorem varint_follows {ctx : Context} :
    Follows Eq (varint ctx) (Decoder.read ctx Varint.decode) := by
  intro w c hw
  show Agrees _ _ ((do let bytes ← w.rest; _ : Checked Nat) w) _
  rw [rest_eq_ok hw]
  cases hrest : c.rest with
  | nil =>
    rw [Decoder.read, Varint.decode, hrest]
    exact .error hw
  | cons first tail =>
    -- Two bits make four classes.
    have hcls : first.toNat / 64 < 4 := by
      have hfirst := first.toNat_lt
      omega
    have hlength := Varint.formLength_eq_shift hcls
    have hwidth : 1 ≤ 1 <<< (first.toNat / 64) ∧ 1 <<< (first.toNat / 64) ≤ 8 := by
      rw [← hlength]
      exact ⟨Varint.formLength_pos _, Varint.formLength_le_eight _⟩
    have hread : Decoder.read ctx Varint.decode c =
        (do
          let raw ← Decoder.read ctx (Uint.decode (Varint.formLength (first.toNat / 64)))
          return raw % Varint.room (first.toNat / 64) : Decoder Nat) c := by
      rw [Decoder.read, Varint.decode, hrest]
      exact read_bind (fun _ => (· % Varint.room (first.toNat / 64))) c
    rw [hread, hlength]
    -- The class is shifted out of the first byte instead of divided out.
    show Agrees _ _ ((do
      let raw ← uint ctx (1 <<< (first.toNat >>> 6))
      let max ← uintMax (1 <<< (first.toNat >>> 6))
      return raw &&& (max >>> 2) : Checked Nat) w) _
    have hshift : first.toNat >>> 6 = first.toNat / 64 := Nat.shiftRight_eq_div_pow _ _
    rw [hshift]
    refine (uint_follows hwidth).bind (fun raw raw' hraw => ?_) w c hw
    refine .check (uintMax_eq_ok _) (.pure ?_)
    rw [hraw, ← hlength, Varint.masked_eq_mod hcls]

/-! ## Sequences -/

namespace Sequence

/-- The same content is left in a valid window. -/
structure Shows (seq' : Sequence) (seq : TlsWire.Sequence) : Prop where
  scope : seq'.scope.Shows seq.scope
  bounded : seq'.bounded = seq.bounded
  count : seq'.count = seq.count

/-- A head is a number, and then content of that length is split off. -/
theorem ofHead_follows {ctx : Context} {head : Head} (h : head.Readable) :
    Follows Shows (ofHead ctx head) (TlsWire.Sequence.ofHead ctx head) := by
  cases head with
  | fixed width =>
    refine (uint_follows h).bind fun length length' hlength => ?_
    subst hlength
    exact split_follows.bind fun w c hw => .pure ⟨hw, rfl, rfl⟩
  | varint =>
    refine varint_follows.bind fun length length' hlength => ?_
    subst hlength
    exact split_follows.bind fun w c hw => .pure ⟨hw, rfl, rfl⟩
  | unbounded =>
    refine .window fun w c hw => .check (remaining_eq_ok hw) ?_
    exact split_follows.bind fun w c hw => .pure ⟨hw, rfl, rfl⟩

variable {ctx : Context} {elem' : Context → Checked α} {elem : Context → Decoder α}
  {seq' : Sequence} {seq : TlsWire.Sequence}

/-- Room is reserved for what is left, which can be told. -/
theorem capacity_eq_ok {minLen : Nat} (h : seq'.Shows seq) :
    seq'.capacity ctx minLen = .ok (seq.capacity ctx minLen) := by
  rw [capacity, remaining_eq_ok h.scope]
  rfl

/-- An element moves the index exactly if it uses up content, because it moves forwards. -/
theorem next_agrees (helem : ∀ ctx, Follows Eq (elem' ctx) (elem ctx))
    (hforward : ∀ ctx, Decoder.Forward (elem ctx)) (h : seq'.Shows seq) :
    Agrees Shows Eq (next ctx elem' seq') (TlsWire.Sequence.next ctx elem seq) := by
  obtain ⟨scope', bounded, count⟩ := seq'
  obtain ⟨scope, _, _⟩ := seq
  obtain ⟨hscope, ⟨⟩, ⟨⟩⟩ := h
  replace hscope : scope'.Shows scope := hscope
  have hpos : scope'.pos = scope.pos := by rw [← hscope.cursor, Window.pos_cursor]
  rw [next, remaining_eq_ok hscope]
  show Agrees Shows Eq (if scope.remaining = 0 then _ else _) _
  unfold TlsWire.Sequence.next
  simp only [Cursor.isEmpty, beq_iff_eq, hpos]
  split
  case isTrue => exact .ok rfl ⟨hscope, rfl, rfl⟩
  case isFalse =>
    cases (ctx.push Step.elementName scope.pos).checkCollect count with
    | error e => exact .error ⟨hscope, rfl, rfl⟩
    | ok _ =>
      -- The plain decoder only moves forwards, so that comparing indices tells whether it has
      -- moved.
      have hends := hforward (ctx.push Step.elementName scope.pos) scope
      have hrun := helem (ctx.push Step.elementName scope.pos) _ _ hscope
      simp only
      generalize elem' (ctx.push Step.elementName scope.pos) scope' = r' at hrun ⊢
      generalize elem (ctx.push Step.elementName scope.pos) scope = r at hrun hends ⊢
      cases hrun with
      | error hstate => exact .error ⟨hstate, rfl, rfl⟩
      | @ok a b w c hvalue hstate =>
        subst hvalue
        cases hends with
        | @ok _ taken _ hadv =>
          have hread : w.read = scope'.read + taken.length := by
            have hconsumed := hadv.consumed
            rwa [← hstate.cursor, ← hscope.cursor] at hconsumed
          have hremaining := hadv.remaining
          -- One looks at the index, the other at what is left.
          show Agrees Shows Eq (if w.read = scope'.read then _ else _)
            (if c.remaining < scope.remaining then _ else _)
          split
          case isTrue heq =>
            rw [if_neg (by omega)]
            exact .error ⟨hstate, rfl, rfl⟩
          case isFalse hne =>
            rw [if_pos (by omega)]
            exact .ok rfl ⟨hstate, rfl, rfl⟩

/-- Every element uses up content, so the loop comes to an end within the budget. -/
theorem fold_eq_ok {add : σ → α → Except DecodeError σ} {budget : Nat} {acc : σ}
    {seq' : Sequence} {seq : TlsWire.Sequence} (helem : ∀ ctx, Follows Eq (elem' ctx) (elem ctx))
    (hforward : ∀ ctx, Decoder.Forward (elem ctx)) (h : seq'.Shows seq)
    (hbudget : seq.scope.remaining ≤ budget) :
    fold ctx elem' add budget acc seq' = .ok (TlsWire.Sequence.fold ctx elem add acc seq) := by
  have hnext : Agrees Shows Eq (next ctx elem' seq') (TlsWire.Sequence.next ctx elem seq) :=
    next_agrees helem hforward h
  rw [fold, TlsWire.Sequence.fold_eq]
  generalize hfound : TlsWire.Sequence.next ctx elem seq = r at hnext ⊢
  generalize next ctx elem' seq' = r' at hnext ⊢
  cases hnext with
  | error => rfl
  | @ok found _ rest' rest hvalue hstate =>
    subst hvalue
    cases found with
    | none => rfl
    | some a =>
      -- The element has used up some of what is left, so one less is enough for the others.
      have hsolid := TlsWire.Sequence.remaining_lt_of_next hfound
      cases budget with
      -- Nothing was left for an element to use up.
      | zero => omega
      | succ budget =>
        have hleft : rest.scope.remaining ≤ budget := by omega
        simp only [bind, Except.bind]
        cases add acc a with
        | error e => rfl
        | ok acc' => exact fold_eq_ok helem hforward hstate hleft
  termination_by budget

/-- The budget is what is left in the beginning. -/
theorem all_eq_ok {add : σ → α → Except DecodeError σ} {acc : σ}
    (helem : ∀ ctx, Follows Eq (elem' ctx) (elem ctx))
    (hforward : ∀ ctx, Decoder.Forward (elem ctx)) (h : seq'.Shows seq) :
    seq'.all ctx elem' add acc = .ok (seq.fold ctx elem add acc) := by
  rw [all, remaining_eq_ok h.scope]
  exact fold_eq_ok helem hforward h (Nat.le_refl _)

end Sequence

/-! ## Where a run ends -/

/-- A window that has moved forwards is still within its buffer. -/
theorem within_of_advances {w w' : Window} {b : Bytes} (hw : w.Valid)
    (h : w.cursor.Advances b w'.cursor) : w.pos ≤ w'.pos ∧ w'.pos ≤ w.stop := by
  have hpos : w'.pos = w.pos + b.length := h.pos
  have hremaining : w.data.length - w.read = b.length + w'.cursor.remaining := h.remaining
  have hread : w.read ≤ w.data.length := hw
  rw [hpos, Window.pos, Window.stop]
  omega

/-- A checked decoder ends within the buffer that it starts in, and where the plain one does. -/
theorem Follows.exists_end {d' : Checked α} {d : Decoder α} (h : Follows Eq d' d)
    (hforward : Decoder.Forward d) {w : Window} (hw : w.Valid) :
    ∃ r w', d' w = .ok (r, w') ∧ w.pos ≤ w'.pos ∧ w'.pos ≤ w.stop ∧
      d w.cursor = Decoder.ofExcept r w'.cursor := by
  have hagrees := h w w.cursor hw.shows
  have hends := hforward w.cursor
  generalize d w.cursor = r at hagrees hends ⊢
  generalize d' w = r' at hagrees ⊢
  -- Only these two ends are possible. A fault is none of them.
  cases hagrees with
  | @ok a _ w' _ hvalue hstate =>
    subst hvalue
    obtain rfl := hstate.cursor
    cases hends with
    | ok hadv =>
      have hwithin := within_of_advances hw hadv
      exact ⟨.ok a, w', rfl, hwithin.1, hwithin.2, rfl⟩
  | @error e w' _ hstate =>
    obtain rfl := hstate.cursor
    cases hends with
    | error hadv =>
      have hwithin := within_of_advances hw hadv
      exact ⟨.error e, w', rfl, hwithin.1, hwithin.2, rfl⟩

end Checked

end TlsWire
