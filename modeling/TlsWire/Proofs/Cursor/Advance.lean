import TlsWire.Uint

/-!
# Cursors that move over bytes

`Advances c b c'` says that a cursor `c` moves over exactly the bytes `b` and is `c'` afterwards.
Every read is described by it: a read succeeds exactly when the cursor can move over bytes of the
form that the read is for, and the value read is the one that has this form.

* `Cursor.take_ok`, `Cursor.readByte_ok`, `Cursor.split_ok` — plain bytes;
* `Uint.decode_ok` — the `width`-byte form of a number.
-/

namespace TlsWire

namespace Cursor

/-- `c` moves over `bytes` and is `after` afterwards. -/
structure Advances (c : Cursor) (bytes : Bytes) (after : Cursor) : Prop where
  rest : c.rest = bytes ++ after.rest
  base : after.base = c.base
  consumed : after.consumed = c.consumed + bytes.length

variable {c c' c'' : Cursor} {b b' : Bytes}

theorem advances_refl (c : Cursor) : c.Advances [] c := ⟨rfl, rfl, rfl⟩

/-- One move after another is a move over both runs of bytes. -/
theorem Advances.trans (h : c.Advances b c') (h' : c'.Advances b' c'') :
    c.Advances (b ++ b') c'' where
  rest := by rw [h.rest, h'.rest, List.append_assoc]
  base := h'.base.trans h.base
  consumed := by rw [h'.consumed, h.consumed, List.length_append, Nat.add_assoc]

/-- A cursor that moves over nothing stays where it is. -/
theorem Advances.eq_of_nil (h : c.Advances [] c') : c' = c :=
  Cursor.ext h.rest.symm h.base h.consumed

/-- Where the cursor goes is determined by the bytes that it moves over. -/
theorem Advances.unique (h : c.Advances b c') (h' : c.Advances b c'') : c' = c'' :=
  Cursor.ext (List.append_cancel_left (h.rest.symm.trans h'.rest))
    (h.base.trans h'.base.symm) (h.consumed.trans h'.consumed.symm)

/-- What is moved over no longer remains. -/
theorem Advances.remaining (h : c.Advances b c') : c.remaining = b.length + c'.remaining := by
  rw [c.remaining_eq, c'.remaining_eq, h.rest, List.length_append]

/-- The position moves on by as many bytes. -/
theorem Advances.pos (h : c.Advances b c') : c'.pos = c.pos + b.length := by
  rw [Cursor.pos, Cursor.pos, h.base, h.consumed, Nat.add_assoc]

/-- The offset of the end of the scope in the whole input. -/
def stop (c : Cursor) : Nat := c.pos + c.remaining

/-- The end of the scope stays where it is. -/
theorem Advances.stop (h : c.Advances b c') : c'.stop = c.stop := by
  rw [Cursor.stop, Cursor.stop, h.pos, h.remaining, Nat.add_assoc]

theorem Advances.pos_le (h : c.Advances b c') : c.pos ≤ c'.pos := by
  rw [h.pos]
  exact Nat.le_add_right _ _

theorem pos_le_stop (c : Cursor) : c.pos ≤ c.stop := Nat.le_add_right _ _

/-- A cursor can move over what is at the front of its rest. -/
theorem exists_advances {t : Bytes} (h : c.rest = b ++ t) : ∃ c', c.Advances b c' ∧ c'.rest = t :=
  ⟨⟨t, c.base, c.consumed + b.length, t.length, rfl⟩, ⟨h, rfl, rfl⟩, rfl⟩

/-- A move over two runs of bytes stops between them. -/
theorem Advances.split (h : c.Advances (b ++ b') c'') :
    ∃ c', c.Advances b c' ∧ c'.Advances b' c'' := by
  obtain ⟨c', hc', hrest⟩ := exists_advances (h.rest.trans (List.append_assoc b b' c''.rest))
  refine ⟨c', hc', hrest, h.base.trans hc'.base.symm, ?_⟩
  rw [h.consumed, hc'.consumed, List.length_append, Nat.add_assoc]

/-- The cursor over a whole input moves over its front. -/
theorem advances_ofBytes {data : Bytes} (h : (ofBytes data).Advances b c) :
    c.consumed = b.length ∧ data = b ++ c.rest :=
  ⟨h.consumed.trans (Nat.zero_add _), h.rest⟩

/-! ## Plain reads -/

/-- A run of bytes is taken exactly when the cursor can move over it. -/
theorem take_ok {n : Nat} : c.take n = .ok (b, c') ↔ c.Advances b c' ∧ b.length = n := by
  rw [take_eq_ok]
  constructor
  · rintro ⟨_, hrest, hlen, hbase, hconsumed⟩
    exact ⟨⟨hrest, hbase, by rw [hconsumed, hlen]⟩, hlen⟩
  · rintro ⟨h, hlen⟩
    refine ⟨?_, h.rest, hlen, h.base, by rw [h.consumed, hlen]⟩
    rw [h.remaining, hlen]
    exact Nat.le_add_right _ _

/-- A byte is read exactly when the cursor can move over it. -/
theorem readByte_ok {x : UInt8} : c.readByte = .ok (x, c') ↔ c.Advances [x] c' := by
  unfold readByte
  cases h : c.take 1 with
  | error t =>
    -- A move over one byte would have let the read succeed.
    have hno : ¬ c.Advances [x] c' := by
      intro hadv
      rw [(take_ok (n := 1)).mpr ⟨hadv, rfl⟩] at h
      cases h
    simp [bind, Except.bind, hno]
  | ok r =>
    obtain ⟨bytes, after⟩ := r
    obtain ⟨hadv, hlen⟩ := take_ok.mp h
    obtain ⟨y, rfl⟩ := List.length_eq_one_iff.mp hlen
    simp only [bind, Except.bind, pure, Except.pure, List.headD_cons, Except.ok.injEq,
      Prod.mk.injEq]
    constructor
    · rintro ⟨rfl, rfl⟩
      exact hadv
    · intro hadv'
      obtain ⟨rfl, _⟩ := List.cons.inj (hadv.rest.symm.trans hadv'.rest)
      exact ⟨rfl, hadv.unique hadv'⟩

/-- The bytes at the position of `c` as a scope of their own. -/
def scope (c : Cursor) (bytes : Bytes) : Cursor := { ofBytes bytes with base := c.pos }

/-- A scope is split off exactly when the cursor can move over its bytes. It starts where they do.
-/
theorem split_ok {n : Nat} {child : Cursor} :
    c.split n = .ok (child, c') ↔
      ∃ bytes, c.Advances bytes c' ∧ bytes.length = n ∧ child = c.scope bytes := by
  rw [split_eq_ok]
  simp only [take_ok, and_assoc, scope]

end Cursor

/-! ## Numbers -/

/-- A fixed-width read succeeds on the form of a number that the width has room for. -/
theorem Uint.decode_ok {width n : Nat} {c c' : Cursor} :
    Uint.decode width c = .ok (n, c') ↔
      n < byteRange width ∧ c.Advances (bigEndian width n) c' := by
  have hrun : Uint.decode width c = .ok (n, c') ↔
      ∃ bytes, c.take width = .ok (bytes, c') ∧ n = ofBigEndian bytes := by
    unfold Uint.decode
    -- A number is read by taking its bytes, and nothing else can go wrong.
    cases c.take width with
    | error t => simp [bind, Except.bind]
    | ok r =>
      obtain ⟨bytes, after⟩ := r
      simp only [bind, Except.bind, pure, Except.pure, Except.ok.injEq, Prod.mk.injEq]
      constructor
      · rintro ⟨rfl, rfl⟩
        exact ⟨bytes, ⟨rfl, rfl⟩, rfl⟩
      · rintro ⟨_, ⟨rfl, rfl⟩, rfl⟩
        exact ⟨rfl, rfl⟩
  rw [hrun]
  constructor
  · rintro ⟨bytes, htake, rfl⟩
    obtain ⟨hadv, rfl⟩ := Cursor.take_ok.mp htake
    -- Any bytes of this width are the form of the number that they make up.
    rw [bigEndian_ofBigEndian]
    exact ⟨ofBigEndian_lt bytes, hadv⟩
  · rintro ⟨hlt, hadv⟩
    refine ⟨bigEndian width n, Cursor.take_ok.mpr ⟨hadv, length_bigEndian width n⟩, ?_⟩
    rw [ofBigEndian_bigEndian, Nat.mod_eq_of_lt hlt]

end TlsWire
