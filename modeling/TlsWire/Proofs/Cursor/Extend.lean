import TlsWire.Proofs.Varint

/-!
# More bytes at the end of a scope

`c.extend t` is the cursor `c` in a scope that goes on with `t`. A read that stays within the
original scope does not notice the difference. A read that leaves it goes on to fail as long as `t`
does not bring the bytes it lacks, and counts what `t` brings as available.

`Stable t r r'` says this of the outcomes of a plain read without and with `t`.
-/

namespace TlsWire

namespace Cursor

/-- The cursor in a scope with `t` behind it. -/
def extend (c : Cursor) (t : Bytes) : Cursor where
  rest := c.rest ++ t
  base := c.base
  consumed := c.consumed
  remaining := c.remaining + t.length
  remaining_eq := by rw [c.remaining_eq, List.length_append]

variable {α β : Type} {c : Cursor} {t : Bytes}

@[simp] theorem pos_extend : (c.extend t).pos = c.pos := rfl

/-- A cursor over a longer input is the one over its front with more behind it. -/
theorem ofBytes_append (data t : Bytes) : ofBytes (data ++ t) = (ofBytes data).extend t := by
  apply Cursor.ext
  · rfl
  · rfl
  · rfl

/-- How a read ends when `t` is there as well, given how it ends without. -/
inductive Stable (t : Bytes) :
    Except Truncated (α × Cursor) → Except Truncated (α × Cursor) → Prop where
  | ok (a : α) (c : Cursor) : Stable t (.ok (a, c)) (.ok (a, c.extend t))
  | short {needed available : Nat} {r : Except Truncated (α × Cursor)}
      (hshort : available < needed)
      (hmore : t.length < needed - available → r = .error ⟨needed, available + t.length⟩) :
      Stable t (.error ⟨needed, available⟩) r

/-- A run of bytes that is in the scope is taken in a longer one too. One that is not is still
lacking as many bytes as the longer scope does not bring. -/
theorem take_stable (n : Nat) (c : Cursor) (t : Bytes) :
    Stable t (c.take n) ((c.extend t).take n) := by
  by_cases hn : n ≤ c.remaining
  -- There are enough bytes in the scope, and `t` stays behind them.
  · have hrest : n ≤ c.rest.length := c.remaining_eq ▸ hn
    have htake : c.take n = .ok (c.rest.take n, ⟨c.rest.drop n, c.base, c.consumed + n,
        c.remaining - n, by rw [c.remaining_eq, List.length_drop]⟩) := by
      rw [take, if_pos hn]
    have hlonger : (c.extend t).take n = .ok (c.rest.take n, Cursor.extend ⟨c.rest.drop n, c.base,
        c.consumed + n, c.remaining - n, by rw [c.remaining_eq, List.length_drop]⟩ t) := by
      apply take_eq_ok.mpr
      refine ⟨?_, ?_, List.length_take_of_le hrest, rfl, rfl⟩
      · show n ≤ c.remaining + t.length
        omega
      · show c.rest ++ t = c.rest.take n ++ (c.rest.drop n ++ t)
        rw [← List.append_assoc, List.take_append_drop]
    rw [htake, hlonger]
    exact .ok _ _
  -- There are too few, and there still are as long as `t` does not bring the others.
  · have htake : c.take n = .error ⟨n, c.remaining⟩ := by
      rw [take, if_neg hn]
    rw [htake]
    refine .short (by omega) fun hmore => ?_
    have hlonger : ¬ n ≤ (c.extend t).remaining := by
      show ¬ n ≤ c.remaining + t.length
      omega
    rw [take, if_neg hlonger]
    rfl

/-- What is computed from what was read does not depend on what follows. -/
theorem Stable.map {r r' : Except Truncated (α × Cursor)} (h : Stable t r r') (f : α → β) :
    Stable t (r.map fun p => (f p.1, p.2)) (r'.map fun p => (f p.1, p.2)) := by
  cases h with
  | ok a c => exact .ok (f a) c
  | short hshort hmore =>
    refine .short hshort fun hlen => ?_
    rw [hmore hlen]
    rfl

/-- One byte is a run of bytes. -/
theorem readByte_stable (c : Cursor) (t : Bytes) :
    Stable t c.readByte (c.extend t).readByte := by
  have hmap : ∀ c : Cursor, c.readByte = (c.take 1).map fun p => (p.1.headD 0, p.2) := by
    intro c
    unfold readByte
    cases c.take 1 <;> rfl
  rw [hmap, hmap]
  exact (take_stable 1 c t).map fun bytes => bytes.headD 0

/-- What is split off is the same, and starts in the same place. -/
theorem split_stable (n : Nat) (c : Cursor) (t : Bytes) :
    Stable t (c.split n) ((c.extend t).split n) := by
  have hmap : ∀ c : Cursor, c.split n =
      (c.take n).map fun p => ({ ofBytes p.1 with base := c.pos }, p.2) := by
    intro c
    unfold split
    cases c.take n <;> rfl
  rw [hmap, hmap, pos_extend]
  exact (take_stable n c t).map fun bytes => { ofBytes bytes with base := c.pos }

end Cursor

open Cursor

/-- A number of fixed width is a run of bytes. -/
theorem Uint.decode_stable (width : Nat) (c : Cursor) (t : Bytes) :
    Stable t (Uint.decode width c) (Uint.decode width (c.extend t)) := by
  have hmap : ∀ c : Cursor, Uint.decode width c =
      (c.take width).map fun p => (ofBigEndian p.1, p.2) := by
    intro c
    unfold Uint.decode
    cases c.take width <;> rfl
  rw [hmap, hmap]
  exact (take_stable width c t).map ofBigEndian

/-- The class of a varint is told by its first byte, which is there or is the one lacking. -/
theorem Varint.decode_stable (c : Cursor) (t : Bytes) :
    Stable t (Varint.decode c) (Varint.decode (c.extend t)) := by
  cases hrest : c.rest with
  | nil =>
    -- One byte is needed to tell the class, so a `t` that does not bring it is empty.
    rw [Varint.decode_nil hrest]
    refine .short (by decide) fun hmore => ?_
    obtain rfl : t = [] := List.eq_nil_of_length_eq_zero (by omega)
    have hnil : (c.extend []).rest = [] := by
      show c.rest ++ [] = []
      rw [hrest]
      rfl
    rw [Varint.decode_nil hnil]
    rfl
  | cons first tail =>
    -- The first byte is the same, so what is left is a number of the same width.
    have hcons : (c.extend t).rest = first :: (tail ++ t) := by
      show c.rest ++ t = first :: (tail ++ t)
      rw [hrest]
      rfl
    rw [Varint.decode_cons hrest, Varint.decode_cons hcons]
    exact (Uint.decode_stable (Varint.formLength (first.toNat / 64)) c t).map
      fun raw => raw % Varint.room (first.toNat / 64)

end TlsWire
