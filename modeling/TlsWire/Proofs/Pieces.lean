import TlsWire.Bytes
import Mathlib.Data.List.Perm.Basic

/-!
# Concatenations of forms

Arrays, vectors and maps put the forms of their items back to back. `Pieces form xs b` says that
`b` is such a concatenation: one piece for each item of `xs`, in order, each a form of its item.

* `Pieces.perm` — the items of a concatenation in another order have one of the same length;
* `Pieces.length_le` — items whose pieces are not empty are at most as many as there are bytes.
-/

namespace TlsWire

variable {α β : Type}

/-- `b` consists of one form for each item of a list, back to back. -/
inductive Pieces (form : α → Bytes → Prop) : List α → Bytes → Prop where
  | nil : Pieces form [] []
  | cons {x : α} {xs : List α} {p b : Bytes} (head : form x p) (tail : Pieces form xs b) :
      Pieces form (x :: xs) (p ++ b)

namespace Pieces

variable {form other : α → Bytes → Prop}

/-- No items, no bytes. -/
@[simp] theorem nil_iff {b : Bytes} : Pieces form [] b ↔ b = [] := by
  constructor
  · intro h
    cases h
    rfl
  · rintro rfl
    exact .nil

/-- The first piece is that of the first item. -/
theorem cons_iff {x : α} {xs : List α} {b : Bytes} :
    Pieces form (x :: xs) b ↔ ∃ p b', b = p ++ b' ∧ form x p ∧ Pieces form xs b' := by
  constructor
  · intro h
    cases h with
    | cons head tail => exact ⟨_, _, rfl, head, tail⟩
  · rintro ⟨p, b', rfl, head, tail⟩
    exact .cons head tail

/-- Forms may be replaced item by item. -/
theorem imp {xs : List α} {b : Bytes} (h : Pieces form xs b)
    (himp : ∀ x ∈ xs, ∀ p, form x p → other x p) : Pieces other xs b := by
  induction h with
  | nil => exact .nil
  | cons head _ ih =>
    exact .cons (himp _ List.mem_cons_self _ head)
      (ih fun x hx => himp x (List.mem_cons_of_mem _ hx))

/-- Items may be replaced by others that have their forms. -/
theorem replace {R : α → β → Prop} {form' : β → Bytes → Prop} {xs : List α} {ys : List β}
    {b : Bytes} (h : Pieces form xs b) (hxs : List.Forall₂ R xs ys)
    (hform : ∀ x y p, R x y → form x p → form' y p) : Pieces form' ys b := by
  induction h generalizing ys with
  | nil =>
    cases hxs
    exact .nil
  | cons head _ ih =>
    cases hxs with
    | cons hx hxs => exact .cons (hform _ _ _ hx head) (ih hxs)

/-- The pieces one by one. -/
theorem iff_exists_forall₂ {xs : List α} {b : Bytes} :
    Pieces form xs b ↔ ∃ ps, List.Forall₂ form xs ps ∧ b = ps.flatten := by
  constructor
  · intro h
    induction h with
    | nil => exact ⟨[], .nil, rfl⟩
    | cons head _ ih =>
      obtain ⟨ps, hps, rfl⟩ := ih
      exact ⟨_ :: ps, .cons head hps, rfl⟩
  · rintro ⟨ps, hps, rfl⟩
    -- The other way around, the pieces are put together one by one.
    induction hps with
    | nil => exact .nil
    | cons head _ ih => exact .cons head ih

/-- Every item has its piece. -/
theorem exists_form {xs : List α} {b : Bytes} (h : Pieces form xs b) {x : α} (hx : x ∈ xs) :
    ∃ p, form x p ∧ p.length ≤ b.length := by
  induction h with
  | nil => cases hx
  | @cons y ys p b head _ ih =>
    rw [List.length_append]
    rcases List.mem_cons.mp hx with rfl | hx
    · exact ⟨p, head, by omega⟩
    · obtain ⟨q, hq, hlen⟩ := ih hx
      exact ⟨q, hq, by omega⟩

/-- The forms of images are forms of the items. -/
theorem map_iff {f : β → α} {ys : List β} {b : Bytes} :
    Pieces form (ys.map f) b ↔ Pieces (fun y => form (f y)) ys b := by
  induction ys generalizing b with
  | nil => simp
  | cons y ys ih => simp only [List.map_cons, cons_iff, ih]

/-- Every piece takes up at least one byte, so there are no more items than bytes. -/
theorem length_le {xs : List α} {b : Bytes} (h : Pieces form xs b)
    (hne : ∀ x ∈ xs, ∀ p, form x p → p ≠ []) : xs.length ≤ b.length := by
  induction h with
  | nil => exact Nat.le_refl 0
  | @cons x xs p b head _ ih =>
    -- The first piece accounts for the first item, and the others for the rest.
    have hp : 0 < p.length := List.length_pos_iff.mpr (hne x List.mem_cons_self p head)
    have htail := ih fun y hy => hne y (List.mem_cons_of_mem _ hy)
    rw [List.length_cons, List.length_append]
    omega

/-- Pieces that are not short add up. -/
theorem mul_length_le {xs : List α} {b : Bytes} {len : Nat} (h : Pieces form xs b)
    (hform : ∀ x p, form x p → len ≤ p.length) : len * xs.length ≤ b.length := by
  induction h with
  | nil => exact Nat.le_refl 0
  | @cons x xs p b head _ ih =>
    have hhead : len ≤ p.length := hform x p head
    rw [List.length_cons, List.length_append, Nat.mul_succ]
    omega

/-- Empty pieces come to nothing. -/
theorem eq_nil {xs : List α} {b : Bytes} (h : Pieces form xs b)
    (hform : ∀ x p, form x p → p = []) : b = [] := by
  induction h with
  | nil => rfl
  | @cons x xs p b head _ ih => rw [hform x p head, ih, List.append_nil]

/-- The same piece any number of times. -/
theorem exists_replicate {x : α} {p : Bytes} (h : form x p) (n : Nat) :
    ∃ b, Pieces form (List.replicate n x) b ∧ b.length = p.length * n := by
  induction n with
  | zero => exact ⟨[], .nil, rfl⟩
  | succ n ih =>
    obtain ⟨b, hb, hlen⟩ := ih
    exact ⟨p ++ b, .cons h hb, by rw [List.length_append, hlen, Nat.mul_succ, Nat.add_comm]⟩

/-- Bytes are determined by what determines every piece. -/
theorem eq_of_map_eq {f : α → β} {xs ys : List α} {b b' : Bytes} (h : Pieces form xs b)
    (h' : Pieces form ys b') (hmap : xs.map f = ys.map f)
    (heq : ∀ x y p q, f x = f y → form x p → form y q → p = q) : b = b' := by
  -- The images are the same, so the items come in pairs and no piece is left over.
  induction h generalizing ys b' with
  | nil =>
    obtain rfl := List.map_eq_nil_iff.mp hmap.symm
    exact (nil_iff.mp h').symm
  | @cons x xs p b head _ ih =>
    obtain ⟨y, ys, rfl, hy, hys⟩ := List.map_eq_cons_iff.mp hmap.symm
    obtain ⟨q, b', rfl, head', tail'⟩ := cons_iff.mp h'
    rw [heq x y p q hy.symm head head', ih tail' hys.symm]

/-- The pieces move with their items, so the bytes change and their number does not. -/
theorem perm {xs ys : List α} {b : Bytes} (h : Pieces form xs b) (hperm : xs.Perm ys) :
    ∃ b', Pieces form ys b' ∧ b'.length = b.length := by
  -- Pieces are moved whole, so it is enough to follow the exchange of two neighbours.
  induction hperm generalizing b with
  | nil => exact ⟨b, h, rfl⟩
  | cons x _ ih =>
    obtain ⟨p, t, rfl, hp, ht⟩ := cons_iff.mp h
    obtain ⟨t', ht', hlen⟩ := ih ht
    exact ⟨p ++ t', .cons hp ht', by rw [List.length_append, List.length_append, hlen]⟩
  | swap x y l =>
    obtain ⟨p, t, rfl, hp, ht⟩ := cons_iff.mp h
    obtain ⟨q, t, rfl, hq, ht⟩ := cons_iff.mp ht
    refine ⟨q ++ (p ++ t), .cons hq (.cons hp ht), ?_⟩
    simp only [List.length_append]
    omega
  | trans _ _ ih ih' =>
    obtain ⟨b', hb', hlen⟩ := ih h
    obtain ⟨b'', hb'', hlen'⟩ := ih' hb'
    exact ⟨b'', hb'', hlen'.trans hlen⟩

end Pieces

end TlsWire
