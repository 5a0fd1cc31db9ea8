import TlsWire.Proofs.WireForm

/-!
# Forms that shrink

A value that is written again need not get the form it was read from: varints take their least
class, maps their own order. `Shrunk` says how the two are related. The relation goes through
concatenation (`Shrunk.append`, `Pieces.shrunk`).
-/

namespace TlsWire

variable {α : Type}

/-- `b'` is no longer than `b`, does not vanish, and is the same if the form is rigid. -/
structure Shrunk (rigid : Prop) (b b' : Bytes) : Prop where
  length_le : b'.length ≤ b.length
  ne_nil : b ≠ [] → b' ≠ []
  eq : rigid → b' = b

namespace Shrunk

variable {rigid rigid' : Prop} {b b' p p' : Bytes}

theorem refl (b : Bytes) : Shrunk rigid b b := ⟨Nat.le_refl _, id, fun _ => rfl⟩

theorem imp (h : Shrunk rigid b b') (himp : rigid' → rigid) : Shrunk rigid' b b' :=
  ⟨h.length_le, h.ne_nil, fun hr => h.eq (himp hr)⟩

/-- Both parts shrink, so their concatenation does. It vanishes only if both were empty. -/
theorem append (h : Shrunk rigid p p') (h' : Shrunk rigid b b') :
    Shrunk rigid (p ++ b) (p' ++ b') where
  length_le := by
    rw [List.length_append, List.length_append]
    exact Nat.add_le_add h.length_le h'.length_le
  ne_nil hne hnil := by
    -- Both parts have vanished, which they only do if they were empty before.
    obtain ⟨hp, hb⟩ := List.append_eq_nil_iff.mp hnil
    refine hne (List.append_eq_nil_iff.mpr ⟨?_, ?_⟩)
    · exact Classical.byContradiction fun hp' => h.ne_nil hp' hp
    · exact Classical.byContradiction fun hb' => h'.ne_nil hb' hb
  eq hr := by rw [h.eq hr, h'.eq hr]

/-- Where forms are not rigid, only the length of the first one counts. -/
theorem of_length_eq (h : Shrunk False b b') (hlen : b.length = p.length) : Shrunk False p b' where
  length_le := hlen ▸ h.length_le
  ne_nil hne := h.ne_nil fun hb => hne (List.eq_nil_of_length_eq_zero (by rw [← hlen, hb]; rfl))
  eq := False.elim

end Shrunk

/-- Pieces that shrink make up a concatenation that shrinks. -/
theorem Pieces.shrunk {form written : α → Bytes → Prop} {rigid : Prop} {xs : List α} {b b' : Bytes}
    (h : Pieces form xs b) (h' : Pieces written xs b')
    (hitem : ∀ x ∈ xs, ∀ p p', form x p → written x p' → form x p' ∧ Shrunk rigid p p') :
    Pieces form xs b' ∧ Shrunk rigid b b' := by
  -- By induction on the pieces that were read, for any others that are written.
  induction h generalizing b' with
  | nil =>
    rw [Pieces.nil_iff.mp h']
    exact ⟨.nil, .refl []⟩
  | @cons x xs p b head _ ih =>
    obtain ⟨p', b', rfl, head', tail'⟩ := Pieces.cons_iff.mp h'
    obtain ⟨hform, hshrunk⟩ := hitem x List.mem_cons_self p p' head head'
    obtain ⟨hforms, htail⟩ := ih tail' fun y hy => hitem y (List.mem_cons_of_mem _ hy)
    exact ⟨.cons hform hforms, hshrunk.append htail⟩

/-! ## Heads -/

/-- Lengths are told by heads of at most eight bytes. -/
def Head.Narrow : Head → Prop
  | .fixed width => width ≤ 8
  | _ => True

/-- No directive gives a head of more than three bytes. -/
theorem Directive.narrow_of_head? {d : Directive} {h : Head} (hd : d.head? = some h) :
    h.Narrow := by
  cases h with
  | fixed width =>
    obtain ⟨_, _, hwidth⟩ := Directive.head?_eq_fixed.mp hd
    show width ≤ 8
    omega
  | _ => trivial

/-- A smaller number has a form of the same length. -/
theorem Varint.Form.mono {n n' : Nat} {b : Bytes} (h : Form n b) (hle : n' ≤ n) :
    ∃ b', Form n' b' ∧ b'.length = b.length := by
  obtain ⟨cls, hcls, hroom⟩ := h
  exact ⟨_, .ofClass cls hcls (Nat.lt_of_le_of_lt hle hroom),
    by rw [length_bigEndian, length_bigEndian]⟩

end TlsWire
