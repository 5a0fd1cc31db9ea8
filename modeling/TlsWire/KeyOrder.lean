/-!
# Key orders

The entries of a map are kept in the order of their keys. A `KeyOrder` is a comparison that is a
total order and tells two keys apart exactly when they differ. Orders are built along the types of
the keys: numbers by value, lists, arrays and records lexicographically, an absent option before a
present one.

That keys which compare as equal are equal is what deriving an order gives. It leaves out types that
take different values for one key, such as names without regard to case: where the values of one key
are also written alike, such a type is covered through its quotient, whose values are the keys.
-/

namespace TlsWire

/-- A total order on keys. -/
structure KeyOrder (α : Type) where
  cmp : α → α → Ordering
  [trans : Std.TransCmp cmp]
  /-- Only equal keys compare as equal. No coarser equality will do here: a map has at most one
  entry for a key, and proofs go from equal keys to equal forms. -/
  [lawful : Std.LawfulEqCmp cmp]

attribute [instance] KeyOrder.trans KeyOrder.lawful

namespace KeyOrder

variable {α β : Type}

/-- Pulls an order back along an injective function. -/
def onKey (order : KeyOrder β) (f : α → β) (injective : ∀ a b, f a = f b → a = b) :
    KeyOrder α where
  cmp a b := order.cmp (f a) (f b)
  trans :=
    { eq_swap := Std.OrientedCmp.eq_swap
      isLE_trans := Std.TransCmp.isLE_trans }
  lawful :=
    { compare_self := Std.ReflCmp.compare_self
      eq_of_compare := fun h => injective _ _ (Std.LawfulEqCmp.eq_of_compare h) }

/-- Natural numbers by value. -/
def nat : KeyOrder Nat where
  cmp := compare

/-- Fixed-width numbers by value. -/
def bitVec (width : Nat) : KeyOrder (BitVec width) :=
  nat.onKey BitVec.toNat fun _ _ => BitVec.eq_of_toNat_eq

/-- Bytes by value. -/
def byte : KeyOrder UInt8 :=
  nat.onKey UInt8.toNat fun _ _ => UInt8.toNat_inj.mp

def unit : KeyOrder Unit where
  cmp _ _ := .eq
  trans := { eq_swap := rfl, isLE_trans := fun _ _ => rfl }
  lawful := { compare_self := rfl, eq_of_compare := fun _ => rfl }

/-- Lexicographic, a list before its extensions. -/
def list (order : KeyOrder α) : KeyOrder (List α) where
  cmp := List.compareLex order.cmp

theorem then_isLE_trans {o p q o' p' q' : Ordering} (eq_right : o = .eq → q = p)
    (eq_left : p = .eq → q = o) (lt : o = .lt → p = .lt → q = .lt)
    (le : o'.isLE = true → p'.isLE = true → q'.isLE = true)
    (h : (o.then o').isLE = true) (h' : (p.then p').isLE = true) : (q.then q').isLE = true := by
  cases o <;> cases p <;> simp_all [Ordering.then]

/-- The first components decide, then the second ones. -/
def pair (first : KeyOrder α) (second : KeyOrder β) : KeyOrder (α × β) where
  cmp a b := (first.cmp a.1 b.1).then (second.cmp a.2 b.2)
  trans :=
    { eq_swap := by
        intro a b
        rw [Ordering.swap_then, ← Std.OrientedCmp.eq_swap, ← Std.OrientedCmp.eq_swap]
      isLE_trans := by
        intro a b c hab hbc
        refine then_isLE_trans ?_ ?_ (fun h h' => Std.TransCmp.lt_trans h h')
          (fun h h' => Std.TransCmp.isLE_trans h h') hab hbc
        · exact fun h => Std.LawfulEqCmp.eq_of_compare h ▸ rfl
        · exact fun h => Std.LawfulEqCmp.eq_of_compare h ▸ rfl }
  lawful :=
    { compare_self := by simp [Std.ReflCmp.compare_self]
      eq_of_compare := by
        intro a b h
        rw [Ordering.then_eq_eq] at h
        exact Prod.ext (Std.LawfulEqCmp.eq_of_compare h.1) (Std.LawfulEqCmp.eq_of_compare h.2) }

/-- An absent value before every present one. -/
def option (order : KeyOrder α) : KeyOrder (Option α) :=
  (list order).onKey Option.toList fun a b h => by cases a <;> cases b <;> simp_all

theorem cmp_eq_iff (order : KeyOrder α) {a b : α} : order.cmp a b = .eq ↔ a = b :=
  Std.LawfulEqCmp.compare_eq_iff_eq

theorem cmp_self (order : KeyOrder α) (a : α) : order.cmp a a = .eq :=
  Std.ReflCmp.compare_self

theorem lt_trans (order : KeyOrder α) {a b c : α} (hab : order.cmp a b = .lt)
    (hbc : order.cmp b c = .lt) : order.cmp a c = .lt :=
  Std.TransCmp.lt_trans hab hbc

theorem gt_iff_lt (order : KeyOrder α) {a b : α} : order.cmp a b = .gt ↔ order.cmp b a = .lt :=
  Std.OrientedCmp.gt_iff_lt

/-- Whether two keys are the same. -/
def same (order : KeyOrder α) (a b : α) : Bool := order.cmp a b == .eq

theorem same_iff (order : KeyOrder α) {a b : α} : order.same a b = true ↔ a = b := by
  rw [same, beq_iff_eq, cmp_eq_iff]

end KeyOrder

end TlsWire
