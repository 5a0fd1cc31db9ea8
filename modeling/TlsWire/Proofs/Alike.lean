import TlsWire.Proofs.Run

/-!
# Results that are alike

Two computations that run side by side come to results that are alike: both have values, which
correspond, or both have errors, which do. What corresponds is up to the relations. Being alike is
kept by everything that is built from results step by step.

The checks that a type makes of its directive and of its parts are alike for types of different
names (`DirectiveError.Renamed`).
-/

namespace TlsWire

variable {α β γ δ ε ε' : Type}

/-- Two values that `R` relates, or two errors that `E` relates. -/
inductive Alike (E : ε → ε' → Prop) (R : α → β → Prop) : Except ε α → Except ε' β → Prop where
  | ok {a : α} {b : β} (h : R a b) : Alike E R (.ok a) (.ok b)
  | error {e : ε} {e' : ε'} (h : E e e') : Alike E R (.error e) (.error e')

namespace Alike

variable {E : ε → ε' → Prop} {R : α → β → Prop} {Q : γ → δ → Prop} {x : Except ε α}
  {y : Except ε' β}

theorem pure {a : α} {b : β} (h : R a b) : Alike E R (pure a) (pure b) := .ok h

theorem refl {E : ε → ε → Prop} {R : α → α → Prop} (hE : ∀ e, E e e) (hR : ∀ a, R a a)
    (x : Except ε α) : Alike E R x x := by
  cases x with
  | ok a => exact .ok (hR a)
  | error e => exact .error (hE e)

/-- Related as closely, they are related less closely. -/
theorem mono {E' : ε → ε' → Prop} {R' : α → β → Prop} (h : Alike E R x y)
    (hE : ∀ e e', E e e' → E' e e') (hR : ∀ a b, R a b → R' a b) : Alike E' R' x y := by
  cases h with
  | ok hab => exact .ok (hR _ _ hab)
  | error he => exact .error (hE _ _ he)

/-- Steps that go on alike from corresponding values. -/
theorem bind {f : α → Except ε γ} {g : β → Except ε' δ} (h : Alike E R x y)
    (hf : ∀ a b, R a b → Alike E Q (f a) (g b)) : Alike E Q (x >>= f) (y >>= g) := by
  cases h with
  | ok hab => exact hf _ _ hab
  | error he => exact .error he

/-- Only the second computation has another step, which does not fail. -/
theorem bind_right {Q : α → δ → Prop} {g : β → δ} (h : Alike E R x y)
    (hg : ∀ a b, R a b → Q a (g b)) : Alike E Q x (y >>= fun b => Pure.pure (g b)) := by
  cases h with
  | ok hab => exact .ok (hg _ _ hab)
  | error he => exact .error he

theorem mapError {ζ ζ' : Type} {E' : ζ → ζ' → Prop} {f : ε → ζ} {g : ε' → ζ'} (h : Alike E R x y)
    (hf : ∀ e e', E e e' → E' (f e) (g e')) : Alike E' R (x.mapError f) (y.mapError g) := by
  cases h with
  | ok hab => exact .ok hab
  | error he => exact .error (hf _ _ he)

/-- The two cases with their equations, where both results are known. -/
theorem values_or_errors (h : Alike E R x y) :
    (∃ a b, x = .ok a ∧ y = .ok b ∧ R a b) ∨ ∃ e e', x = .error e ∧ y = .error e' ∧ E e e' := by
  cases h with
  | ok hab => exact .inl ⟨_, _, rfl, rfl, hab⟩
  | error he => exact .inr ⟨_, _, rfl, rfl, he⟩

/-- Both have a value or none has. -/
theorem exists_ok_iff (h : Alike E R x y) : (∃ a, x = .ok a) ↔ ∃ b, y = .ok b := by
  cases h with
  | ok _ => exact ⟨fun _ => ⟨_, rfl⟩, fun _ => ⟨_, rfl⟩⟩
  | error _ => exact ⟨nofun, nofun⟩

end Alike

/-! ## Types of another name -/

/-- The same error, about a type that has another name. -/
inductive DirectiveError.Renamed (type type' : String) :
    DirectiveError → DirectiveError → Prop where
  | refl (e : DirectiveError) : Renamed type type' e e
  | unsupported (d : Directive) : Renamed type type' (.unsupported d type) (.unsupported d type')
  | unframed : Renamed type type' (.unframed type) (.unframed type')
  | greedy : Renamed type type' (.greedy type) (.greedy type')

namespace Schema

open DirectiveError

variable {type type' : String} {d : Directive}

/-- The directive decides, and the name goes into the error only. -/
theorem expectDefault_renamed :
    Alike (Renamed type type') Eq (expectDefault type d) (expectDefault type' d) := by
  cases d with
  | default => exact .ok rfl
  | _ => exact .error (.unsupported _)

/-- The head is the same under any name. -/
theorem framing_renamed : Alike (Renamed type type') Eq (framing type d) (framing type' d) := by
  unfold framing
  cases d.head? with
  | some head => exact .ok rfl
  | none =>
    simp only
    split
    · exact .error .unframed
    · exact .error (.unsupported d)

/-- Whether a part is greedy does not depend on the name of the whole. -/
theorem expectBounded_renamed {shape shape' : Shape} (h : shape'.isGreedy = shape.isGreedy) :
    Alike (Renamed type type') Eq (expectBounded type shape) (expectBounded type' shape') := by
  unfold expectBounded
  rw [h]
  split
  · exact .error .greedy
  · exact .ok rfl

end Schema

end TlsWire
