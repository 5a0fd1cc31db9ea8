import TlsWire.Decode
import TlsWire.Encode

/-!
# Outcomes of runs

When a computation with several steps succeeds: exactly when each step does on the result of the
one before. One lemma for each way of building a computation, so that no later proof has to open
the monads.
-/

namespace TlsWire

variable {α β ε : Type}

/-! ## Results -/

/-- Both steps have a result, and that of the second is the result of both. -/
theorem Except.bind_ok {x : Except ε α} {f : α → Except ε β} {b : β} :
    x >>= f = .ok b ↔ ∃ a, x = .ok a ∧ f a = .ok b := by
  cases x with
  | error e => simp [bind, Except.bind]
  | ok a => simp [bind, Except.bind]

/-- A computation fails where its first step does, or after it. -/
theorem Except.bind_error {x : Except ε α} {f : α → Except ε β} {e : ε} :
    x >>= f = .error e ↔ x = .error e ∨ ∃ a, x = .ok a ∧ f a = .error e := by
  cases x with
  | error e' => simp [bind, Except.bind]
  | ok a => simp [bind, Except.bind]

theorem Except.pure_ne_error {a : α} {e : ε} : (pure a : Except ε α) ≠ .error e := nofun

theorem Except.pure_ok {a b : α} : (pure a : Except ε α) = .ok b ↔ a = b := by
  show Except.ok a = .ok b ↔ _
  rw [Except.ok.injEq]

/-- What is computed from a result does not make it fail. -/
theorem Except.map_ok {x : Except ε α} {f : α → β} {b : β} :
    f <$> x = .ok b ↔ ∃ a, x = .ok a ∧ b = f a := by
  cases x with
  | error e => simp [Functor.map, Except.map]
  | ok a => simp [Functor.map, Except.map, eq_comm]

/-- What is done to errors does not touch a result. -/
theorem Except.mapError_ok {ε' : Type} {x : Except ε α} {f : ε → ε'} {a : α} :
    x.mapError f = .ok a ↔ x = .ok a := by
  cases x with
  | error e =>
    show Except.error (f e) = .ok a ↔ _
    simp
  | ok b =>
    show Except.ok b = .ok a ↔ _
    simp

/-! ## Decoders -/

namespace Decoder

variable {c c' : Cursor}

/-- The second step starts where the first one has ended. -/
theorem bind_ok {d : Decoder α} {f : α → Decoder β} {b : β} :
    (d >>= f) c = .ok b c' ↔ ∃ a c₁, d c = .ok a c₁ ∧ f a c₁ = .ok b c' := by
  show EStateM.bind d f c = .ok b c' ↔ _
  unfold EStateM.bind
  cases d c with
  | error e c₁ => simp
  | ok a c₁ =>
    constructor
    · intro h
      exact ⟨a, c₁, rfl, h⟩
    · rintro ⟨_, _, heq, h⟩
      cases heq
      exact h

/-- After a step that has succeeded, the next one is run. -/
theorem bind_of_ok {d : Decoder α} {f : α → Decoder β} {a : α} (h : d c = .ok a c') :
    (d >>= f) c = f a c' := by
  show EStateM.bind d f c = f a c'
  unfold EStateM.bind
  rw [h]

/-- After a step that has failed no other is run, and the cursor is where that step has left it. -/
theorem bind_of_error {d : Decoder α} {f : α → Decoder β} {e : DecodeError}
    (h : d c = .error e c') : (d >>= f) c = .error e c' := by
  show EStateM.bind d f c = .error e c'
  unfold EStateM.bind
  rw [h]

/-- A decoder fails where its first step does, or after it. -/
theorem bind_error {d : Decoder α} {f : α → Decoder β} {e : DecodeError} :
    (d >>= f) c = .error e c' ↔
      d c = .error e c' ∨ ∃ a c₁, d c = .ok a c₁ ∧ f a c₁ = .error e c' := by
  cases h : d c with
  | error e' c₁ => simp [bind_of_error h]
  | ok a c₁ =>
    rw [bind_of_ok h]
    constructor
    · intro hrun
      exact .inr ⟨a, c₁, rfl, hrun⟩
    · rintro (herror | ⟨_, _, heq, hrun⟩)
      · cases herror
      · cases heq
        exact hrun

/-- A result that is there already moves nothing. -/
theorem pure_ok {a b : α} : (pure a : Decoder α) c = .ok b c' ↔ a = b ∧ c = c' := by
  show EStateM.Result.ok a c = .ok b c' ↔ _
  rw [EStateM.Result.ok.injEq]

theorem pure_ne_error {a : α} {e : DecodeError} : (pure a : Decoder α) c ≠ .error e c' := nofun

theorem throw_ne_ok {e : DecodeError} {b : α} : (throw e : Decoder α) c ≠ .ok b c' := nofun

/-- What is computed from a value does not move the cursor. -/
theorem map_ok {d : Decoder α} {f : α → β} {b : β} :
    (f <$> d) c = .ok b c' ↔ ∃ a, d c = .ok a c' ∧ f a = b := by
  show EStateM.map f d c = .ok b c' ↔ _
  unfold EStateM.map
  cases d c with
  | error e c₁ => simp
  | ok a c₁ =>
    constructor
    · intro h
      cases h
      exact ⟨a, rfl, rfl⟩
    · rintro ⟨_, heq, rfl⟩
      cases heq
      rfl

/-- A read of the cursor succeeds as it does outside of a decoder. -/
theorem read_ok {ctx : Context} {reader : Cursor → Except Truncated (α × Cursor)} {a : α} :
    read ctx reader c = .ok a c' ↔ reader c = .ok (a, c') := by
  unfold read
  cases reader c with
  | error t => simp
  | ok r => simp [Prod.ext_iff]

/-- A result from elsewhere moves nothing. -/
theorem ofExcept_ok {x : Except DecodeError α} {a : α} :
    ofExcept x c = .ok a c' ↔ x = .ok a ∧ c = c' := by
  cases x with
  | error e => exact ⟨fun h => absurd h throw_ne_ok, fun h => by cases h.1⟩
  | ok b => rw [ofExcept, pure_ok, Except.ok.injEq]

/-- To look at the position moves nothing. -/
theorem pos_ok {p : Nat} : pos c = .ok p c' ↔ c.pos = p ∧ c = c' := by
  unfold pos
  rw [EStateM.Result.ok.injEq]

theorem cursor_ok {a : Cursor} : cursor c = .ok a c' ↔ c = a ∧ c = c' := by
  unfold cursor
  rw [EStateM.Result.ok.injEq]

end Decoder

end TlsWire
