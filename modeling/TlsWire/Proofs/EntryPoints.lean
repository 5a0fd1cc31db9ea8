import TlsWire.Proofs.Decode.Limit
import TlsWire.Proofs.Encode.Verdict

/-!
# A resolved shape always fits its type

Encoders and decoders refuse shapes that the type did not resolve to. The entry points resolve the
shape themselves, so such a refusal never comes out of them, and a wrong directive is reported
exactly when the type does not resolve under it, whatever the value or the data
(`Schema.entryPoints_fit`). What else can come out is about the value (`EncodeError.OfValue`), or
about the input and its limit (`DecodeError.OfInput`).
-/

namespace TlsWire

variable {α β γ ε : Type}

/-- The encoder cannot follow the shape, which is of a wrong kind or lacks a field. -/
def EncodeError.Misfit : EncodeError → Prop
  | .shapeMismatch _ _ => True
  | .missingField _ => True
  | _ => False

/-- The decoder cannot follow the shape, which is of a wrong kind, has an array of another length,
or lacks a field. -/
def DecodeError.Misfit : DecodeError → Prop
  | .shapeMismatch _ _ _ => True
  | .missingField _ _ => True
  | _ => False

/-- A wrong directive is reported exactly when there is no shape, and the shape always fits. -/
structure FitsShape (invalid : DirectiveError → ε) (Misfit : ε → Prop)
    (resolved : Except DirectiveError Shape) (outcome : Except ε β) : Prop where
  invalid_iff (e : DirectiveError) : outcome = .error (invalid e) ↔ resolved = .error e
  fits (e : ε) : outcome = .error e → ¬ Misfit e

namespace FitsShape

variable {invalid : DirectiveError → ε} {Misfit : ε → Prop}
  {resolved : Except DirectiveError Shape} {outcome : Except ε β} {outcome' : Except ε γ}

/-- Without a shape there is one error, which is the one of the directive. -/
theorem of_error {e : DirectiveError} (hresolve : resolved = .error e)
    (hrun : outcome = .error (invalid e)) (hinjective : ∀ e e', invalid e = invalid e' → e = e')
    (hfits : ¬ Misfit (invalid e)) : FitsShape invalid Misfit resolved outcome where
  invalid_iff e' := by
    rw [hrun, hresolve]
    constructor
    · intro h
      rw [hinjective e e' (Except.error.inj h)]
    · intro h
      rw [Except.error.inj h]
  fits e' h := by
    rw [hrun] at h
    exact Except.error.inj h ▸ hfits

/-- With a shape no error is about it or about a directive. -/
theorem of_ok {shape : Shape} (hresolve : resolved = .ok shape)
    (herror : ∀ e, outcome = .error e → ¬ Misfit e ∧ ∀ e', e ≠ invalid e') :
    FitsShape invalid Misfit resolved outcome where
  invalid_iff e := by
    rw [hresolve]
    exact ⟨fun h => absurd rfl ((herror _ h).2 e), nofun⟩
  fits e h := (herror e h).1

/-- Further errors do no harm where they are about something else. -/
theorem of_errors (h : FitsShape invalid Misfit resolved outcome)
    (hkeep : ∀ e, outcome = .error e → outcome' = .error e)
    (hfurther : ∀ e, outcome' = .error e →
      outcome = .error e ∨ ¬ Misfit e ∧ ∀ e', e ≠ invalid e') :
    FitsShape invalid Misfit resolved outcome' where
  invalid_iff e := by
    rw [← h.invalid_iff e]
    constructor
    · intro herror
      cases hfurther _ herror with
      | inl hold => exact hold
      | inr hnew => exact absurd rfl (hnew.2 e)
    · exact hkeep _
  fits e herror := by
    cases hfurther e herror with
    | inl hold => exact h.fits e hold
    | inr hnew => exact hnew.1

end FitsShape

/-- What is about the value is neither about the shape nor about a directive. -/
theorem EncodeError.OfValue.not_misfit {e : EncodeError} (h : e.OfValue) :
    ¬ e.Misfit ∧ ∀ e', e ≠ .invalidDirective e' := by
  cases e with
  | invalidDirective e' => exact h.elim
  | shapeMismatch type kind => exact h.elim
  | missingField type => exact h.elim
  | _ => exact ⟨id, nofun⟩

/-- What is about the input is neither about the shape nor about a directive. -/
theorem DecodeError.OfInput.not_misfit {e : DecodeError} (h : e.OfInput) :
    ¬ e.Misfit ∧ ∀ e', e ≠ .invalidDirective e' := by
  cases e with
  | invalidDirective e' => exact h.elim
  | shapeMismatch loc type kind => exact h.elim
  | missingField loc type => exact h.elim
  | _ => exact ⟨id, nofun⟩

namespace Schema

/-- What an encoding entry point owes to the shape of the type under the directive. -/
abbrev EncodeFits (schema : Schema α) (d : Directive) (outcome : Except EncodeError β) : Prop :=
  FitsShape .invalidDirective EncodeError.Misfit (schema.resolve d) outcome

/-- What a decoding entry point owes to the shape of the type under the directive. -/
abbrev DecodeFits (schema : Schema α) (d : Directive) (outcome : Except DecodeError β) : Prop :=
  FitsShape .invalidDirective DecodeError.Misfit (schema.resolve d) outcome

variable {schema : Schema α}

/-- A value is encoded along the shape that its own type resolves to. What can go wrong then is
told by the verdict on the value. -/
theorem marshalWith_fits (d : Directive) (x : α) :
    schema.EncodeFits d (schema.marshalWith d x) := by
  cases hresolve : schema.resolve d with
  | error e =>
    have hrun : schema.marshalWith d x = .error (.invalidDirective e) := by
      rw [marshalWith, hresolve]
    exact .of_error hresolve hrun (fun _ _ => EncodeError.invalidDirective.inj) id
  | ok shape =>
    refine .of_ok hresolve fun e herror => ?_
    have hrun : schema.marshalWith d x = (schema.encode shape x).standalone := by
      rw [marshalWith, hresolve]
    have hverdict := encode_verdict schema hresolve x
    rw [← hrun, herror] at hverdict
    exact hverdict.ofValue_of_error.not_misfit

/-- An error under a limit is the limit's own, or one that there is without the limit. -/
theorem unmarshalWith_error_of_resolve {d : Directive} {shape : Shape} {config : Config}
    {data : Bytes} {e : DecodeError} (hresolve : schema.resolve d = .ok shape)
    (hrun : schema.unmarshalWith d config data = .error e) :
    e.OfInput ∨ ∃ loc, e = .collectionTooLarge loc := by
  -- A limit as large as the input is never met, so it serves in place of none.
  let ample : Config := ⟨data.length⟩
  have hample : data.length ≤ ample.maxCollect := Nat.le_refl _
  cases hwhole : schema.unmarshalWith d ample data with
  | error e' =>
    obtain ⟨hinput, hsame | ⟨loc, hlarge⟩⟩ :=
      unmarshalWith_error_limited hresolve hample hwhole config
    · rw [hrun] at hsame
      exact .inl (Except.error.inj hsame ▸ hinput)
    · rw [hrun] at hlarge
      exact .inr ⟨loc, Except.error.inj hlarge⟩
  | ok r =>
    -- What is there without the limit is too large for it, since it is not there with the limit.
    have hbeyond : ¬ schema.EachPart (SizeWithin config.maxCollect) r.2 := by
      intro hwithin
      have hok := (unmarshalWith_ok_iff_within hresolve hample).mpr ⟨hwhole, hwithin⟩
      rw [hrun] at hok
      cases hok
    obtain ⟨loc, hlarge⟩ := unmarshalWith_tooLarge hresolve hample hwhole hbeyond
    rw [hrun] at hlarge
    exact .inr ⟨loc, Except.error.inj hlarge⟩

/-- An input is decoded along the shape that its own type resolves to, under any limit. -/
theorem unmarshalWith_fits (d : Directive) (config : Config) (data : Bytes) :
    schema.DecodeFits d (schema.unmarshalWith d config data) := by
  cases hresolve : schema.resolve d with
  | error e =>
    have hrun : schema.unmarshalWith d config data = .error (.invalidDirective e) := by
      rw [unmarshalWith, hresolve]
    exact .of_error hresolve hrun (fun _ _ => DecodeError.invalidDirective.inj) id
  | ok shape =>
    refine .of_ok hresolve fun e herror => ?_
    cases unmarshalWith_error_of_resolve hresolve herror with
    | inl hinput => exact hinput.not_misfit
    | inr hlarge =>
      obtain ⟨loc, rfl⟩ := hlarge
      exact ⟨id, fun e' h => by cases h⟩

/-- The value that is overwritten plays no part in what goes wrong. -/
theorem unmarshalInto_error {data : Bytes} {target : α} {e : DecodeError} :
    (schema.unmarshalInto data target).1 = .error e ↔ schema.unmarshal data = .error e := by
  rw [unmarshalInto]
  cases schema.unmarshal data with
  | error e' => exact ⟨fun h => by cases h; rfl, fun h => by cases h; rfl⟩
  | ok r => exact ⟨nofun, nofun⟩

/-- Bytes that are left are the one thing that is asked beyond decoding. -/
theorem unmarshalExact_error {data : Bytes} {e : DecodeError} :
    schema.unmarshalExact data = .error e ↔ schema.unmarshal data = .error e ∨
      ∃ consumed x, schema.unmarshal data = .ok (consumed, x) ∧ consumed ≠ data.length ∧
        e = .trailing consumed data.length := by
  rw [unmarshalExact, Except.bind_error]
  refine or_congr_right ?_
  constructor
  · intro h
    obtain ⟨⟨consumed, x⟩, hrun, hrest⟩ := h
    -- Decoding has succeeded, so the only complaint left is about the bytes behind the value.
    by_cases hall : consumed = data.length
    · simp only [if_pos hall] at hrest
      cases hrest
    · simp only [if_neg hall] at hrest
      cases hrest
      exact ⟨consumed, x, hrun, hall, rfl⟩
  · intro h
    obtain ⟨consumed, x, hrun, hleft, rfl⟩ := h
    exact ⟨(consumed, x), hrun, if_neg hleft⟩

theorem unmarshalInto_fits (data : Bytes) (target : α) :
    schema.DecodeFits .default (schema.unmarshalInto data target).1 := by
  have hfits : schema.DecodeFits .default (schema.unmarshal data) := unmarshalWith_fits _ _ _
  refine hfits.of_errors (fun e h => unmarshalInto_error.mpr h) fun e h => ?_
  exact .inl (unmarshalInto_error.mp h)

theorem unmarshalExact_fits (data : Bytes) :
    schema.DecodeFits .default (schema.unmarshalExact data) := by
  have hfits : schema.DecodeFits .default (schema.unmarshal data) := unmarshalWith_fits _ _ _
  refine hfits.of_errors (fun e h => unmarshalExact_error.mpr (.inl h)) fun e h => ?_
  cases unmarshalExact_error.mp h with
  | inl hold => exact .inl hold
  | inr htrailing =>
    obtain ⟨consumed, x, _, _, rfl⟩ := htrailing
    exact .inr ⟨id, nofun⟩

/-- No entry point ever refuses a shape, and each reports a wrong directive exactly when the type
does not resolve under it. -/
theorem entryPoints_fit (schema : Schema α) :
    (∀ x, schema.EncodeFits .default (schema.marshal x)) ∧
    (∀ d x, schema.EncodeFits d (schema.marshalWith d x)) ∧
    (∀ data, schema.DecodeFits .default (schema.unmarshal data)) ∧
    (∀ d config data, schema.DecodeFits d (schema.unmarshalWith d config data)) ∧
    (∀ data target, schema.DecodeFits .default (schema.unmarshalInto data target).1) ∧
    ∀ data, schema.DecodeFits .default (schema.unmarshalExact data) :=
  ⟨marshalWith_fits .default, marshalWith_fits, unmarshalWith_fits .default {},
    unmarshalWith_fits, unmarshalInto_fits, unmarshalExact_fits⟩

end Schema

end TlsWire
