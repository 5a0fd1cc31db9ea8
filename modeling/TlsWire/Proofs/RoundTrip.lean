import TlsWire.Proofs.Decode.Grammar
import TlsWire.Proofs.Encode.Forms
import TlsWire.Proofs.Hook

/-!
# Round trips

What a value is encoded to is decoded to the same value without its omitted fields
(`Schema.unmarshalWith_marshalWith`). Both sides meet at the grammar: the encoder writes a wire form
of the cleared value, and the decoder reads every wire form that its limits admit. Clearing makes
no vector or map larger (`Schema.EachPart.clearOmitted`).
-/

namespace TlsWire.Schema

variable {α β : Type} {limit : Nat}

/-- What stands in an omitted field is not looked at, neither before clearing nor after. -/
theorem Fields.EachPart.clearOmitted_cons {info : FieldInfo} {schema : Schema α} {rest : Fields β}
    {x : α} {xs : β} (hfield : schema.EachPart (SizeWithin limit) x →
      schema.EachPart (SizeWithin limit) (schema.clearOmitted x))
    (hrest : rest.EachPart (SizeWithin limit) xs →
      rest.EachPart (SizeWithin limit) (rest.clearOmitted xs))
    (h : (Fields.cons info schema rest).EachPart (SizeWithin limit) (x, xs)) :
    (Fields.cons info schema rest).EachPart (SizeWithin limit)
      ((Fields.cons info schema rest).clearOmitted (x, xs)) := by
  simp only [Fields.EachPart, Fields.clearOmitted] at h ⊢
  refine ⟨fun hon => ?_, hrest h.2⟩
  rw [if_neg hon]
  exact hfield (h.1 hon)

mutual

/-- What is left of a value is no larger than the value. -/
theorem EachPart.clearOmitted : {α : Type} → (schema : Schema α) → {x : α} →
    schema.EachPart (SizeWithin limit) x →
    schema.EachPart (SizeWithin limit) (schema.clearOmitted x)
  | _, .uint _, _, _ => by
    simp only [EachPart, SizeWithin]
  | _, .array _ elem _, _, h => by
    simp only [EachPart, SizeWithin, Schema.clearOmitted, true_and, List.forall_mem_map] at h ⊢
    exact fun x hx => EachPart.clearOmitted elem (h x hx)
  | _, .vector _ elem, _, h => by
    simp only [EachPart, SizeWithin, Schema.clearOmitted, List.length_map,
      List.forall_mem_map] at h ⊢
    exact ⟨h.1, fun x hx => EachPart.clearOmitted elem (h.2 x hx)⟩
  | _, .map _ _ _ key value, _, h => by
    simp only [EachPart, SizeWithin, Schema.clearOmitted] at h ⊢
    -- Keys may become the same when they are cleared, so there can be fewer entries.
    refine ⟨Nat.le_trans Dict.size_ofEntries_le (by rw [List.length_map]; exact h.1), ?_⟩
    intro e he
    obtain ⟨e', he', rfl⟩ := List.mem_map.mp (Dict.subset_ofEntries he)
    obtain ⟨hk, hv⟩ := h.2 e' he'
    exact ⟨EachPart.clearOmitted key hk, EachPart.clearOmitted value hv⟩
  | _, .box _ content, _, h => by
    simp only [EachPart, SizeWithin, Schema.clearOmitted, true_and] at h ⊢
    exact EachPart.clearOmitted content h
  | _, .option _ content, _, h => by
    simp only [EachPart, SizeWithin, Schema.clearOmitted, true_and] at h ⊢
    intro y hy
    obtain ⟨x, rfl, rfl⟩ := Option.map_eq_some_iff.mp hy
    exact EachPart.clearOmitted content (h x rfl)
  | _, .record _ fields _ _, _, h => by
    simp only [EachPart, SizeWithin, Schema.clearOmitted, true_and] at h ⊢
    exact Fields.EachPart.clearOmitted fields h
  | _, .custom _, _, _ => by
    simp only [EachPart, SizeWithin]

theorem Fields.EachPart.clearOmitted : {α : Type} → (fields : Fields α) → {x : α} →
    fields.EachPart (SizeWithin limit) x →
    fields.EachPart (SizeWithin limit) (fields.clearOmitted x)
  | _, .nil, _, _ => by
    simp only [Fields.EachPart]
  | _, .cons _ schema rest, (_, _), h =>
    Fields.EachPart.clearOmitted_cons (Schema.EachPart.clearOmitted schema)
      (Fields.EachPart.clearOmitted rest) h

end

/-- A value is written under a directive along the shape that its type has under it. -/
theorem marshalWith_ok {schema : Schema α} {d : Directive} {x : α} {b : Bytes} :
    schema.marshalWith d x = .ok b ↔
      ∃ shape, schema.resolve d = .ok shape ∧ (schema.encode shape x).standalone = .ok b := by
  unfold marshalWith
  cases schema.resolve d with
  | error e => simp
  | ok shape => simp

/-- What has been encoded is decoded again, whatever follows, unless the shape takes all there is.
Only omitted fields are lost. -/
theorem unmarshalWith_marshalWith {schema : Schema α} {d : Directive} {config : Config} {x : α}
    {b t : Bytes} (hhooks : schema.EachHook Hook.Faithful)
    (hmarshal : schema.marshalWith d x = .ok b)
    (hsize : schema.EachPart (SizeWithin config.maxCollect) x)
    (hsolid : schema.EachPart SolidItems x)
    (hgreedy : ∀ shape, schema.resolve d = .ok shape → shape.isGreedy = true → t = []) :
    schema.unmarshalWith d config (b ++ t) = .ok (b.length, schema.clearOmitted x) := by
  obtain ⟨shape, hresolve, hencode⟩ := marshalWith_ok.mp hmarshal
  -- What is written is a form of the cleared value, and forms are decoded whatever follows.
  have hform : schema.WireForm shape (schema.clearOmitted x) b :=
    encode_forms schema hhooks hresolve x b hsolid hencode
  have hwithin : schema.EachPart (SizeWithin config.maxCollect) (schema.clearOmitted x) :=
    hsize.clearOmitted schema
  exact unmarshalWith_of_wireForm hresolve hform hwithin (hgreedy shape hresolve)

/-- A field with a hook, an omitted one and a vector, with a byte behind them. -/
theorem unmarshalWith_marshalWith_alert :
    let schema : Schema (Severity × BitVec 8 × List (BitVec 16) × Unit) :=
      .record "Alert"
        (.cons ⟨"severity", .default, "Severity"⟩ (.custom .severity)
          (.cons ⟨"seen", .omit, "u8"⟩ (.uint .u8)
            (.cons ⟨"codes", .head 1, "Vec<u16>"⟩ (.vector "Vec<u16>" (.uint .u16)) .nil)))
        fun _ => .ok ()
    schema.marshalWith .default (.fatal, 7#8, [1#16, 2#16], ()) = .ok [2, 4, 0, 1, 0, 2] ∧
      schema.unmarshalWith .default {} ([2, 4, 0, 1, 0, 2] ++ [0xFF]) =
        .ok (6, .fatal, 0#8, [1#16, 2#16], ()) := by
  intro schema
  have hmarshal : schema.marshalWith .default (.fatal, 7#8, [1#16, 2#16], ()) =
      .ok [2, 4, 0, 1, 0, 2] := by rfl
  have hhooks : schema.EachHook Hook.Faithful :=
    ⟨Hook.severity_faithful, trivial, trivial, trivial⟩
  have hsize : schema.EachPart (SizeWithin 0x1000000) (.fatal, 7#8, [1#16, 2#16], ()) := by
    simp [schema, EachPart, Fields.EachPart, SizeWithin]
  have hsolid : schema.EachPart SolidItems (.fatal, 7#8, [1#16, 2#16], ()) := by
    have hcodes : ∀ n : BitVec 16, (uint .u16).marshal n ≠ .ok [] := by
      intro n h
      have hform : WireForm.OfUint .u16 (.integer 16) n.toNat [] := Encoder.ofUint_forms h
      cases hform
    simp only [schema, EachPart, Fields.EachPart, SolidItems]
    exact ⟨trivial, fun _ => trivial, fun _ => trivial,
      fun _ => ⟨fun n _ => hcodes n, fun _ _ => trivial⟩, trivial⟩
  refine ⟨hmarshal, unmarshalWith_marshalWith hhooks hmarshal hsize hsolid ?_⟩
  rintro _ ⟨⟩ hgreedy
  cases hgreedy

end TlsWire.Schema
