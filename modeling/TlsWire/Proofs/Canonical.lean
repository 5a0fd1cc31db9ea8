import TlsWire.Proofs.Encode.Resend
import TlsWire.Proofs.RoundTrip

/-!
# Decoding and encoding again

A value that was decoded can be sent on. Encoding it fails only if a type in it rejects it, and what
it is encoded to is a canonical form: not longer than what was received, decoded to the same value
under the same limits, and the same bytes where the shape leaves no choice.
-/

namespace TlsWire.Schema

variable {α : Type}

/-- An error of a type that resolves is the error of its encoder. -/
theorem marshalWith_error {schema : Schema α} {d : Directive} {shape : Shape} {x : α}
    {e : EncodeError} (hresolve : schema.resolve d = .ok shape)
    (h : schema.marshalWith d x = .error e) : (schema.encode shape x).standalone = .error e := by
  unfold marshalWith at h
  rwa [hresolve] at h

/-- Nothing but a type that rejects it keeps a decoded value from being encoded, and then the form
is canonical. -/
theorem marshalWith_of_unmarshalWith {schema : Schema α} {d : Directive} {config : Config}
    {data : Bytes} {n : Nat} {x : α} (hfree : schema.HookFree)
    (h : schema.unmarshalWith d config data = .ok (n, x)) :
    ((∃ b, schema.marshalWith d x = .ok b) ∨
        ∃ type reason, schema.marshalWith d x = .error (.rejected type reason)) ∧
      ∀ b, schema.marshalWith d x = .ok b →
        b.length ≤ n ∧ schema.unmarshalWith d config b = .ok (b.length, x) ∧
          ∀ shape, schema.resolve d = .ok shape → shape.Rigid → b = data.take n := by
  obtain ⟨shape, hresolve⟩ := resolve_of_unmarshalWith h
  obtain ⟨b₀, t, hdata, hlen, hform, hwithin⟩ :=
    exists_wireForm_of_unmarshalWith hfree hresolve h
  have hresends := encode_resends schema hfree hresolve
  refine ⟨?_, fun b hb => ?_⟩
  · cases hmarshal : schema.marshalWith d x with
    | ok b => exact .inl ⟨b, rfl⟩
    | error e =>
      obtain ⟨type, reason, rfl⟩ :=
        hresends.error x b₀ e hform (marshalWith_error hresolve hmarshal)
      exact .inr ⟨type, reason, rfl⟩
  · obtain ⟨shape', hresolve', hencode⟩ := marshalWith_ok.mp hb
    obtain rfl : shape' = shape := Except.ok.inj (hresolve'.symm.trans hresolve)
    obtain ⟨hform', hshrunk⟩ := hresends.ok x b₀ b hform hencode
    -- The limits are on the value, and the value is the one that was read.
    have hrun := unmarshalWith_of_wireForm (t := []) hresolve hform' hwithin fun _ => rfl
    rw [List.append_nil] at hrun
    refine ⟨hlen ▸ hshrunk.length_le, hrun, fun shape hshape hrigid => ?_⟩
    obtain rfl : shape = shape' := Except.ok.inj (hshape.symm.trans hresolve)
    rw [hshrunk.eq hrigid, hdata, ← hlen, List.take_left]

/-- A head that is longer than it has to be is not written again. -/
theorem marshalWith_of_unmarshalWith_long_head :
    let schema : Schema (List (BitVec 16)) := .vector "Vec<u16>" (.uint .u16)
    schema.unmarshalWith .headVarint {} [0x40, 2, 0, 5, 0xFF] = .ok (4, [5#16]) ∧
      schema.marshalWith .headVarint [5#16] = .ok [2, 0, 5] ∧
      schema.unmarshalWith .headVarint {} [2, 0, 5] = .ok (3, [5#16]) := by
  intro schema
  have hfree : schema.HookFree := trivial
  have hresolve : schema.resolve .headVarint = .ok (.vector (.integer 16) .varint) := rfl
  have hhead : Head.Form .varint 2 [0x40, 2] := .varint (.ofClass 1 (by decide) (by decide))
  have hform : schema.WireForm (.vector (.integer 16) .varint) [5#16] [0x40, 2, 0, 5] :=
    .intro (.intro (h := [0x40, 2]) hhead (.cons (p := [0, 5]) ⟨.integer, by decide⟩ .nil))
  have hwithin : schema.EachPart (SizeWithin 0x1000000) [5#16] :=
    WireForm.sizeWithin schema hresolve _ _ hform (by decide)
  have hread : schema.unmarshalWith .headVarint {} [0x40, 2, 0, 5, 0xFF] = .ok (4, [5#16]) :=
    unmarshalWith_of_wireForm (t := [0xFF]) hresolve hform hwithin nofun
  have hwrite : schema.marshalWith .headVarint [5#16] = .ok [2, 0, 5] := by rfl
  exact ⟨hread, hwrite, ((marshalWith_of_unmarshalWith hfree hread).2 _ hwrite).2.1⟩

end TlsWire.Schema
