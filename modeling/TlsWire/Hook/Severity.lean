import TlsWire.Hook

/-!
# Severities

A type with two values, each of which has a byte of its own.
-/

namespace TlsWire

inductive Severity where
  | warning | fatal
deriving DecidableEq, Repr

namespace Severity

/-- The byte of a severity. -/
def code : Severity → UInt8
  | .warning => 1
  | .fatal => 2

/-- The severity that a byte stands for. -/
def ofCode? (b : UInt8) : Option Severity :=
  if b = 1 then some .warning else if b = 2 then some .fatal else none

theorem ofCode?_code (s : Severity) : ofCode? s.code = some s := by cases s <;> rfl

end Severity

/-- A severity as its byte. -/
def Hook.severity : Hook Severity where
  type := "Severity"
  default := .warning
  order := KeyOrder.nat.onKey (fun s => s.code.toNat) fun a b h => by
    cases a <;> cases b <;> simp_all [Severity.code]
  validate _ := .ok ()
  encode s := .ok [s.code]
  decode
    | [] => .error "empty severity"
    | b :: _ =>
      match Severity.ofCode? b with
      | some s => .ok (1, s)
      | none => .error s!"bad severity {b.toNat}"

end TlsWire
