import TlsWire.Directive.Error
import TlsWire.Text.Blank

/-!
# Directives as text

A descriptor is one or more pieces of text, each of which may hold several directives separated by
commas. Blank texts between commas are skipped; no directive at all means the default one, and
more than one is a conflict.
-/

namespace TlsWire.Directive

/-- The texts that name a directive. Blank text, which means the default, is not among them. -/
def named : List (String × Directive) :=
  [("varint", .varint), ("head=1", .head 1), ("head=2", .head 2), ("head=3", .head 3),
    ("head=varint", .headVarint), ("head=none", .headNone), ("optional", .optional),
    ("omit", .omit)]

/-- Reads a single directive, with any blanks around it. -/
def parse (text : String) : Except DirectiveError Directive :=
  match Text.trimmed text with
  | "" => .ok .default
  | word =>
    match named.lookup word with
    | some directive => .ok directive
    | none => .error (.unknown text)

/-- The texts between the commas of one piece, trimmed, without the blank ones. -/
def textsOf (piece : String) : List String :=
  (piece.toList.splitOn ',').filterMap fun cs =>
    match Text.trim cs with
    | [] => none
    | word => some (String.ofList word)

/-- Reads the texts in order, up to the first that is no directive or the second that is one. -/
def gather (whole : String) : (found : Option Directive) → List String →
    Except DirectiveError Directive
  | found, [] => .ok (found.getD .default)
  | found, text :: texts => do
    let directive ← parse text
    if found.isSome then throw (.conflicting whole)
    gather whole (some directive) texts

/-- Reads the descriptor that the pieces spell together. -/
def parsePieces (pieces : List String) : Except DirectiveError Directive :=
  gather (",".intercalate pieces) none (pieces.flatMap textsOf)

end TlsWire.Directive
