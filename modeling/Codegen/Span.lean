import Codegen.Text.Basic

/-!
# Source positions

A span is a range of byte offsets with the line and column of its start.  Line `0` says that the
position is not known; the span is then shown by its offsets.
-/

namespace Codegen

/-- A range of the source text. -/
structure Span where
  /-- First byte offset. -/
  start : Nat := 0
  /-- Byte offset behind the last one. -/
  stop : Nat := 0
  /-- Line of the start, counted from one. -/
  line : Nat := 0
  /-- Column of the start, counted from one. -/
  column : Nat := 0
  deriving DecidableEq, Inhabited

namespace Span

/-- The span of two offsets, at no known line. -/
def ofRange (start stop : Nat) : Span := { start, stop }

/-- The least range that covers both, at the position of the one that starts first. -/
def merge (a b : Span) : Span :=
  let first := if a.start ≤ b.start then a else b
  { start := min a.start b.start, stop := max a.stop b.stop,
    line := first.line, column := first.column }

/-- `line:column` when the line is known, the offsets otherwise. -/
def text (span : Span) : String :=
  if 0 < span.line then
    Text.decimal span.line ++ ":" ++ Text.decimal span.column
  else
    Text.decimal span.start ++ ".." ++ Text.decimal span.stop

end Span

end Codegen
