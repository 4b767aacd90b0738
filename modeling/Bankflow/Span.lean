/-!
# Spans of source text
-/

namespace Bankflow

/-- A stretch of source text, as offsets in bytes from its start; `stop` is the
offset after its last byte. -/
structure Span where
  start : Nat
  stop : Nat
  deriving DecidableEq, Repr

end Bankflow
