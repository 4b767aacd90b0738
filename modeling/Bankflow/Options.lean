/-!
# Options
-/

namespace Bankflow

structure Options where
  /-- Schedule through buffers with several producers or consumers, and leave the
  legality of regions alone. -/
  ignoreViolations : Bool := false
  deriving DecidableEq, Repr

/-- Options of a source with those of its caller on top, who can only switch
something on. -/
def Options.layered (source caller : Options) : Options :=
  ⟨source.ignoreViolations || caller.ignoreViolations⟩

end Bankflow
