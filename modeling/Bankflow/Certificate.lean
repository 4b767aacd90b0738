/-!
# Certificates

What was checked of a result after the fact, obligation by obligation.
-/

namespace Bankflow

/-- Named obligations and whether each holds. -/
structure Certificate where
  obligations : List (String × Bool)
  deriving DecidableEq, Repr

namespace Certificate

def allPass (c : Certificate) : Bool := c.obligations.all (·.2)

/-- The names of the obligations that do not hold. -/
def failures (c : Certificate) : List String :=
  (c.obligations.filter fun o => !o.2).map (·.1)

end Certificate

end Bankflow
