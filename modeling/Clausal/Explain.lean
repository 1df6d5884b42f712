import Clausal.Chaining.Explain
import Clausal.Reasoner
import Clausal.Resolution.Explain

/-!
# Explanations of answers

Every positive answer can be explained, whatever the method that found it.
-/

namespace Clausal

/-- The explanation of a positive answer, with the fresh names that the supply knows about. -/
def Question.explain (names : Names) : Question → Except QueryError (Labelling String)
  | .refutation q => q.explain names
  | .forward q => q.explain names
  | .backward q => q.explain names

end Clausal
