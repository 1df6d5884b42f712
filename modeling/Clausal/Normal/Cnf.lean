import Clausal.Normal.Matrix
import Clausal.Normal.Negation
import Clausal.Normal.Skolem
import Clausal.Normal.Standard

/-!
# Conjunctive normal form

A formula is turned into clauses in six stages.  The clauses are satisfiable together exactly if
the formula is, and their variables and Skolem symbols are fresh.

## Main definitions

- `NormalStages`: the formula after each stage
- `Formula.toCnf`
-/

namespace Clausal

/-- A formula on its way to clauses. -/
structure NormalStages where
  /-- Standardised apart. -/
  standardised : Formula
  /-- Without implications and equivalences. -/
  eliminated : Formula
  /-- In negation normal form. -/
  negationNormal : Formula
  /-- Without existential quantifiers. -/
  skolemised : Formula
  /-- Without quantifiers. -/
  matrix : Formula
  /-- A conjunction of disjunctions. -/
  distributed : Formula

namespace Formula

/-- The stages of a formula on its way to clauses. -/
def normalStages (s : Names) (f : Formula) : NormalStages × Names :=
  let origin := some s.sources.size
  let (standard, s) := f.standardise origin (s.record (.formula f))
  let eliminated := standard.result.eliminate
  let negationNormal := eliminated.nnf
  let (skolemised, s) := negationNormal.skolemise origin s (standard.free.map .var)
  let matrix := skolemised.dropUniversals
  ({ standardised := standard.result, eliminated, negationNormal, skolemised, matrix,
     distributed := matrix.distribute }, s)

/-- The clauses of a formula, with fresh variables and Skolem symbols. -/
def toCnf (s : Names) (f : Formula) : Cnf × Names :=
  let (stages, s) := f.normalStages s
  (Cnf.ofList stages.distributed.clauses, s)

end Formula

end Clausal
