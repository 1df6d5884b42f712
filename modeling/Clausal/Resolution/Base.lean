import Clausal.KnowledgeBase
import Clausal.Node.Operation
import Clausal.Resolution.Refutation

/-!
# Knowledge bases of clauses

What is told is kept as clauses.  A question is answered by a refutation of its negation.
-/

namespace Clausal

/-- Clauses told so far, oldest first, and the strategy for questions about them. -/
structure ClauseBase where
  strategy : Strategy
  clauses : List Clause := []

namespace ClauseBase

/-- Add the clauses of a formula, those that are new. -/
def tell (b : ClauseBase) (s : Names) (f : Formula) : ClauseBase × Names :=
  let (cnf, s) := f.toCnf s
  ({ b with clauses := dedup (b.clauses ++ cnf.clauses) }, s)

instance : KnowledgeBase ClauseBase where
  tell n := do
    let f ← n.sentence
    modify fun (b, s) => b.tell s f

/-- The question whether the clauses entail a formula. -/
def query (b : ClauseBase) (s : Names) (f : Formula) : Refutation × Names :=
  Refutation.start b.strategy b.clauses s f

end ClauseBase

end Clausal
