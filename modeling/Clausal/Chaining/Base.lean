import Clausal.Chaining.Store
import Clausal.KnowledgeBase
import Clausal.Node.Operation

/-!
# Knowledge bases of definite clauses

A formula is accepted if all its clauses are definite.  Otherwise it is refused as a whole.
-/

namespace Clausal

/-- The clauses as definite ones, or the first that is not. -/
def definiteClauses : List Clause → Except NotDefinite (List DefiniteClause)
  | [] => .ok []
  | c :: cs =>
    match DefiniteClause.ofClause? c with
    | none => .error ⟨c⟩
    | some d => do
      let ds ← definiteClauses cs
      return d :: ds

/-- Definite clauses told so far. -/
structure RuleBase where
  store : ClauseStore := .empty

instance : KnowledgeBase RuleBase where
  tell n := do
    let (b, s) ← get
    let (cnf, s) ← n.toCnf s
    set (b, s)
    match definiteClauses cnf.clauses with
    | .error e => throw (.notDefinite e)
    | .ok ds => set ((⟨b.store.addAll ds⟩ : RuleBase), s)

end Clausal
