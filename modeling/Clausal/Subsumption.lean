import Clausal.Clause
import Clausal.Matching
import Clausal.Unification

/-!
# Subsumption

One clause subsumes another if some substitution maps every literal of the first onto a literal of
the second.  The search tries the literals of the first clause from left to right, each against
all literals of the second, and goes back when a choice leads nowhere.

## Main definitions

- `Clause.subsumes`, `Clause.isVariantOf`
- `Clause.hasUnifiableLiterals`
-/

namespace Clausal

/-- Whether bindings can be extended so that each of the given literals becomes a target. -/
def matchAll (targets : List Literal) : List Literal → Substitution → Bool
  | [], _ => true
  | l :: ls, σ => targets.any fun m =>
      match l.match? σ m with
      | none => false
      | some τ => matchAll targets ls τ

/-- Whether some two of the given literals unify. -/
def anyUnifiable : List Literal → Bool
  | [] => false
  | l :: ls => ls.any (fun m => (l.unify .empty m).isSome) || anyUnifiable ls

namespace Clause

/-- Whether some substitution maps every literal of `c` onto a literal of `d`.  The empty clause
    subsumes nothing. -/
def subsumes (c d : Clause) : Bool :=
  !c.isEmpty && matchAll d.literals c.literals .empty

/-- Whether two clauses have the same number of literals and subsume each other. -/
def isVariantOf (c d : Clause) : Bool :=
  c.size = d.size && (c.isEmpty || (c.subsumes d && d.subsumes c))

/-- Whether some substitution merges two literals of a clause into one. -/
def hasUnifiableLiterals (c : Clause) : Bool :=
  anyUnifiable c.literals

end Clause

end Clausal
