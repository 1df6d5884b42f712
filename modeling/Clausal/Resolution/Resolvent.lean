import Clausal.Apart
import Clausal.Unification

/-!
# Resolution of two clauses

Two clauses are resolved on a literal of the first and a literal of the second that a substitution
makes complementary.  What remains of the two is *factored*: literals that unify are merged, until
no two of them do.  A resolvent with two complementary literals is true anyway and is dropped.

## Main definitions

- `factor`: merge the literals that unify
- `Resolution`: two parents, the unifier and the resolvent
- `Clause.resolve`: all resolutions of two clauses
-/

namespace Clausal

/-! ## Section 1: Factoring -/

/-- A unifier of the first two literals that have one, pairs taken from left to right. -/
def firstUnifier? : List Literal → Option Substitution
  | [] => none
  | l :: ls =>
    match ls.findSome? fun m => l.unify .empty m with
    | some σ => some σ
    | none => firstUnifier? ls

/-- Merge two literals that unify, at most `n` times. -/
def factorFor : Nat → List Literal → List Literal
  | 0, ls => ls
  | n + 1, ls =>
    match firstUnifier? ls with
    | none => ls
    | some σ => factorFor n (dedup (ls.map σ.applyLiteral))

/-- Merge literals that unify until no two of them do.  Every merger leaves fewer literals, so their
    number bounds the mergers. -/
def factor (ls : List Literal) : List Literal :=
  factorFor ls.length (dedup ls)

/-- Whether two literals deny each other: equal atoms, different signs. -/
def Literal.complements (l m : Literal) : Bool :=
  l.atom == m.atom && l.positive != m.positive

/-- Whether some two of the given literals deny each other. -/
def isTautology : List Literal → Bool
  | [] => false
  | l :: ls => ls.any l.complements || isTautology ls

/-! ## Section 2: Resolution -/

/-- A resolution of two clauses.  The unifier and the resolvent may use a renamed copy of the second
    clause. -/
structure Resolution where
  first : Clause
  second : Clause
  unifier : Substitution
  resolvent : Clause
  deriving Inhabited

namespace Clause

/-- Whether two clauses have a variable in common. -/
def sharesVars (c d : Clause) : Bool :=
  c.vars.any fun x => d.vars.contains x

/-- What is left of a clause without a literal. -/
def without (c : Clause) (l : Literal) : List Literal :=
  c.literals.filter fun m => !(m == l)

/-- The unifier and the resolvent of two clauses without common variables, on a literal of each. -/
def resolveOn (c d : Clause) (l m : Literal) : Option (Substitution × Clause) :=
  match l.unify .empty m.negate with
  | none => none
  | some σ =>
    let ls := factor ((c.without l ++ d.without m).map σ.applyLiteral)
    if isTautology ls then none else some (σ, ofList ls)

/-- The unifiers and resolvents of two clauses without common variables, literals taken from left
    to right. -/
def resolveApart (c d : Clause) : List (Substitution × Clause) :=
  c.literals.flatMap fun l => d.literals.filterMap fun m => c.resolveOn d l m

/-- The second of two clauses, renamed apart if it shares variables with the first. -/
def apartFrom (s : Names) (c d : Clause) : Clause × Names :=
  if c.sharesVars d then d.renameApart s else (d, s)

/-- All resolutions of two clauses. -/
def resolve (s : Names) (c d : Clause) : List Resolution × Names :=
  let (d', s) := c.apartFrom s d
  ((c.resolveApart d').map fun r => ⟨c, d, r.1, r.2⟩, s)

end Clause

end Clausal
