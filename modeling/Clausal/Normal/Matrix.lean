import Clausal.Clause

/-!
# Clauses of a formula

Dropping the universal quantifiers of a Skolem form and distributing disjunction over conjunction
leaves a conjunction of disjunctions, from which the clauses are read off.

## Main definitions

- `Formula.dropUniversals`, `Formula.distribute`
- `Formula.conjuncts`, `Formula.disjuncts`: the parts of iterated conjunctions and disjunctions
- `Formula.clauses`, `Formula.clauses?`
-/

namespace Clausal.Formula

/-! ## Section 1: The matrix -/

/-- The formula without its universal quantifiers, wherever they stand. -/
def dropUniversals : Formula → Formula
  | .atom a => .atom a
  | .not f => .not f.dropUniversals
  | .and f g => .and f.dropUniversals g.dropUniversals
  | .or f g => .or f.dropUniversals g.dropUniversals
  | .imp f g => .imp f.dropUniversals g.dropUniversals
  | .iff f g => .iff f.dropUniversals g.dropUniversals
  | .all _ f => f.dropUniversals
  | .ex x f => .ex x f.dropUniversals

/-- The disjunction `f | g`, distributed over the conjunctions of `g`. -/
def orRight (f : Formula) : Formula → Formula
  | .and g h => .and (orRight f g) (orRight f h)
  | g => .or f g

/-- The disjunction `f | g`, distributed over the conjunctions of `f` and then of `g`. -/
def orBoth : Formula → Formula → Formula
  | .and f h, g => .and (orBoth f g) (orBoth h g)
  | f, g => orRight f g

/-- Distribute disjunction over conjunction, from the innermost disjunctions outwards. -/
def distribute : Formula → Formula
  | .atom a => .atom a
  | .not f => .not f.distribute
  | .and f g => .and f.distribute g.distribute
  | .or f g => orBoth f.distribute g.distribute
  | .imp f g => .imp f.distribute g.distribute
  | .iff f g => .iff f.distribute g.distribute
  | .all x f => .all x f.distribute
  | .ex x f => .ex x f.distribute

/-! ## Section 2: Clauses -/

/-- The parts of an iterated conjunction, from left to right. -/
def conjuncts : Formula → List Formula
  | .and f g => f.conjuncts ++ g.conjuncts
  | f => [f]

/-- The parts of an iterated disjunction, from left to right. -/
def disjuncts : Formula → List Formula
  | .or f g => f.disjuncts ++ g.disjuncts
  | f => [f]

/-- The clauses of a conjunction of disjunctions of literals; other disjuncts are passed over. -/
def clauses (f : Formula) : List Clause :=
  f.conjuncts.map fun c => Clause.ofList (c.disjuncts.filterMap Literal.ofFormula?)

/-- The clauses of a formula, or the first disjunct that is no literal. -/
def clauses? (f : Formula) : Except Formula (List Clause) :=
  match (f.conjuncts.flatMap disjuncts).find? (fun d => (Literal.ofFormula? d).isNone) with
  | some d => .error d
  | none => .ok f.clauses

end Clausal.Formula
