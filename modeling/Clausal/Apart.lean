import Clausal.Names

/-!
# Clauses renamed apart

A copy of a clause with fresh variables has no variable in common with any other clause.  The fresh
variables stand for the same names and have the same origin as those that they replace.

## Main definitions

- `Clause.renameApart`, `DefiniteClause.renameApart`
-/

namespace Clausal

/-- A standardised variable of the given serial that stands for the same name. -/
def Ident.renewed (serial : Nat) : Ident → Ident
  | .standard _ of origin => .standard serial of origin
  | i => .standard serial i none

/-- Fresh variables for a list of variables without repetitions. -/
def freshVariable (s : Names) (xs : List Ident) (x : Ident) : Ident :=
  x.renewed (s.next + xs.idxOf x)

/-- A copy of a clause with fresh variables in place of its own, and the rest of the supply. -/
def Clause.renameApart (s : Names) (c : Clause) : Clause × Names :=
  (c.subst fun x => .var (freshVariable s c.vars x), s.skip c.vars.length)

/-- A copy of a definite clause with fresh variables, and the rest of the supply. -/
def DefiniteClause.renameApart (s : Names) (d : DefiniteClause) : DefiniteClause × Names :=
  (d.subst fun x => .var (freshVariable s d.clause.vars x), s.skip d.clause.vars.length)

end Clausal
