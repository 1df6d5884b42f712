import Clausal.Distinct
import Clausal.Formula

/-!
# Ordinal form

In ordinal form the variables are numbered from zero in order of first appearance, the variables
of quantifiers included.  Two terms have the same ordinal form exactly if each is obtained from
the other by renaming variables.

## Main definitions

- `Term.ordinalise`, `Literal.ordinalise`, `Formula.ordinalise`
-/

namespace Clausal

/-- The number of a variable among those of the list, which has no repetitions. -/
def ordinalIn (xs : List Ident) (x : Ident) : Ident :=
  .num (xs.idxOf x)

/-- A term with its variables numbered. -/
def Term.ordinalise (t : Term) : Term :=
  t.subst fun x => .var (ordinalIn (dedup t.vars) x)

/-- A literal with its variables numbered. -/
def Literal.ordinalise (l : Literal) : Literal :=
  l.subst fun x => .var (ordinalIn (dedup l.vars) x)

namespace Formula

/-- All variables of a formula from left to right, bound ones and those of quantifiers included,
    with repetitions. -/
def allVars : Formula → List Ident
  | .atom a => a.vars
  | .not f => f.allVars
  | .and f g | .or f g | .imp f g | .iff f g => f.allVars ++ g.allVars
  | .all x f | .ex x f => x :: f.allVars

/-- Rename every variable, bound or free. -/
def rename (ρ : Ident → Ident) : Formula → Formula
  | .atom a => .atom (a.subst fun x => .var (ρ x))
  | .not f => .not (f.rename ρ)
  | .and f g => .and (f.rename ρ) (g.rename ρ)
  | .or f g => .or (f.rename ρ) (g.rename ρ)
  | .imp f g => .imp (f.rename ρ) (g.rename ρ)
  | .iff f g => .iff (f.rename ρ) (g.rename ρ)
  | .all x f => .all (ρ x) (f.rename ρ)
  | .ex x f => .ex (ρ x) (f.rename ρ)

/-- A formula with its variables numbered, bound ones by the name they share. -/
def ordinalise (f : Formula) : Formula :=
  f.rename (ordinalIn (dedup f.allVars))

end Formula

end Clausal
