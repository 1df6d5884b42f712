import Clausal.Distinct
import Clausal.Names

/-!
# Standardising apart

Every quantifier gets a fresh variable of its own.  Free variables are read as universally
quantified over the whole formula, so each of them gets one fresh variable as well.

The serials are laid out in advance: the free variables take the first ones, in order of first
occurrence, and the quantifiers take the following ones, from left to right.

## Main definitions

- `Formula.freeVars`, `Formula.quantifiers`
- `Formula.standardise`
-/

namespace Clausal

namespace Formula

/-- The free variables of a formula from left to right, with repetitions. -/
def freeVars : Formula → List Ident
  | .atom a => a.vars
  | .not f => f.freeVars
  | .and f g | .or f g | .imp f g | .iff f g => f.freeVars ++ g.freeVars
  | .all x f | .ex x f => f.freeVars.filter (· ≠ x)

/-- The number of quantifiers of a formula. -/
def quantifiers : Formula → Nat
  | .atom _ => 0
  | .not f => f.quantifiers
  | .and f g | .or f g | .imp f g | .iff f g => f.quantifiers + g.quantifiers
  | .all _ f | .ex _ f => f.quantifiers + 1

end Formula

/-- Renaming `ρ`, except that `x` becomes `y`. -/
def rebind (ρ : Ident → Ident) (x y : Ident) : Ident → Ident :=
  fun z => if z = x then y else ρ z

namespace Formula

/-- Give the quantifiers of a formula the fresh variables from serial `n` on; `ρ` renames the
    variables bound further out, and the free ones. -/
def standardiseFrom (origin : Option Nat) : Nat → (Ident → Ident) → Formula → Formula
  | _, ρ, .atom a => .atom (a.subst fun x => .var (ρ x))
  | n, ρ, .not f => .not (f.standardiseFrom origin n ρ)
  | n, ρ, .and f g =>
    .and (f.standardiseFrom origin n ρ) (g.standardiseFrom origin (n + f.quantifiers) ρ)
  | n, ρ, .or f g =>
    .or (f.standardiseFrom origin n ρ) (g.standardiseFrom origin (n + f.quantifiers) ρ)
  | n, ρ, .imp f g =>
    .imp (f.standardiseFrom origin n ρ) (g.standardiseFrom origin (n + f.quantifiers) ρ)
  | n, ρ, .iff f g =>
    .iff (f.standardiseFrom origin n ρ) (g.standardiseFrom origin (n + f.quantifiers) ρ)
  | n, ρ, .all x f =>
    .all (.standard n x origin)
      (f.standardiseFrom origin (n + 1) (rebind ρ x (.standard n x origin)))
  | n, ρ, .ex x f =>
    .ex (.standard n x origin)
      (f.standardiseFrom origin (n + 1) (rebind ρ x (.standard n x origin)))

end Formula

/-- The fresh variable of a free variable: the free variables `xs` take the serials from `n` on. -/
def standardFree (origin : Option Nat) (n : Nat) (xs : List Ident) (x : Ident) : Ident :=
  .standard (n + xs.idxOf x) x origin

/-- Something standardised apart, with the fresh variables of its free variables in order of first
    occurrence. -/
structure Standardised (α : Type) where
  result : α
  free : List Ident

/-- Standardise a formula apart. -/
def Formula.standardise (origin : Option Nat) (s : Names) (f : Formula) :
    Standardised Formula × Names :=
  let xs := dedup f.freeVars
  let ρ := standardFree origin s.next xs
  (⟨f.standardiseFrom origin (s.next + xs.length) ρ, xs.map ρ⟩, s.skip (xs.length + f.quantifiers))

/-- Standardise a term apart; all of its variables are free. -/
def Term.standardise (origin : Option Nat) (s : Names) (t : Term) : Standardised Term × Names :=
  let xs := dedup t.vars
  let ρ := standardFree origin s.next xs
  (⟨t.subst fun x => .var (ρ x), xs.map ρ⟩, s.skip xs.length)

/-- Standardise a literal apart; all of its variables are free. -/
def Literal.standardise (origin : Option Nat) (s : Names) (l : Literal) :
    Standardised Literal × Names :=
  let xs := dedup l.vars
  let ρ := standardFree origin s.next xs
  (⟨l.subst fun x => .var (ρ x), xs.map ρ⟩, s.skip xs.length)

end Clausal
