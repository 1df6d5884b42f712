import Clausal.Names

/-!
# Skolem form

Every existentially quantified variable is replaced by a Skolem symbol applied to the universally
quantified variables in whose scope the quantifier stands, those of the whole formula first.

## Main definitions

- `Formula.skolemise`
- `Formula.nestsExistential`: whether an existential quantifier stands in the scope of another one
  for the same variable, in which case it is not clear which of the two a later use means
-/

namespace Clausal.Formula

/-- The number of existential quantifiers of a formula. -/
def existentials : Formula → Nat
  | .atom _ => 0
  | .not f => f.existentials
  | .and f g | .or f g | .imp f g | .iff f g => f.existentials + g.existentials
  | .all _ f => f.existentials
  | .ex _ f => f.existentials + 1

/-- Replace existential quantifiers by the Skolem symbols from serial `n` on.  `us` are the
    universally quantified variables in scope, after the arguments that all Skolem symbols have, and
    `θ` replaces the existential ones. -/
def skolemiseFrom (origin : Option Nat) :
    Nat → List Term → (Ident → Term) → Formula → Formula
  | _, _, θ, .atom a => .atom (a.subst θ)
  | n, us, θ, .not f => .not (f.skolemiseFrom origin n us θ)
  | n, us, θ, .and f g =>
    .and (f.skolemiseFrom origin n us θ) (g.skolemiseFrom origin (n + f.existentials) us θ)
  | n, us, θ, .or f g =>
    .or (f.skolemiseFrom origin n us θ) (g.skolemiseFrom origin (n + f.existentials) us θ)
  | n, us, θ, .imp f g =>
    .imp (f.skolemiseFrom origin n us θ) (g.skolemiseFrom origin (n + f.existentials) us θ)
  | n, us, θ, .iff f g =>
    .iff (f.skolemiseFrom origin n us θ) (g.skolemiseFrom origin (n + f.existentials) us θ)
  | n, us, θ, .all x f => .all x (f.skolemiseFrom origin n (us ++ [.var x]) θ)
  | n, us, θ, .ex x f =>
    f.skolemiseFrom origin (n + 1) us fun y =>
      if y = x then .app (.skolem n x origin) us else θ y

/-- Skolem form of a formula.  Every Skolem symbol has the terms `us` as its first arguments: the
    free variables of the formula, where these are read as universal. -/
def skolemise (origin : Option Nat) (s : Names) (us : List Term) (f : Formula) :
    Formula × Names :=
  (f.skolemiseFrom origin s.next us .var, s.skip f.existentials)

/-- Whether an existential quantifier for `x` occurs. -/
def bindsExistentially (x : Ident) : Formula → Bool
  | .atom _ => false
  | .not f => f.bindsExistentially x
  | .and f g | .or f g | .imp f g | .iff f g => f.bindsExistentially x || g.bindsExistentially x
  | .all _ f => f.bindsExistentially x
  | .ex y f => y = x || f.bindsExistentially x

/-- Whether an existential quantifier stands in the scope of another one for the same variable. -/
def nestsExistential : Formula → Bool
  | .atom _ => false
  | .not f => f.nestsExistential
  | .and f g | .or f g | .imp f g | .iff f g => f.nestsExistential || g.nestsExistential
  | .all _ f => f.nestsExistential
  | .ex x f => f.bindsExistentially x || f.nestsExistential

end Clausal.Formula
