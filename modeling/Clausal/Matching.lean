import Clausal.Substitution

/-!
# Matching

Matching finds the terms that the variables of one expression, the generalisation, stand for in
another, the instance.  Variables of the instance are treated as constants, and bindings are not
followed: a variable that is bound already must be bound to the very term it is matched with.

## Main definitions

- `Term.match?`, `Atom.match?`, `Literal.match?`: extension of bindings
- `Term.isInstanceOf`
-/

namespace Clausal

mutual

/-- Extend bindings so that the generalisation becomes the given term. -/
def Term.match? (σ : Substitution) : Term → Term → Option Substitution
  | .var x, t =>
    match σ.find? x with
    | some u => if u = t then some σ else none
    | none => some (σ.insert x t)
  | .const c, t => if t = .const c then some σ else none
  | .app f as, .app g bs =>
    if f = g ∧ as.length = bs.length then Term.matchList? σ as bs else none
  | .app _ _, _ => none

/-- Extend bindings so that the generalisations become the given terms, in pairs. -/
def Term.matchList? (σ : Substitution) : List Term → List Term → Option Substitution
  | a :: as, b :: bs =>
    match Term.match? σ a b with
    | none => none
    | some τ => Term.matchList? τ as bs
  | [], _ => some σ
  | _ :: _, [] => some σ

end

/-- Whether a term is an instance of another one. -/
def Term.isInstanceOf (t general : Term) : Bool :=
  (general.match? .empty t).isSome

/-- Extend bindings so that the generalisation becomes the given atom.  If the generalisation is an
    equation, the sides of the instance are tried in the given order and then the other way
    round. -/
def Atom.match? (σ : Substitution) (a b : Atom) : Option Substitution :=
  if a.symbol = b.symbol ∧ a.args.length = b.args.length then
    match Term.matchList? σ a.args b.args with
    | some τ => some τ
    | none => if a.isEq then Term.matchList? σ a.args b.args.reverse else none
  else none

/-- Extend bindings so that the generalisation becomes the given literal. -/
def Literal.match? (σ : Substitution) (l m : Literal) : Option Substitution :=
  if l.positive = m.positive then l.atom.match? σ m.atom else none

end Clausal
