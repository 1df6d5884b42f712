import Clausal.Substitution

/-!
# Unification

Unification extends a substitution until it makes two expressions equal.  The bindings made so
far are never applied eagerly: a term is looked at through them (`walk`), and only the term that
a variable gets bound to is resolved.

A solvable problem has a solution whose terms nest no deeper than there are symbols in the
problem, so that number bounds the depth to which terms are taken apart.

## Main definitions

- `Substitution.walk`: a term seen through the bindings
- `unifyTerm`, `unifyList`: extension of a substitution
- `Atom.unify`, `Literal.unify`: the same for atoms and literals, where the two sides of an
  equation may change places
- `Substitution.reaches`: the occurs check through bindings
-/

namespace Clausal

/-! ## Section 1: Looking through bindings -/

namespace Substitution

/-- Follow bindings of variables to variables, at most `n` of them. -/
def walkFor (σ : Substitution) : Nat → Term → Term
  | n + 1, .var x =>
    match σ.find? x with
    | none => .var x
    | some u => σ.walkFor n u
  | _, t => t

/-- A term as far as its outermost symbol: an unbound variable, or no variable at all. -/
def walk (σ : Substitution) (t : Term) : Term :=
  σ.walkFor σ.size t

/-- Bind an unbound variable to the value of a term, unless it occurs there. -/
def bindValue? (σ : Substitution) (x : Ident) (t : Term) : Option Substitution :=
  let u := σ.apply t
  if u.occurs x then none else some (σ.insert x u)

/-- Whether `x` is met when the bindings of a term's variables are followed, at most `n` of them
    one after the other. -/
def reachesFor (σ : Substitution) (x : Ident) : Nat → Term → Bool
  | 0, t => t.occurs x
  | n + 1, t => t.vars.any fun y =>
      y = x ||
        match σ.find? y with
        | none => false
        | some u => σ.reachesFor x n u

/-- Whether `x` is met when the bindings of a term's variables are followed. -/
def reaches (σ : Substitution) (x : Ident) (t : Term) : Bool :=
  σ.reachesFor x σ.size t

end Substitution

/-! ## Section 2: Terms -/

/-- Unify argument lists from left to right by means of `step`; spare arguments are ignored. -/
def unifyArgs (step : Substitution → Term → Term → Option Substitution) :
    Substitution → List Term → List Term → Option Substitution
  | σ, a :: as, b :: bs =>
    match step σ a b with
    | none => none
    | some τ => unifyArgs step τ as bs
  | σ, _, _ => some σ

/-- Unify two terms under `σ`, taking them apart to the depth given by the first argument.

    A variable of the first term is bound in preference to one of the second.  Where the second
    term is a variable bound to an application, its arguments come first. -/
def unifyTerm : Nat → Substitution → Term → Term → Option Substitution
  | 0, _, _, _ => none
  | n + 1, σ, s, t =>
    if s = t then some σ
    else
      match σ.walk s, σ.walk t with
      | .var x, t' => if t' = .var x then some σ else σ.bindValue? x t'
      | s', .var y => σ.bindValue? y s'
      | .const c, .const d => if c = d then some σ else none
      | .app f as, .app g bs =>
        if f = g ∧ as.length = bs.length then
          if t.isVar then unifyArgs (unifyTerm n) σ bs as else unifyArgs (unifyTerm n) σ as bs
        else none
      | _, _ => none

/-- A depth that suffices to unify two lists of terms. -/
def unifyDepth (σ : Substitution) (as bs : List Term) : Nat :=
  σ.symbols + Term.symbolsList as + Term.symbolsList bs + 1

/-- Extend `σ` so that it makes the terms of two lists equal in pairs. -/
def unifyList (σ : Substitution) (as bs : List Term) : Option Substitution :=
  unifyArgs (unifyTerm (unifyDepth σ as bs)) σ as bs

/-- Extend `σ` so that it makes two terms equal. -/
def Term.unify (σ : Substitution) (s t : Term) : Option Substitution :=
  unifyList σ [s] [t]

/-! ## Section 3: Atoms and literals -/

/-- Extend `σ` so that it makes two atoms equal.  If the first is an equation, the sides of the
    second are tried in the given order and then the other way round. -/
def Atom.unify (σ : Substitution) (a b : Atom) : Option Substitution :=
  if a.symbol = b.symbol ∧ a.args.length = b.args.length then
    match unifyList σ a.args b.args with
    | some τ => some τ
    | none => if a.isEq then unifyList σ a.args b.args.reverse else none
  else none

/-- Extend `σ` so that it makes two literals equal. -/
def Literal.unify (σ : Substitution) (l m : Literal) : Option Substitution :=
  if l.positive = m.positive then l.atom.unify σ m.atom else none

/-- The occurs check in an atom, through the bindings of `σ`. -/
def Atom.reaches (σ : Substitution) (x : Ident) (a : Atom) : Bool :=
  a.args.any (σ.reaches x)

end Clausal
