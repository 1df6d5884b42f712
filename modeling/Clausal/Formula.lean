import Clausal.Term

/-!
# Atoms, literals and formulas

An atom is a predicate symbol applied to terms, or an equation.  Equations are read without
direction: `==` on atoms, and on everything built from them, does not see which side of an
equation stands first.  An ordinary atom that happens to use the name of equality is not an
equation and never `==` to one.

## Main definitions

- `Atom`, `Literal`, `Formula`, each with `==` and its plain `text`
- `Atom.subst`, `Literal.subst`: simultaneous replacement of variables
- `Literal.ofFormula?`, `Literal.formula`: literals as formulas
-/

namespace Clausal

/-! ## Section 1: Atoms -/

/-- Atomic formulas. -/
inductive Atom where
  | pred (p : Ident) (args : List Term)
  | eq (l r : Term)
  deriving Repr, Inhabited

namespace Atom

/-- Equality of atoms, up to the order of the two sides of an equation. -/
def same : Atom → Atom → Bool
  | .pred p as, .pred q bs => p = q && as = bs
  | .eq a b, .eq c d => (a = c && b = d) || (a = d && b = c)
  | _, _ => false

instance : BEq Atom := ⟨same⟩

/-- The predicate symbol; equations have the name of equality. -/
def symbol : Atom → Ident
  | .pred p _ => p
  | .eq _ _ => .equality

/-- The argument terms, the two sides in the case of an equation. -/
def args : Atom → List Term
  | .pred _ as => as
  | .eq l r => [l, r]

/-- Whether an atom is an equation. -/
def isEq : Atom → Bool
  | .pred _ _ => false
  | .eq _ _ => true

/-- Replace every variable `x` by `θ x`, all at once. -/
def subst (θ : Ident → Term) : Atom → Atom
  | .pred p as => .pred p (as.map (Term.subst θ))
  | .eq l r => .eq (l.subst θ) (r.subst θ)

/-- The variables of an atom from left to right, with repetitions. -/
def vars (a : Atom) : List Ident :=
  a.args.flatMap Term.vars

/-- How deeply applications are nested, counting the predicate symbol as one if it has arguments. -/
def depth (a : Atom) : Nat :=
  Term.depthList a.args

/-- The plain text of an atom: `p(a, X)`, `p()`, `a = X`. -/
def text : Atom → String
  | .pred p as => p.text ++ "(" ++ ", ".intercalate (as.map Term.text) ++ ")"
  | .eq l r => l.text ++ " = " ++ r.text

end Atom

/-! ## Section 2: Formulas -/

/-- First-order formulas. -/
inductive Formula where
  | atom (a : Atom)
  | not (f : Formula)
  | and (f g : Formula)
  | or (f g : Formula)
  | imp (f g : Formula)
  | iff (f g : Formula)
  | all (x : Ident) (f : Formula)
  | ex (x : Ident) (f : Formula)
  deriving Repr, Inhabited

namespace Formula

/-- Equality of formulas, up to the order of the two sides of equations.  Bound variables count. -/
def same : Formula → Formula → Bool
  | .atom a, .atom b => a == b
  | .not f, .not g => f.same g
  | .and f g, .and f' g' => f.same f' && g.same g'
  | .or f g, .or f' g' => f.same f' && g.same g'
  | .imp f g, .imp f' g' => f.same f' && g.same g'
  | .iff f g, .iff f' g' => f.same f' && g.same g'
  | .all x f, .all y g => x = y && f.same g
  | .ex x f, .ex y g => x = y && f.same g
  | _, _ => false

instance : BEq Formula := ⟨same⟩

/-- The plain text of a formula: `~F`, `(F & G)`, `(F | G)`, `(F => G)`, `(F <=> G)`, `![X]: F`
    and `?[X]: F`. -/
def text : Formula → String
  | .atom a => a.text
  | .not f => "~" ++ f.text
  | .and f g => "(" ++ f.text ++ " & " ++ g.text ++ ")"
  | .or f g => "(" ++ f.text ++ " | " ++ g.text ++ ")"
  | .imp f g => "(" ++ f.text ++ " => " ++ g.text ++ ")"
  | .iff f g => "(" ++ f.text ++ " <=> " ++ g.text ++ ")"
  | .all x f => "![" ++ x.text ++ "]: " ++ f.text
  | .ex x f => "?[" ++ x.text ++ "]: " ++ f.text

end Formula

/-! ## Section 3: Literals -/

/-- An atom or its negation. -/
structure Literal where
  positive : Bool
  atom : Atom
  deriving Repr, Inhabited

namespace Literal

instance : BEq Literal := ⟨fun l m => l.atom == m.atom && l.positive = m.positive⟩

/-- The literal of the other sign. -/
def negate (l : Literal) : Literal :=
  { l with positive := !l.positive }

/-- Replace every variable `x` by `θ x`, all at once. -/
def subst (θ : Ident → Term) (l : Literal) : Literal :=
  { l with atom := l.atom.subst θ }

/-- The variables of a literal from left to right, with repetitions. -/
def vars (l : Literal) : List Ident :=
  l.atom.vars

/-- The depth of the atom. -/
def depth (l : Literal) : Nat :=
  l.atom.depth

/-- The literal as a formula. -/
def formula (l : Literal) : Formula :=
  if l.positive then .atom l.atom else .not (.atom l.atom)

/-- The literal that a formula is, if it is an atom or a negated atom. -/
def ofFormula? : Formula → Option Literal
  | .atom a => some ⟨true, a⟩
  | .not (.atom a) => some ⟨false, a⟩
  | _ => none

/-- The plain text of a literal, with `~` before the atom if it is negative. -/
def text (l : Literal) : String :=
  (if l.positive then "" else "~") ++ l.atom.text

end Literal

end Clausal
