import Clausal.Formula

/-!
# Parts of terms and formulas

The parts of a formula are its subformulas and the terms in them, the variables that quantifiers
bind included.  They are listed from the outside in and from left to right.

## Main definitions

- `Part`, `Part.kind`
- `Term.parts`, `Formula.parts`
-/

namespace Clausal

/-- A term or a formula, as a part of a larger one. -/
inductive Part where
  | term (t : Term)
  | formula (f : Formula)
  deriving Repr, Inhabited

/-- The kinds of terms and formulas. -/
inductive Kind where
  | variable
  | constant
  | function
  | predicate
  | negation
  | conjunction
  | disjunction
  | implication
  | equivalence
  | universal
  | existential
  deriving DecidableEq, Repr, Inhabited

/-- The name of a kind. -/
def Kind.name : Kind → String
  | .variable => "variable"
  | .constant => "constant"
  | .function => "function"
  | .predicate => "predicate"
  | .negation => "negation"
  | .conjunction => "conjunction"
  | .disjunction => "disjunction"
  | .implication => "implication"
  | .equivalence => "equivalence"
  | .universal => "universal_quantification"
  | .existential => "existential_quantification"

namespace Part

/-- The kind of a part. -/
def kind : Part → Kind
  | .term (.var _) => .variable
  | .term (.const _) => .constant
  | .term (.app _ _) => .function
  | .formula (.atom _) => .predicate
  | .formula (.not _) => .negation
  | .formula (.and _ _) => .conjunction
  | .formula (.or _ _) => .disjunction
  | .formula (.imp _ _) => .implication
  | .formula (.iff _ _) => .equivalence
  | .formula (.all _ _) => .universal
  | .formula (.ex _ _) => .existential

/-- The parts that a part is made of directly, from left to right. -/
def children : Part → List Part
  | .term (.app _ args) => args.map .term
  | .term _ => []
  | .formula (.atom a) => a.args.map .term
  | .formula (.not f) => [.formula f]
  | .formula (.and f g) | .formula (.or f g) | .formula (.imp f g) | .formula (.iff f g) =>
    [.formula f, .formula g]
  | .formula (.all x f) | .formula (.ex x f) => [.term (.var x), .formula f]

/-- The parts of a certain kind. -/
def ofKinds (kinds : List String) (ps : List Part) : List Part :=
  ps.filter fun p => kinds.contains p.kind.name

end Part

mutual

/-- A term and the terms inside it, from the outside in and from left to right. -/
def Term.subterms : Term → List Term
  | .var x => [.var x]
  | .const c => [.const c]
  | .app f args => .app f args :: Term.subtermsList args

/-- The subterms of several terms. -/
def Term.subtermsList : List Term → List Term
  | [] => []
  | t :: ts => Term.subterms t ++ Term.subtermsList ts

end

/-- The parts of a term. -/
def Term.parts (t : Term) : List Part :=
  t.subterms.map .term

/-- The parts of a formula. -/
def Formula.parts : Formula → List Part
  | .atom a => .formula (.atom a) :: a.args.flatMap Term.parts
  | .not f => .formula (.not f) :: f.parts
  | .and f g => .formula (.and f g) :: (f.parts ++ g.parts)
  | .or f g => .formula (.or f g) :: (f.parts ++ g.parts)
  | .imp f g => .formula (.imp f g) :: (f.parts ++ g.parts)
  | .iff f g => .formula (.iff f g) :: (f.parts ++ g.parts)
  | .all x f => .formula (.all x f) :: .term (.var x) :: f.parts
  | .ex x f => .formula (.ex x f) :: .term (.var x) :: f.parts

end Clausal
