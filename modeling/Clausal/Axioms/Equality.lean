import Clausal.KnowledgeBase
import Clausal.Node.Operation

/-!
# Axioms of equality

A layer around a knowledge base that makes equations behave as such: it states that equality is
reflexive, symmetric and transitive, and for every symbol that it meets, that equals may take each
other's place as its arguments.

## Main definitions

- `equalityAxioms`: the axioms stated at the beginning
- `congruence`: the axiom of a symbol
- `EqualityLayer`
-/

namespace Clausal

/-! ## Section 1: The axioms -/

/-- An equation between two variables. -/
def varsEqual (x y : Ident) : Formula :=
  .atom (.eq (.var x) (.var y))

/-- Equality is reflexive, symmetric and transitive. -/
def equalityAxioms : List Formula :=
  let x := Ident.name "x"
  let y := Ident.name "y"
  let z := Ident.name "z"
  [.all x (varsEqual x x),
   .all x (.all y (.imp (varsEqual x y) (varsEqual y x))),
   .all x (.all y (.all z (.imp (.and (varsEqual x y) (varsEqual y z)) (varsEqual x z))))]

/-- The variable for an argument on the left. -/
def leftVar (i : Nat) : Ident :=
  .name ("l" ++ toString i)

/-- The variable for an argument on the right. -/
def rightVar (i : Nat) : Ident :=
  .name ("r" ++ toString i)

/-- The arguments up to the given place are equal on both sides. -/
def argumentsEqual : Nat → Formula
  | 0 => varsEqual (leftVar 0) (rightVar 0)
  | i + 1 => .and (varsEqual (leftVar (i + 1)) (rightVar (i + 1))) (argumentsEqual i)

/-- For all arguments on both sides. -/
def forAllArguments (arity : Nat) (f : Formula) : Formula :=
  (List.range arity).foldr (fun i g => .all (leftVar i) (.all (rightVar i) g)) f

/-- If the arguments of a symbol are equal on both sides, then the consequent holds of them. -/
def congruence (arity : Nat) (consequent : List Term → List Term → Formula) : Formula :=
  let left := (List.range arity).map fun i => .var (leftVar i)
  let right := (List.range arity).map fun i => .var (rightVar i)
  forAllArguments arity (.imp (argumentsEqual (arity - 1)) (consequent left right))

/-- Equal arguments make a predicate true together. -/
def predicateCongruence (p : Ident) (arity : Nat) : Formula :=
  congruence arity fun left right => .iff (.atom (.pred p left)) (.atom (.pred p right))

/-- Equal arguments give a function equal values. -/
def functionCongruence (f : Ident) (arity : Nat) : Formula :=
  congruence arity fun left right => .atom (.eq (.app f left) (.app f right))

/-! ## Section 2: The layer -/

/-- A knowledge base with axioms of equality, and the symbols whose axioms it has been told.  One
    axiom per symbol is told, for the number of arguments that the symbol is met with first. -/
structure EqualityLayer (κ : Type) where
  inner : κ
  predicates : List Ident := [.equality]
  functions : List Ident := []

namespace EqualityLayer

variable {κ : Type}

/-- The axiom that is due when a part of a formula is met, and the layer with its symbol noted. -/
def due? (l : EqualityLayer κ) : Part → Option (Formula × EqualityLayer κ)
  | .formula (.atom a) =>
    if l.predicates.contains a.symbol || a.args.isEmpty then none
    else some (predicateCongruence a.symbol a.args.length,
      { l with predicates := l.predicates ++ [a.symbol] })
  | .term (.app f args) =>
    if l.functions.contains f || args.isEmpty then none
    else some (functionCongruence f args.length, { l with functions := l.functions ++ [f] })
  | _ => none

variable [KnowledgeBase κ]

/-- Tell the knowledge base inside the layer. -/
def tellInner (n : Node) : Telling (EqualityLayer κ) Unit :=
  .within inner (fun l i => { l with inner := i }) (KnowledgeBase.tell n)

/-- Tell the axiom that is due when a part of a formula is met. -/
def visit (p : Part) : Telling (EqualityLayer κ) Unit := do
  let (l, s) ← get
  match l.due? p with
  | none => return ()
  | some (f, l) =>
    set (l, s)
    tellInner (.formula f)

instance : KnowledgeBase (EqualityLayer κ) where
  tell n := do
    tellInner n
    (← n.parts).forM visit

/-- Put the layer around a knowledge base, which is told the first axioms. -/
def create : Telling κ Unit :=
  .tellAll (equalityAxioms.map .formula)

end EqualityLayer

end Clausal
