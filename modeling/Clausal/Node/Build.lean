import Clausal.Node

/-!
# Building nodes

The constructors in this file build larger nodes from given ones and check their kinds.

## Main definitions

- `Node.asTerm`, `Node.asFormula`, …: what a node is
- `Node.function`, `Node.predicate`, `Node.negation`, …: checked constructors
-/

namespace Clausal

namespace Node

/-- The term that a node is. -/
def asTerm : Node → Except NodeError Term
  | .term t => .ok t
  | n => .error (.kind .term n)

/-- The formula that a node is. -/
def asFormula : Node → Except NodeError Formula
  | .formula f => .ok f
  | n => .error (.kind .formula n)

/-- The variable that a node is. -/
def asVariable : Node → Except NodeError Ident
  | .term (.var x) => .ok x
  | n => .error (.kind .variable n)

/-- The atom that a node is. -/
def asAtom : Node → Except NodeError Atom
  | .formula (.atom a) => .ok a
  | n => .error (.kind .predicate n)

/-- The literal that a node is. -/
def asLiteral : Node → Except NodeError Literal
  | .literal l => .ok l
  | n => .error (.kind .literal n)

/-- The clause that a node is. -/
def asClause : Node → Except NodeError Clause
  | .clause c => .ok c
  | n => .error (.kind .clause n)

/-- An application of a function symbol. -/
def function (f : Ident) (args : List Node) : Except NodeError Node := do
  return .term (.app f (← args.mapM asTerm))

/-- An application of a predicate symbol. -/
def predicate (p : Ident) (args : List Node) : Except NodeError Node := do
  return .formula (.atom (.pred p (← args.mapM asTerm)))

/-- An equation. -/
def equation (l r : Node) : Except NodeError Node := do
  let l ← l.asTerm
  let r ← r.asTerm
  return .formula (.atom (.eq l r))

/-- A negation. -/
def negation (f : Node) : Except NodeError Node := do
  return .formula (.not (← f.asFormula))

/-- Two formulas joined by a connective. -/
def binary (op : Formula → Formula → Formula) (f g : Node) : Except NodeError Node := do
  let f ← f.asFormula
  let g ← g.asFormula
  return .formula (op f g)

/-- A quantified formula. -/
def quantified (q : Ident → Formula → Formula) (x f : Node) : Except NodeError Node := do
  let x ← x.asVariable
  let f ← f.asFormula
  return .formula (q x f)

/-- A literal with the given sign, which should be a truth value. -/
def signed (atom sign : Node) : Except NodeError Node := do
  let a ← atom.asAtom
  match sign with
  | .scalar (.bool b) => return .literal ⟨b, a⟩
  | n => .error (.kind .bool n)

/-- The literals for a clause: a single clause stands for its own. -/
def literals : List Node → Except NodeError (List Literal)
  | [.clause c] => .ok c.literals
  | ns => ns.mapM asLiteral

/-- A clause. -/
def disjunction (ns : List Node) : Except NodeError Node := do
  return .clause (Clause.ofList (← literals ns))

/-- A definite clause. -/
def definite (ns : List Node) : Except NodeError Node := do
  let c := Clause.ofList (← literals ns)
  match DefiniteClause.ofClause? c with
  | some d => return .clause d.clause
  | none => .error (.notDefinite ⟨c⟩)

/-- A clause set. -/
def conjunction (ns : List Node) : Except NodeError Node := do
  return .cnf (Cnf.ofList (← ns.mapM asClause))

/-- Quantify a formula over several variables, given before it.  A single node is left as it is. -/
def quantifiedOver (q : Ident → Formula → Formula) : Node → List Node → Except NodeError Node
  | n, [] => .ok n
  | x, n :: ns => do quantified q x (← quantifiedOver q n ns)

/-- Join formulas by a connective, from the left.  A single node is left as it is. -/
def joined (op : Formula → Formula → Formula) (n : Node) (ns : List Node) :
    Except NodeError Node :=
  ns.foldlM (binary op) n

/-- The literal that a formula is. -/
def literalOf : Node → Except NodeError Literal
  | .formula f =>
    match Literal.ofFormula? f with
    | some l => .ok l
    | none => .error (.kind .literalFormula (.formula f))
  | n => .error (.kind .literalFormula n)

end Node

end Clausal
