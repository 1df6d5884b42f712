import Clausal.Clause
import Clausal.Scalar

/-!
# Nodes of any kind

A node is anything that can be handed to the library before it is known what it is: a term, a
formula, a literal, a clause, a clause set, or a scalar.  Operations on nodes check the kinds of
what they are given and refuse those that they cannot do anything with.

## Main definitions

- `Node`, `Node.text`, `Node.same`
- `NodeError`, `NodeError.message?`
-/

namespace Clausal

/-! ## Section 1: Nodes -/

/-- A term, formula, literal, clause, clause set, or scalar. -/
inductive Node where
  | term (t : Term)
  | formula (f : Formula)
  | literal (l : Literal)
  | clause (c : Clause)
  | cnf (c : Cnf)
  | scalar (s : Scalar)
  deriving Inhabited

namespace Node

/-- The plain text of a node.  A bare text is quoted. -/
def text : Node → String
  | .term t => t.text
  | .formula f => f.text
  | .literal l => l.text
  | .clause c => c.text
  | .cnf c => c.text
  | .scalar s => s.quoted

/-- The plain text of a node without quotes around a bare text. -/
def bareText : Node → String
  | .scalar s => s.text
  | n => n.text

/-- Equality of nodes. -/
def same : Node → Node → Bool
  | .term s, .term t => s = t
  | .formula f, .formula g => f == g
  | .literal l, .literal m => l == m
  | .clause c, .clause d => c == d
  | .cnf c, .cnf d => c == d
  | .scalar a, .scalar b => a == b
  | _, _ => false

instance : BEq Node := ⟨same⟩

/-- A bare identifier. -/
def ident (i : Ident) : Node :=
  .scalar (.ident i)

/-- A bare truth value. -/
def bool (b : Bool) : Node :=
  .scalar (.bool b)

end Node

/-! ## Section 2: Errors -/

/-- What a constructor or operation expects. -/
inductive Expected where
  | term
  | formula
  | variable
  | predicate
  | bool
  | literal
  | clause
  | clauseLiteralOrPredicate
  | literalFormula
  deriving DecidableEq, Repr, Inhabited

/-- Why nodes do not fit together. -/
inductive NodeError where
  /-- A node of another kind than the expected one. -/
  | kind (expected : Expected) (got : Node)
  /-- A clause without exactly one positive literal, where a definite one is expected. -/
  | notDefinite (e : NotDefinite)
  /-- An operation that a node of this kind does not have. -/
  | unsupported
  /-- A node without elements that could be counted or gone through. -/
  | notCollection
  /-- Something that was looked for and is no longer there. -/
  | missing

namespace NodeError

/-- The name of what is expected. -/
def expectedText : Expected → String
  | .term => "Term"
  | .formula => "Formula"
  | .variable => "Variable"
  | .predicate => "Predicate"
  | .bool => "bool"
  | .literal => "Literal"
  | .clause => "Clause"
  | .clauseLiteralOrPredicate => "Clause, Literal or Predicate"
  | .literalFormula => "predicate or negated predicate"

/-- The message of an error, if it has one. -/
def message? : NodeError → Option String
  | .kind expected got => some ("Expected " ++ expectedText expected ++ ", got " ++ got.text)
  | .notDefinite e => some e.message
  | .unsupported | .notCollection | .missing => none

end NodeError

end Clausal
