import Clausal.Format.Label
import Clausal.Node.Operation

/-!
# Readable texts

Terms, formulas and clauses are written with logical symbols and labelled names.  Compound formulas
stand in square brackets, so that precedence is never in doubt.  All texts of one scope share their
labels; labels are given in the order in which names are written.

## Main definitions

- `Labelling`: computations that give labels
- `Formula.format`, `Clause.format`, `Node.format`
-/

namespace Clausal

/-- Computations that give labels.  Labels given before an error stay given. -/
abbrev Labelling : Type → Type :=
  ExceptT LabelError (StateM LabelScope)

/-- The label of an identifier. -/
def labelOf (i : Ident) : Labelling String :=
  fun s => s.label (.ident i)

mutual

/-- The text of a term; an application without arguments is written like a constant. -/
def Term.format : Term → Labelling String
  | .var x => labelOf x
  | .const c => labelOf c
  | .app f args => do
    let label ← labelOf f
    let texts ← Term.formatList args
    return if texts.isEmpty then label else label ++ "(" ++ ", ".intercalate texts ++ ")"

/-- The texts of several terms. -/
def Term.formatList : List Term → Labelling (List String)
  | [] => return []
  | t :: ts => do
    let text ← Term.format t
    let texts ← Term.formatList ts
    return text :: texts

end

/-- The text of an atom. -/
def Atom.format : Atom → Labelling String
  | .pred p args => (Term.app p args).format
  | .eq l r => do
    let left ← l.format
    let right ← r.format
    return left ++ " = " ++ right

/-- Whether a formula is an equation. -/
def Formula.isEquation : Formula → Bool
  | .atom a => a.isEq
  | _ => false

/-- The text of a formula. -/
def Formula.format : Formula → Labelling String
  | .atom a => a.format
  | .not f => do
    let inner ← f.format
    return if f.isEquation then "¬[" ++ inner ++ "]" else "¬" ++ inner
  | .and f g => do
    let left ← f.format
    let right ← g.format
    return "[" ++ left ++ " ∧ " ++ right ++ "]"
  | .or f g => do
    let left ← f.format
    let right ← g.format
    return "[" ++ left ++ " ∨ " ++ right ++ "]"
  | .imp f g => do
    let left ← f.format
    let right ← g.format
    return "[" ++ left ++ " ⇒ " ++ right ++ "]"
  | .iff f g => do
    let left ← f.format
    let right ← g.format
    return "[" ++ left ++ " ⇔ " ++ right ++ "]"
  | .all x f => do
    let name ← labelOf x
    let inner ← f.format
    return "[∀ " ++ name ++ ", " ++ inner ++ "]"
  | .ex x f => do
    let name ← labelOf x
    let inner ← f.format
    return "[∃ " ++ name ++ ", " ++ inner ++ "]"

/-- The text of a literal. -/
def Literal.format (l : Literal) : Labelling String :=
  l.formula.format

/-- The text of a definite clause as a rule from its body to its head. -/
def DefiniteClause.format (d : DefiniteClause) : Labelling String := do
  let body ← d.body.mapM Atom.format
  let head ← d.head.format
  return if body.isEmpty then head else " ∧ ".intercalate body ++ " ⇒ " ++ head

/-- The text of a clause as a disjunction. -/
def Clause.formatDisjunction (c : Clause) : Labelling String := do
  if c.isEmpty then return "[]"
  let texts ← c.literals.mapM Literal.format
  return " ∨ ".intercalate texts

/-- The text of a clause, in the form that it is to be shown in. -/
def Clause.format (c : Clause) : Labelling String :=
  match c.form, DefiniteClause.ofClause? c with
  | .rule, some d => d.format
  | _, _ => c.formatDisjunction

/-- The text of a clause set. -/
def Cnf.format (c : Cnf) : Labelling String := do
  let texts ← c.clauses.mapM Clause.format
  return " ∧ ".intercalate (texts.map fun t => "[" ++ t ++ "]")

/-- The text of a node; a scalar is written as its label. -/
def Node.format : Node → Labelling String
  | .term t => t.format
  | .formula f => f.format
  | .literal l => l.format
  | .clause c => c.format
  | .cnf c => c.format
  | .scalar i => fun s => s.label i

end Clausal
