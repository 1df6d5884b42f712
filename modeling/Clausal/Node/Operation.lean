import Clausal.Node.Build
import Clausal.Normal.Cnf
import Clausal.Ordinal
import Clausal.Part

/-!
# Operations on nodes

Every operation says what it does with a node of each kind.

## Main definitions

- `Node.vars?`, `Node.depth?`, `Node.parts`
- `Node.ordinalise`, `Node.transform`, `Node.standardise`, `Node.skolemise`
- `Node.clauses`, `Node.stages`, `Node.toCnf`
- `Node.count`, `Node.elements`
-/

namespace Clausal

namespace Node

/-! ## Section 1: Parts -/

/-- The variables of a node other than a formula with connectives, in order of first
    appearance. -/
def vars? : Node → Option (List Ident)
  | .term t => some (dedup t.vars)
  | .formula (.atom a) => some (dedup a.vars)
  | .literal l => some (dedup l.vars)
  | .clause c => some c.vars
  | _ => none

/-- The depth of a node other than a formula with connectives. -/
def depth? : Node → Option Nat
  | .term t => some t.depth
  | .formula (.atom a) => some a.depth
  | .literal l => some l.depth
  | .clause c => some c.depth
  | _ => none

/-- The part that a term or formula is. -/
def part? : Node → Option Part
  | .term t => some (.term t)
  | .formula f => some (.formula f)
  | _ => none

/-- The node that a part is. -/
def ofPart : Part → Node
  | .term t => .term t
  | .formula f => .formula f

/-- The parts of a term, a formula, or the atom of a literal. -/
def parts : Node → Except NodeError (List Part)
  | .term t => .ok t.parts
  | .formula f => .ok f.parts
  | .literal l => .ok (Formula.atom l.atom).parts
  | _ => .error .unsupported

/-! ## Section 2: Changes -/

/-- A node in ordinal form. -/
def ordinalise : Node → Except NodeError Node
  | .term t => .ok (.term t.ordinalise)
  | .formula f => .ok (.formula f.ordinalise)
  | .literal l => .ok (.literal l.ordinalise)
  | _ => .error .unsupported

/-- The term that a node is, where it is to be in ordinal form. -/
def ordinalKey (n : Node) : Except NodeError Term := do
  discard (← n.ordinalise).asTerm
  n.asTerm

/-- Apply a rule for formulas that leaves terms and literals as they are. -/
def transform (rule : Formula → Formula) : Node → Except NodeError Node
  | .formula f => .ok (.formula (rule f))
  | .term t => .ok (.term t)
  | .literal l => .ok (.literal l)
  | _ => .error .unsupported

/-- Standardise a node apart, as something introduced for the node itself. -/
def standardise (s : Names) (n : Node) : Except NodeError (Standardised Node × Names) :=
  let origin := some s.sources.size
  let s := s.record n
  match n with
  | .formula f =>
    let (r, s) := f.standardise origin s
    .ok (⟨.formula r.result, r.free⟩, s)
  | .term t =>
    let (r, s) := t.standardise origin s
    .ok (⟨.term r.result, r.free⟩, s)
  | .literal l =>
    let (r, s) := l.standardise origin s
    .ok (⟨.literal r.result, r.free⟩, s)
  | _ => .error .unsupported

/-- Skolem form of a node, where the given nodes come first among the arguments of every Skolem
    symbol.  An existential quantifier below another one for the same variable uses up the
    replacement of both. -/
def skolemise (s : Names) (free : List Node) : Node → Except NodeError (Node × Names)
  | .formula f => do
    if f.existentials = 0 then return (.formula f, s)
    let ts ← free.mapM asTerm
    if f.nestsExistential then throw .missing
    let (g, s) := f.skolemise (some s.sources.size) (s.record (.formula f)) ts
    return (.formula g, s)
  | n => do return (← n.transform id, s)

/-! ## Section 3: Normal forms -/

/-- The clauses of a formula in conjunctive normal form. -/
def clauses : Node → Except NodeError (List Clause)
  | .formula f =>
    match f.clauses? with
    | .ok cs => .ok cs
    | .error d => .error (.kind .literalFormula (.formula d))
  | n => .error (.kind .literalFormula n)

/-- A node after each stage on its way to clauses.  Only formulas change after the first one. -/
def stages (s : Names) : Node → Except NodeError (List Node × Names)
  | .formula f =>
    let (r, s) := f.normalStages s
    .ok ([r.standardised, r.eliminated, r.negationNormal, r.skolemised, r.matrix,
      r.distributed].map .formula, s)
  | n => do
    let (r, s) ← n.standardise s
    return (List.replicate 6 r.result, s)

/-- The formula that a node is, where it is to be brought into normal form. -/
def sentence : Node → Except NodeError Formula
  | .formula f => .ok f
  | .term t => .error (.kind .literalFormula (.term t))
  | .literal l => .error (.kind .literalFormula (.literal l))
  | _ => .error .unsupported

/-- Conjunctive normal form of a node, which should be a formula. -/
def toCnf (s : Names) (n : Node) : Except NodeError (Cnf × Names) := do
  let f ← n.sentence
  return f.toCnf s

/-! ## Section 4: Elements -/

/-- The number of elements of a clause, a clause set or a text. -/
def count : Node → Except NodeError Nat
  | .clause c => .ok c.size
  | .cnf c => .ok c.clauses.length
  | .scalar (.ident (.name s)) => .ok s.length
  | _ => .error .notCollection

/-- The literals that are met when a node is gone through: those of a clause.  Elements of other
    nodes are no literals. -/
def elements (n : Node) : Except NodeError (List Literal) := do
  match n, ← n.count with
  | .clause c, _ => return c.literals
  | _, 0 => return []
  | _, _ => throw .unsupported

end Node

end Clausal
