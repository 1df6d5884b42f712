import Clausal.Advance
import Clausal.Ancestry
import Clausal.Normal.Cnf
import Clausal.Resolution.Agenda

/-!
# Refutations

To decide whether clauses entail a formula, its negation is added to them and a contradiction, the
empty clause, is looked for.  Each step takes one resolution from the agenda; a new resolvent is
recorded and becomes a known clause.  If nothing is left to do, there is no contradiction.

## Main definitions

- `Refutation`, `Refutation.start`, `Refutation.step`, `Refutation.execute`
- `Refutation.discovered`: the clauses that led to the contradiction
- `Refutation.graph`: how they are derived from each other
-/

namespace Clausal

/-- A search for a contradiction. -/
structure Refutation where
  strategy : Strategy
  /-- The clauses of the negated formula. -/
  negated : Cnf
  /-- What is known and what is to be done. -/
  agenda : Agenda
  /-- The resolutions with new resolvents, in order. -/
  steps : List Resolution := []
  /-- Whether there is a contradiction, once this is known. -/
  result : Option Bool := none
  /-- Whether execution to the end has been asked for. -/
  begun : Bool := false

namespace Refutation

/-! ## Section 1: Search -/

/-- Whether the search has come to its end. -/
def isComplete (q : Refutation) : Bool :=
  q.result.isSome

/-- End the search without a contradiction if nothing is left to do. -/
def settle (q : Refutation) : Refutation :=
  if q.agenda.isEmpty then { q with result := some false } else q

/-- Look for a contradiction between clauses and the negation of a formula. -/
def start (strategy : Strategy) (clauses : List Clause) (s : Names) (query : Formula) :
    Refutation × Names :=
  let (negated, s) := (Formula.not query).toCnf s
  let (agenda, s) := (Agenda.ofClauses clauses).start strategy s negated.clauses
  (({ strategy, negated, agenda } : Refutation).settle, s)

/-- The recorded resolution with the given resolvent. -/
def find? (q : Refutation) (c : Clause) : Option Resolution :=
  q.steps.find? fun r => r.resolvent == c

/-- Take in a resolution.  A resolvent that is recorded or known already changes nothing. -/
def record (s : Names) (r : Resolution) (q : Refutation) : Refutation × Names :=
  if (q.find? r.resolvent).isSome || q.agenda.contains r.resolvent then (q.settle, s)
  else
    let q := { q with steps := q.steps ++ [r] }
    if r.resolvent.isEmpty then ({ q with result := some true }, s)
    else
      let (agenda, s) := q.agenda.extend q.strategy s r.resolvent
      (({ q with agenda } : Refutation).settle, s)

/-- One step of the search; also answers the resolution that was done. -/
def step (s : Names) (q : Refutation) : Except QueryError (Resolution × Refutation × Names) :=
  if q.isComplete then .error .alreadyComplete
  else
    match q.agenda.next? q.strategy with
    | none => .error .alreadyComplete
    | some (r, agenda) => .ok (r, ({ q with agenda } : Refutation).record s r)

/-- Steps of the search up to its end, at least one and at most `n + 1`; also answers the
    resolutions that were done. -/
def stepMany (s : Names) (q : Refutation) :
    Nat → Except QueryError (List Resolution × Refutation × Names)
  | 0 => do
    let (r, q, s) ← q.step s
    return ([r], q, s)
  | n + 1 => do
    let (r, q, s) ← q.step s
    if q.isComplete then return ([r], q, s)
    let (rs, q, s) ← q.stepMany s n
    return (r :: rs, q, s)

/-- One step of the search, which stands still at its end. -/
def next (x : Refutation × Names) : Refutation × Names :=
  match x.1.step x.2 with
  | .ok (_, y) => y
  | .error _ => x

/-- Search for at most `n` steps. -/
def run (n : Nat) (s : Names) (q : Refutation) : Refutation × Names :=
  (advance (fun x => x.1.isComplete) next n (q, s)).2

/-- Search to the end, which is allowed once and for at most `n` steps. -/
def execute (n : Nat) (s : Names) (q : Refutation) : Except QueryError Bool × Refutation × Names :=
  if q.begun then (.error .alreadyBegun, q, s)
  else
    let (q, s) := ({ q with begun := true } : Refutation).run n s
    match q.result with
    | some b => (.ok b, q, s)
    | none => (.error .cancelled, q, s)

/-! ## Section 2: What led to the contradiction -/

/-- The derived parents of a clause. -/
def derivedParents (q : Refutation) (c : Clause) : List Clause :=
  match q.find? c with
  | none => []
  | some r => [r.second, r.first].filter fun p => (q.find? p).isSome

/-- The derived clauses that led to the contradiction, oldest first. -/
def discovered (q : Refutation) : Except QueryError (List Clause) := do
  explainable q.result
  return ancestry q.derivedParents q.steps.length [.empty]

/-- Where a clause of a refutation comes from. -/
inductive Source where
  | derived
  | negatedQuery
  | given
  deriving DecidableEq, Repr, Inhabited

/-- The name of a source. -/
def Source.name : Source → String
  | .derived => "derived"
  | .negatedQuery => "negated_query"
  | .given => "knowledge_base"

/-- Where a clause that is not derived comes from. -/
def initialSource (q : Refutation) (c : Clause) : Source :=
  if q.negated.clauses.contains c then .negatedQuery else .given

/-- A derivation as a graph: the clauses with their sources, and an edge from each parent to each
    clause derived from it, by their places among the clauses. -/
structure Graph where
  nodes : List (Clause × Source) := []
  edges : List (Nat × Nat × Substitution) := []
  deriving Inhabited

namespace Graph

/-- The place of a clause, which is the number of clauses if it is missing. -/
def indexOf (g : Graph) (c : Clause) : Nat :=
  g.nodes.findIdx fun n => n.1 == c

/-- Add a clause unless it is there. -/
def insert (g : Graph) (c : Clause) (source : Source) : Graph :=
  if g.nodes.any fun n => n.1 == c then g else { g with nodes := g.nodes ++ [(c, source)] }

/-- Add an edge between clauses that are there, unless it is there. -/
def connect (g : Graph) (parent child : Clause) (σ : Substitution) : Graph :=
  let edge := (g.indexOf parent, g.indexOf child, σ)
  if g.edges.any fun e => e.1 = edge.1 && e.2.1 = edge.2.1 then g
  else { g with edges := g.edges ++ [edge] }

/-- The edges grouped by where they start. -/
def grouped (g : Graph) : Graph :=
  { g with edges := (List.range g.nodes.length).flatMap fun i => g.edges.filter (·.1 = i) }

end Graph

/-- The graph of the clauses that led to the contradiction. -/
def graph (q : Refutation) : Except QueryError Graph := do
  let found ← q.discovered
  let addStep (g : Graph) (r : Resolution) : Graph :=
    [r.first, r.second].foldl (fun g p =>
        let source := if found.contains p then .derived else q.initialSource p
        (g.insert p source).connect p r.resolvent r.unifier)
      (g.insert r.resolvent .derived)
  return ((found.filterMap q.find?).foldl addStep {}).grouped

end Refutation

end Clausal
