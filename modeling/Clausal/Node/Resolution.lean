import Clausal.Node.Operation
import Clausal.Resolution.Agenda

/-!
# Resolution of nodes

Nodes that should be clauses are resolved with each other and queued on an agenda.  A node that is
no clause can be known, but it has no resolutions, and asking for them is an error.

## Main definitions

- `Node.resolve`
- `NodeAgenda`, `NodeAgenda.start`, `NodeAgenda.add`
-/

namespace Clausal

/-- All resolutions of two nodes.  Both need variables to tell whether they share some, and then
    only a clause can be renamed apart and only a clause has literals to resolve on. -/
def Node.resolve (s : Names) : Node → Node → Except NodeError (List Resolution × Names)
  | .clause c, .clause d => .ok (c.resolve s d)
  | m, n =>
    match m.vars?, n.vars?, m, n with
    | some xs, some ys, .clause c, _ =>
      if xs.any ys.contains then .error .unsupported
      else if c.isEmpty then .ok ([], s)
      else .error .notCollection
    | some _, some _, _, .clause _ => .error .notCollection
    | some xs, some ys, _, _ =>
      .error (if xs.any ys.contains then .unsupported else .notCollection)
    | _, _, _, _ => .error .unsupported

/-- The first of the given resolutions, one after the other, as many as the number says. -/
def Strategy.takeAll (strategy : Strategy) : Nat → List Resolution → List Resolution
  | 0, _ => []
  | n + 1, rs =>
    match strategy.takeUrgent? rs with
    | none => []
    | some (r, rs) => r :: takeAll strategy n rs

/-- Known nodes, oldest first, and the resolutions to be done, in the order in which they were
    queued. -/
structure NodeAgenda where
  known : List Node
  pending : List Resolution := []
  deriving Inhabited

/-- Computations that queue resolutions, with fresh names at hand.  What was known and queued before
    an error stays. -/
abbrev Queueing : Type → Type :=
  ExceptT NodeError (StateM (NodeAgenda × Names))

namespace NodeAgenda

/-- An agenda with known nodes and nothing to do. -/
def ofNodes (ns : List Node) : NodeAgenda :=
  ⟨dedup ns, []⟩

/-- Whether nothing is left to do. -/
def isEmpty (a : NodeAgenda) : Bool :=
  a.pending.isEmpty

/-- The resolution to be done next and the agenda without it. -/
def next? (strategy : Strategy) (a : NodeAgenda) : Option (Resolution × NodeAgenda) :=
  (strategy.takeUrgent? a.pending).map fun (r, ps) => (r, { a with pending := ps })

/-- All resolutions to be done, in the order in which they are done, and the agenda without
    them. -/
def drain (strategy : Strategy) (a : NodeAgenda) : List Resolution × NodeAgenda :=
  (strategy.takeAll a.pending.length a.pending, { a with pending := [] })

/-- Queue the resolutions of a pair of nodes. -/
def queuePair (strategy : Strategy) (p : Node × Node) : Queueing Unit := do
  let (a, s) ← get
  let (rs, s) ← p.1.resolve s p.2
  set ({ a with pending := a.pending ++ rs.filter strategy.accepts }, s)

/-- Add nodes and queue the resolutions of all known nodes with each other. -/
def start (strategy : Strategy) (new : List Node) : Queueing Unit := do
  let (a, s) ← get
  let known := dedup (a.known ++ new)
  set ({ a with known }, s)
  (pairings known).forM (queuePair strategy)

/-- Add a node unless it is known, and queue its resolutions with all known nodes, itself
    included; also answers whether it was new. -/
def add (strategy : Strategy) (n : Node) : Queueing Bool := do
  let (a, s) ← get
  if a.known.contains n then return false
  let known := a.known ++ [n]
  set ({ a with known }, s)
  known.forM fun m => queuePair strategy (n, m)
  return true

end NodeAgenda

end Clausal
