import Clausal.Resolution.Strategy

/-!
# The agenda of a refutation

An agenda holds the clauses known so far and the resolutions that are still to be done.  Whenever a
clause is added, its resolutions with all known clauses are queued, as far as the strategy accepts
them.  The most urgent resolution is taken first, and of several the one that was queued first.

## Main definitions

- `Agenda`, `Agenda.start`, `Agenda.pair`, `Agenda.extend`, `Agenda.next?`
-/

namespace Clausal

/-- The resolutions of several pairs of clauses, in order. -/
def resolvePairs (s : Names) (ps : List (Clause × Clause)) : List Resolution × Names :=
  s.flatMap (fun s p => p.1.resolve s p.2) ps

/-- Every element with itself and with every later one. -/
def pairings {α : Type} : List α → List (α × α)
  | [] => []
  | a :: l => (a :: l).map (a, ·) ++ pairings l

/-- The resolution to be done first of the given ones, and the others.  A resolution comes before the
    best one after it unless that one outranks it. -/
def Strategy.takeUrgent? (strategy : Strategy) :
    List Resolution → Option (Resolution × List Resolution)
  | [] => none
  | r :: rs =>
    match takeUrgent? strategy rs with
    | none => some (r, [])
    | some (best, rest) =>
      if strategy.outranks best r then some (best, r :: rest) else some (r, rs)

/-- The known clauses, oldest first, and the resolutions to be done, in the order in which they
    were queued. -/
structure Agenda where
  clauses : List Clause
  pending : List Resolution := []
  deriving Inhabited

namespace Agenda

/-- An agenda with known clauses and nothing to do. -/
def ofClauses (cs : List Clause) : Agenda :=
  ⟨dedup cs, []⟩

/-- Whether a clause is known. -/
def contains (a : Agenda) (c : Clause) : Bool :=
  a.clauses.contains c

/-- Whether nothing is left to do. -/
def isEmpty (a : Agenda) : Bool :=
  a.pending.isEmpty

/-- Queue the resolutions of pairs of clauses. -/
def queue (strategy : Strategy) (s : Names) (ps : List (Clause × Clause)) (a : Agenda) :
    Agenda × Names :=
  let (rs, s) := resolvePairs s ps
  ({ a with pending := a.pending ++ rs.filter strategy.accepts }, s)

/-- Add clauses and queue the resolutions of all known clauses with each other. -/
def start (strategy : Strategy) (s : Names) (new : List Clause) (a : Agenda) : Agenda × Names :=
  let a := { a with clauses := dedup (a.clauses ++ new) }
  a.queue strategy s (pairings a.clauses)

/-- Add a clause that is not known and queue its resolutions with all known clauses, itself
    included. -/
def extend (strategy : Strategy) (s : Names) (c : Clause) (a : Agenda) : Agenda × Names :=
  let a := { a with clauses := a.clauses ++ [c] }
  a.queue strategy s (a.clauses.map (c, ·))

/-- Add a clause unless it is known; also answers whether it was new. -/
def add (strategy : Strategy) (s : Names) (c : Clause) (a : Agenda) : Bool × Agenda × Names :=
  if a.contains c then (false, a, s) else (true, a.extend strategy s c)

/-- The resolution to be done next and the agenda without it. -/
def next? (strategy : Strategy) (a : Agenda) : Option (Resolution × Agenda) :=
  (strategy.takeUrgent? a.pending).map fun (r, ps) => (r, { a with pending := ps })

end Agenda

end Clausal
