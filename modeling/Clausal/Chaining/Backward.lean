import Clausal.Advance
import Clausal.Association
import Clausal.Chaining.Store

/-!
# Backward chaining

A goal is proved by a clause whose head unifies with it, after the atoms of its body have been
proved in turn.  Clauses are tried in order, and each in full before the next one, so the proofs
come depth first; there may be infinitely many.

## Main definitions

- `GoalProof`: a unifier and the clause used for each atom
- `ProofSearch`: the branches that are still to be explored
- `ProofSearch.enumerate`: a number of proofs
- `BackwardQuery`, `BackwardQuery.execute`
-/

namespace Clausal

/-- A proof: one unifier for all of it, and the clause used for each atom that was proved. -/
structure GoalProof where
  unifier : Substitution := .empty
  steps : List (Atom × DefiniteClause) := []
  deriving Inhabited

/-- What is left to do on a branch. -/
inductive ProofTask where
  /-- Prove an atom. -/
  | prove (goal : Atom)
  /-- Try a clause for an atom. -/
  | attempt (goal : Atom) (app : Application)
  /-- Note that an atom has been proved by a clause. -/
  | close (goal : Atom) (clause : DefiniteClause)

/-- A partial proof and what is left to do for it. -/
structure Branch where
  tasks : List ProofTask
  proof : GoalProof := {}

/-- Note what has been proved. -/
def closeGoals : List ProofTask → GoalProof → Branch
  | .close goal d :: ts, p =>
    closeGoals ts { p with steps := insertKey (p.unifier.applyAtom goal) d p.steps }
  | ts, p => ⟨ts, p⟩

/-! ## Section 1: Search -/

/-- The branches that are still to be explored, the first of them first. -/
structure ProofSearch where
  store : ClauseStore
  branches : List Branch
  names : Names

/-- The state of a search: a proof, an end, or more to do. -/
inductive ProofSearch.Status where
  | found (proof : GoalProof) (rest : ProofSearch)
  | exhausted
  | unfinished

namespace ProofSearch

/-- Branches for all ways to prove a goal, each followed by the given tasks. -/
def choices (t : ClauseStore) (s : Names) (goal : Atom) (rest : List ProofTask) (p : GoalProof) :
    List Branch × Names :=
  let (as, s) := t.applications s goal p.unifier
  (as.map fun a => ⟨.attempt goal a :: rest, p⟩, s)

/-- The search for proofs of a goal. -/
def start (store : ClauseStore) (s : Names) (goal : Atom) : ProofSearch :=
  let (branches, s) := choices store s goal [] {}
  ⟨store, branches, s⟩

/-- Whether there is a proof, or nothing left to explore. -/
def isSettled (x : ProofSearch) : Bool :=
  match x.branches with
  | [] => true
  | b :: _ => b.tasks.isEmpty

/-- One step of the search: do the first task of the first branch. -/
def next (x : ProofSearch) : ProofSearch :=
  match x.branches with
  | [] => x
  | b :: bs =>
    match b.tasks with
    | [] => x
    | .prove goal :: ts =>
      let (new, s) := choices x.store x.names (b.proof.unifier.applyAtom goal) ts b.proof
      ⟨x.store, new ++ bs, s⟩
    | .attempt goal a :: ts =>
      let tasks := a.clause.body.map .prove ++ .close goal a.clause :: ts
      { x with branches := closeGoals tasks { b.proof with unifier := a.unifier } :: bs }
    | .close goal d :: ts =>
      { x with branches := closeGoals (.close goal d :: ts) b.proof :: bs }

/-- The state of a search. -/
def status (x : ProofSearch) : Status :=
  match x.branches with
  | [] => .exhausted
  | b :: bs => if b.tasks.isEmpty then .found b.proof { x with branches := bs } else .unfinished

/-- Search up to the next proof for at most `n` steps; also answers how many of them are left. -/
def seek (n : Nat) (x : ProofSearch) : Nat × ProofSearch :=
  advance isSettled next n x

end ProofSearch

/-! ## Section 2: Enumeration -/

/-- Why an enumeration stopped. -/
inductive EnumerationEnd where
  /-- As many as were wanted have been found. -/
  | limit
  /-- There are no more. -/
  | exhausted
  /-- The steps that were granted are used up. -/
  | cancelled
  deriving DecidableEq, Repr, Inhabited

/-- What was found, in order, and why there is no more of it. -/
structure Enumeration (α : Type) where
  items : List α := []
  stop : EnumerationEnd
  names : Names

/-- Pick up to `limit` items out of the proofs of a search.  `pick` sees what was found before and
    may pass a proof over.  `n` bounds the number of proofs and `steps` that of search steps; a
    proof takes at least one step. -/
def ProofSearch.enumerate {α : Type} (pick : List α → GoalProof → Option α) :
    Nat → Nat → Nat → List α → ProofSearch → Enumeration α
  | 0, _, _, found, x => ⟨found, .cancelled, x.names⟩
  | n + 1, limit, steps, found, x =>
    if limit ≤ found.length then ⟨found, .limit, x.names⟩
    else
      let (steps, x) := x.seek steps
      match x.status with
      | .exhausted => ⟨found, .exhausted, x.names⟩
      | .unfinished => ⟨found, .cancelled, x.names⟩
      | .found p rest =>
        match pick found p with
        | none => rest.enumerate pick n limit steps found
        | some a => rest.enumerate pick n limit steps (found ++ [a])

/-- A question answered by backward chaining. -/
structure BackwardQuery where
  goal : Atom
  /-- The proof that execution found. -/
  proof : Option GoalProof := none
  result : Option Bool := none
  begun : Bool := false

namespace BackwardQuery

/-- Whether the search has come to its end. -/
def isComplete (q : BackwardQuery) : Bool :=
  q.result.isSome

/-- Search for one proof, which is allowed once and for at most `n` steps. -/
def execute (n : Nat) (t : ClauseStore) (s : Names) (q : BackwardQuery) :
    Except QueryError Bool × BackwardQuery × Names :=
  if q.begun then (.error .alreadyBegun, q, s)
  else
    let q := { q with begun := true }
    let x := ((ProofSearch.start t s q.goal).seek n).2
    match x.status with
    | .found p _ => (.ok true, { q with proof := some p, result := some true }, x.names)
    | .exhausted => (.ok false, { q with result := some false }, x.names)
    | .unfinished => (.error .cancelled, q, x.names)

/-- The first proofs, up to a number of them and of search steps. -/
def proofs (limit n : Nat) (t : ClauseStore) (s : Names) (q : BackwardQuery) :
    Enumeration GoalProof :=
  (ProofSearch.start t s q.goal).enumerate (fun _ p => some p) (n + 2) limit n []

/-- The first distinct values of the goal's variables that proofs give, up to a number of them and
    of search steps. -/
def substitutions (limit n : Nat) (t : ClauseStore) (s : Names) (q : BackwardQuery) :
    Enumeration Substitution :=
  let pick (found : List Substitution) (p : GoalProof) : Option Substitution :=
    let σ := p.unifier.restrict (dedup q.goal.vars)
    if found.contains σ then none else some σ
  (ProofSearch.start t s q.goal).enumerate pick (n + 2) limit n []

end BackwardQuery

end Clausal
