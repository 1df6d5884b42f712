import Clausal.Advance
import Clausal.Ancestry
import Clausal.Association
import Clausal.Chaining.Store
import Clausal.Matching

/-!
# Forward chaining

Rules are applied to known facts until the goal is inferred or nothing new can be.  After the first
round only rules are tried that have something to do with the facts of the last one.  Facts that
are instances of known ones are not new.

## Main definitions

- `Inference`: a rule applied to facts
- `ForwardQuery`, `ForwardQuery.start`, `ForwardQuery.execute`
- `ForwardQuery.useful`: the inferred facts that led to the goal
-/

namespace Clausal

/-- A rule, the facts that its body was matched with so far, and the unifier. -/
structure Inference where
  rule : DefiniteClause
  known : List Atom := []
  unifier : Substitution := .empty

namespace Inference

/-- What is inferred. -/
def conclusion (i : Inference) : Atom :=
  i.unifier.applyAtom i.rule.head

/-- The plain text of an inference. -/
def text (i : Inference) : String :=
  let known := match i.known with
    | [a] => "(" ++ a.text ++ ",)"
    | as => "(" ++ ", ".intercalate (as.map Atom.text) ++ ")"
  "ForwardChainingProofStep(" ++ i.rule.clause.text ++ ", " ++ known ++ ", " ++ i.unifier.text ++
    ")"

end Inference

/-! ## Section 1: One rule -/

namespace ClauseStore

/-- The atoms that are stated as facts. -/
def facts (t : ClauseStore) : List Atom :=
  (t.toList.filter DefiniteClause.isFact).map DefiniteClause.head

/-- The rules that are no facts. -/
def rules (t : ClauseStore) : List DefiniteClause :=
  t.toList.filter fun d => !d.isFact

/-- The facts among the ways to apply a clause to a goal. -/
def factApplications (t : ClauseStore) (s : Names) (goal : Atom) (σ : Substitution) :
    List Application × Names :=
  let (as, s) := t.applications s goal σ
  (as.filter (·.clause.isFact), s)

/-- Whether an atom is an instance of a fact. -/
def states (t : ClauseStore) (a : Atom) : Bool :=
  (t.candidates a).any fun d => d.isFact && (d.head.match? .empty a).isSome

/-- All ways to match what is left of a rule's body with facts. -/
def matchBody (t : ClauseStore) : List Atom → Names → Inference → List Inference × Names
  | [], s, i => ([i], s)
  | a :: as, s, i =>
    let (found, s) := t.factApplications s a i.unifier
    s.flatMap (fun s f => t.matchBody as s
      { i with known := i.known ++ [f.clause.head], unifier := f.unifier }) found

/-- All ways to apply a rule to facts. -/
def inferences (t : ClauseStore) (s : Names) (rule : DefiniteClause) : List Inference × Names :=
  t.matchBody rule.body s { rule }

end ClauseStore

/-- Renamed copies of the rules with a body atom that unifies with one of the given facts. -/
def relevantRules (new : List Atom) (s : Names) (rules : List DefiniteClause) :
    List DefiniteClause × Names :=
  s.flatMap (fun s d =>
    let (d, s) := d.renameApart s
    (if d.body.any fun a => new.any fun f => (a.unify .empty f).isSome then [d] else [], s)) rules

/-! ## Section 2: Search -/

/-- What is to be done next. -/
inductive ForwardTask where
  /-- Nothing has been done yet. -/
  | initial
  /-- Begin a round with the facts that are new. -/
  | round (new : List Atom)
  /-- Apply what is left of a round's rules; facts inferred in this round. -/
  | rules (left : List DefiniteClause) (new : List Atom)

/-- A question answered by forward chaining. -/
structure ForwardQuery where
  goal : Atom
  store : ClauseStore
  /-- How each inferred fact was inferred first. -/
  proof : List (Atom × Inference) := []
  /-- The fact that answers the question. -/
  proven : Option Atom := none
  task : ForwardTask := .initial
  result : Option Bool := none
  begun : Bool := false

namespace ForwardQuery

/-- The question whether an instance of a goal follows from the clauses of a store. -/
def start (store : ClauseStore) (goal : Atom) : ForwardQuery where
  goal := goal
  store := .ofList store.toList

/-- Whether the search has come to its end. -/
def isComplete (q : ForwardQuery) : Bool :=
  q.result.isSome

/-- A positive answer. -/
def succeed (q : ForwardQuery) (a : Atom) : ForwardQuery :=
  { q with proven := some a, result := some true }

/-- Begin a round, unless there are no new facts. -/
def enterRound (q : ForwardQuery) (new : List Atom) : ForwardQuery :=
  if new.isEmpty then { q with result := some false } else { q with task := .round new }

/-- Go on with a round; at its end the new facts are stored. -/
def enterRules (q : ForwardQuery) (left : List DefiniteClause) (new : List Atom) : ForwardQuery :=
  if left.isEmpty then
    ({ q with store := q.store.addAll (new.map .ofAtom) } : ForwardQuery).enterRound new
  else { q with task := .rules left new }

/-- Look for the goal among the facts, and begin the first round if it is not there. -/
def enter (s : Names) (q : ForwardQuery) : ForwardQuery × Names :=
  let (found, s) := q.store.factApplications s q.goal .empty
  match found with
  | f :: _ => (q.succeed f.clause.head, s)
  | [] => (q.enterRound q.store.facts, s)

/-- Take in what a rule infers, up to the goal; also answers the new facts. -/
def learn (new : List Atom) : List Inference → ForwardQuery → List Atom × ForwardQuery
  | [], q => (new, q)
  | i :: is, q =>
    let a := i.conclusion
    if q.store.states a || new.any fun f => (f.match? .empty a).isSome then q.learn new is
    else
      let q := { q with proof := insertKey a i q.proof }
      if (a.unify .empty q.goal).isSome then (new, q.succeed a)
      else q.learn (new ++ [a]) is

/-- One step of the search, which stands still at its end. -/
def next (x : ForwardQuery × Names) : ForwardQuery × Names :=
  let (q, s) := x
  match q.task with
  | .initial => (q, s)
  | .round new =>
    let (rules, s) := relevantRules new s q.store.rules
    (q.enterRules rules [], s)
  | .rules [] _ => (q, s)
  | .rules (rule :: left) new =>
    let (is, s) := q.store.inferences s rule
    let (new, q) := q.learn new is
    if q.isComplete then (q, s) else (q.enterRules left new, s)

/-- Search to the end, which is allowed once and for at most `n` steps. -/
def execute (n : Nat) (s : Names) (q : ForwardQuery) :
    Except QueryError Bool × ForwardQuery × Names :=
  if q.begun then (.error .alreadyBegun, q, s)
  else
    let start := ({ q with begun := true } : ForwardQuery).enter s
    let (q, s) := (advance (fun x => x.1.isComplete) next n start).2
    match q.result with
    | some b => (.ok b, q, s)
    | none => (.error .cancelled, q, s)

/-! ## Section 3: What led to the goal -/

/-- Whether an atom was inferred. -/
def isInferred (q : ForwardQuery) (a : Atom) : Bool :=
  (findKey a q.proof).isSome

/-- The inferred facts that an atom was inferred from. -/
def inferredParents (q : ForwardQuery) (a : Atom) : List Atom :=
  match findKey a q.proof with
  | none => []
  | some i => i.known.reverse.filter q.isInferred

/-- The inferred facts that led to the goal, oldest first. -/
def useful (q : ForwardQuery) : Except QueryError (List Atom) := do
  explainable q.result
  return ancestry q.inferredParents q.proof.length (q.proven.toList.filter q.isInferred)

end ForwardQuery

end Clausal
