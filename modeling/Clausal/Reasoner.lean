import Clausal.Chaining.Backward
import Clausal.Chaining.Base
import Clausal.Chaining.Forward
import Clausal.Resolution.Base

/-!
# Reasoners

A reasoner is a knowledge base with the method that answers questions about it: resolution of
clauses, or forward or backward chaining of definite clauses.  Resolution needs a strategy, which
also keeps the clauses; without one nothing can be told or asked.

## Main definitions

- `Method`, `Reasoner`, `Question`
- `entails`: whether formulas entail another one
-/

namespace Clausal

/-! ## Section 1: Methods -/

/-- The ways to answer questions. -/
inductive Method where
  | resolution
  | forwardChaining
  | backwardChaining
  deriving DecidableEq, Repr, Inhabited

namespace Method

/-- The name of a method. -/
def name : Method → String
  | .resolution => "resolution"
  | .forwardChaining => "forward_chaining"
  | .backwardChaining => "backward_chaining"

/-- All methods. -/
def all : List Method :=
  [.resolution, .forwardChaining, .backwardChaining]

/-- The method of a name. -/
def ofName? (s : String) : Option Method :=
  all.find? fun m => m.name = s

/-- The complaint about a name without a method. -/
def unknownMessage (s : String) : String :=
  "Unknown method '" ++ s ++ "'. Available: ["
    ++ ", ".intercalate (all.map fun m => "'" ++ m.name ++ "'") ++ "]"

end Method

/-! ## Section 2: Reasoners and questions -/

/-- A knowledge base with the method that answers questions about it. -/
inductive Reasoner where
  | resolution (base : ClauseBase)
  | forward (base : RuleBase)
  | backward (base : RuleBase)
  /-- Resolution without a strategy. -/
  | idle

/-- A question on the way to its answer. -/
inductive Question where
  | refutation (q : Refutation)
  | forward (q : ForwardQuery)
  | backward (q : BackwardQuery)

/-- Why there is no answer. -/
inductive InferenceError where
  /-- A node is refused, as something told or, by resolution, as a question. -/
  | node (e : NodeError)
  /-- Chaining answers questions about atoms only. -/
  | notAtom (n : Node)
  /-- The search gives no answer. -/
  | query (e : QueryError)

/-- The message of the complaint about a question that is no atom. -/
def notAtomMessage (n : Node) : String :=
  "Expected a single predicate as query, got " ++ n.bareText

namespace Reasoner

/-- A reasoner that has been told nothing. -/
def create (strategy : Option Strategy) : Method → Reasoner
  | .resolution => strategy.elim .idle fun s => .resolution { strategy := s }
  | .forwardChaining => .forward {}
  | .backwardChaining => .backward {}

/-- The clauses that a reasoner has been told. -/
def clauses : Reasoner → Except NodeError (List Clause)
  | .resolution b => .ok b.clauses
  | .forward b | .backward b => .ok (b.store.toList.map DefiniteClause.clause)
  | .idle => .error .unsupported

/-- The store of definite clauses, which is empty for resolution. -/
def store : Reasoner → ClauseStore
  | .resolution _ | .idle => .empty
  | .forward b | .backward b => b.store

instance : KnowledgeBase Reasoner where
  tell n := fun (r, s) =>
    match r with
    | .resolution b =>
      let (e, b, s) := (KnowledgeBase.tell n : Telling ClauseBase Unit) (b, s)
      (e, .resolution b, s)
    | .forward b =>
      let (e, b, s) := (KnowledgeBase.tell n : Telling RuleBase Unit) (b, s)
      (e, .forward b, s)
    | .backward b =>
      let (e, b, s) := (KnowledgeBase.tell n : Telling RuleBase Unit) (b, s)
      (e, .backward b, s)
    | .idle => ((n.toCnf s).bind fun _ => .error .unsupported, .idle, s)

/-- Ask a question. -/
def query (r : Reasoner) (s : Names) (n : Node) : Except InferenceError (Question × Names) :=
  match r with
  | .resolution b =>
    match n.asFormula with
    | .error e => .error (.node e)
    | .ok f =>
      let (q, s) := b.query s f
      .ok (.refutation q, s)
  | .forward b =>
    match n with
    | .formula (.atom a) => .ok (.forward (.start b.store a), s)
    | n => .error (.notAtom n)
  | .backward _ =>
    match n with
    | .formula (.atom a) => .ok (.backward { goal := a }, s)
    | n => .error (.notAtom n)
  | .idle =>
    match n.asFormula with
    | .error e => .error (.node e)
    | .ok _ => .error (.node .unsupported)

end Reasoner

namespace Question

/-- The answer, once it is known. -/
def result : Question → Option Bool
  | .refutation q => q.result
  | .forward q => q.result
  | .backward q => q.result

/-- Whether the answer is known. -/
def isComplete (q : Question) : Bool :=
  q.result.isSome

/-- Search for the answer to the end, which is allowed once and for at most `n` steps.  Backward
    chaining looks at what the reasoner knows by now, the others at what it knew when the question
    was asked. -/
def execute (n : Nat) (r : Reasoner) (s : Names) :
    Question → Except QueryError Bool × Question × Names
  | .refutation q =>
    let (b, q, s) := q.execute n s
    (b, .refutation q, s)
  | .forward q =>
    let (b, q, s) := q.execute n s
    (b, .forward q, s)
  | .backward q =>
    let (b, q, s) := q.execute n r.store s
    (b, .backward q, s)

end Question

/-! ## Section 3: Entailment -/

/-- Ask a reasoner and search for the answer, for at most `n` steps. -/
def Reasoner.ask (n : Nat) (r : Reasoner) (s : Names) (query : Node) :
    Except InferenceError Bool × Names :=
  match r.query s query with
  | .error e => (.error e, s)
  | .ok (q, s) =>
    match q.execute n r s with
    | (.ok b, _, s) => (.ok b, s)
    | (.error e, _, s) => (.error (.query e), s)

/-- Whether axioms entail a query, searching for at most `n` steps. -/
def entails (n : Nat) (strategy : Option Strategy) (method : Method) (axioms : List Node)
    (query : Node) (s : Names) : Except InferenceError Bool :=
  match (Telling.tellAll axioms : Telling Reasoner Unit) (.create strategy method, s) with
  | (.error e, _) => .error (.node e)
  | (.ok (), r, s) => (r.ask n s query).1

end Clausal
