/-!
# Bounded execution

A search is run step by step.  The caller grants a number of steps; what is left of it tells
whether the search came to its end.

## Main definitions

- `advance`: run a state until it is done
-/

namespace Clausal

/-- Run a state until it is done, for at most the given number of steps; also answers how many of
    them are left. -/
def advance {σ : Type} (done : σ → Bool) (next : σ → σ) : Nat → σ → Nat × σ
  | 0, s => (0, s)
  | n + 1, s => if done s then (n + 1, s) else advance done next n (next s)

/-- Why a question is not answered. -/
inductive QueryError where
  /-- The answer is asked for before it is known. -/
  | notComplete
  /-- Execution is asked for a second time. -/
  | alreadyBegun
  /-- The steps that were granted are used up. -/
  | cancelled
  /-- A negative answer is to be explained. -/
  | negative
  /-- A step is asked for after the end. -/
  | alreadyComplete
  deriving DecidableEq, Repr, Inhabited

/-- The message of an error. -/
def QueryError.message : QueryError → String
  | .notComplete => "Query is not yet complete"
  | .alreadyBegun => "Query execution has already begun via a prior execute invocation"
  | .cancelled => "Query was cancelled"
  | .negative => "Explanation of a negative result (which could be massive) is not supported"
  | .alreadyComplete => "Query is already complete"

/-- The answer to a question, once it is known. -/
def answerOf : Option Bool → Except QueryError Bool
  | some b => .ok b
  | none => .error .notComplete

/-- Demand a positive answer, the only one that is explained. -/
def explainable : Option Bool → Except QueryError Unit
  | some true => .ok ()
  | some false => .error .negative
  | none => .error .notComplete

end Clausal
