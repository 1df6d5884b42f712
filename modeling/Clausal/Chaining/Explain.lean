import Clausal.Chaining.Backward
import Clausal.Chaining.Forward
import Clausal.Format.Derivation

/-!
# Explanations of chaining

Forward chaining is explained by the inferred facts that led to the goal, backward chaining by the
clauses that a proof uses.
-/

namespace Clausal

/-! ## Section 1: Forward chaining -/

namespace ForwardQuery

/-- Where a fact that was used comes from. -/
def sourceText (used : List Atom) (a : Atom) : String :=
  if used.contains a then "#" ++ stepNumber (used.findIdx (· == a)) else " KB"

/-- The lines about an inferred fact, which has the given place among the useful ones. -/
def explainStep (names : Names) (used : List Atom) (place : Nat) (a : Atom) (i : Inference) :
    Labelling (List String) := do
  let fact ← a.format
  let rule ← i.rule.format
  let known ← i.known.mapM fun k => do
    let text ← k.format
    return "     From " ++ sourceText used k ++ ": " ++ text
  let bindings ← i.unifier.format
  let origins ← explainTerms names "     ..where " (freshTerms (i.known ++ [a]))
  return ["#" ++ stepNumber place ++ ": " ++ fact, "     By Rule : " ++ rule] ++ known
    ++ ["     Using   : \x7b" ++ bindings ++ "\x7d"] ++ origins ++ [""]

/-- The explanation of a positive answer. -/
def explain (q : ForwardQuery) (names : Names) : Except QueryError (Labelling String) := do
  let used ← q.useful
  let steps := used.filterMap fun a => (findKey a q.proof).map fun i => (a, i)
  return do
    let lines ← steps.zipIdx.mapM fun ((a, i), place) => explainStep names used place a i
    return joinLines lines.flatten

end ForwardQuery

/-! ## Section 2: Backward chaining -/

namespace GoalProof

/-- The number of the step that proves an atom, if there is one. -/
def placeText (atoms : List Atom) (a : Atom) : String :=
  if atoms.contains a then stepNumber (atoms.findIdx (· == a)) else "-1"

/-- The lines about a step of a proof. -/
def explainStep (p : GoalProof) (place : Nat) (a : Atom) (d : DefiniteClause) :
    Labelling (List String) := do
  let atoms := p.steps.map Prod.fst
  let goal ← a.format
  let rule ← d.format
  let premises ← d.body.mapM fun b => do
    let b := p.unifier.applyAtom b
    let text ← b.format
    return "  And Step #" ++ placeText atoms b ++ ": " ++ text
  return ["Step #" ++ stepNumber place ++ ": " ++ goal, "  By Rule: " ++ rule] ++ premises ++ [""]

/-- The explanation of a proof. -/
def explain (p : GoalProof) (names : Names) : Labelling String := do
  let lines ← p.steps.zipIdx.mapM fun ((a, d), place) => p.explainStep place a d
  let bindings ← p.unifier.format
  let fresh := freshTerms (p.steps.map Prod.fst)
  let origins ← explainTerms names "  " fresh
  let origins := if fresh.isEmpty then [] else ["", "Where:"] ++ origins
  return joinLines (lines.flatten ++ ["Using: \x7b" ++ bindings ++ "\x7d"] ++ origins) ++ "\n"

end GoalProof

/-- The explanation of the proof that execution found. -/
def BackwardQuery.explain (q : BackwardQuery) (names : Names) :
    Except QueryError (Labelling String) := do
  explainable q.result
  return (q.proof.getD {}).explain names

end Clausal
