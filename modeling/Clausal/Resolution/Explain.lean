import Clausal.Format.Derivation
import Clausal.Resolution.Refutation

/-!
# Explanations of refutations

A refutation is explained by its derived clauses, the oldest first: each with its parents, the
unifier, and where the fresh names in it come from.
-/

namespace Clausal

namespace Refutation

/-- Where a parent of a derived clause comes from. -/
def sourceText (q : Refutation) (found : List Clause) (c : Clause) : String :=
  if found.contains c then "#" ++ stepNumber (found.findIdx (· == c))
  else
    match q.initialSource c with
    | .negatedQuery => " ¬Q"
    | _ => " KB"

/-- The lines about a derived clause, which has the given place among the derived ones. -/
def explainStep (q : Refutation) (names : Names) (found : List Clause) (place : Nat)
    (r : Resolution) : Labelling (List String) := do
  let bindings ← r.unifier.format
  let clause ← r.resolvent.format
  let first ← r.first.format
  let second ← r.second.format
  let atoms := [r.resolvent, r.first, r.second].flatMap fun c => c.literals.map Literal.atom
  let origins ← explainTerms names "     ..where " (freshTerms atoms)
  return ["#" ++ stepNumber place ++ ": " ++ clause,
    "     From " ++ q.sourceText found r.first ++ ": " ++ first,
    "     And  " ++ q.sourceText found r.second ++ ": " ++ second,
    "     Using   : \x7b" ++ bindings ++ "\x7d"] ++ origins ++ [""]

/-- The explanation of a contradiction that was found. -/
def explain (q : Refutation) (names : Names) : Except QueryError (Labelling String) := do
  let found ← q.discovered
  let steps := (found.filterMap q.find?).zipIdx
  return do
    let lines ← steps.mapM fun (r, i) => q.explainStep names found i r
    return joinLines lines.flatten

end Refutation

end Clausal
