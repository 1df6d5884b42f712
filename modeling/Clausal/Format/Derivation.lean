import Clausal.Format.Origin
import Clausal.Substitution

/-!
# Pieces of explanations

Explanations of derivations number their steps, list bindings and say where fresh names come from.
-/

namespace Clausal

/-- The number of a step, with at least two digits. -/
def stepNumber (n : Nat) : String :=
  if n < 10 then "0" ++ toString n else toString n

/-- The bindings of a substitution: `X/a, Y/b`. -/
def Substitution.format (σ : Substitution) : Labelling String := do
  let texts ← σ.bindings.mapM fun b => do
    let name ← labelOf b.1
    let term ← b.2.format
    return name ++ "/" ++ term
  return ", ".intercalate texts

/-- A line for each of the given terms with fresh names, saying what it is. -/
def explainTerms (names : Names) (indent : String) (ts : List Term) : Labelling (List String) :=
  ts.mapM fun t => do
    let text ← t.format
    let origin ← (t.explain? names).getD (return "")
    return indent ++ text ++ " is " ++ origin

/-- The lines of a text. -/
def joinLines (lines : List String) : String :=
  "\n".intercalate lines

end Clausal
