import Clausal.Format.Formula

/-!
# Origins of fresh names

Standardised variables and Skolem symbols are explained by the name they stand for and by what they
were introduced for, most often a formula.

## Main definitions

- `Node.freshTerms`: the terms with fresh names in clauses, literals and atoms
- `Term.explain`: the explanation of such a term
-/

namespace Clausal

/-- Whether a term is a standardised variable or an application of a Skolem symbol. -/
def Term.isFresh : Term → Bool
  | .var (.standard _ _ _) => true
  | .app (.skolem _ _ _) _ => true
  | _ => false

/-- The terms with fresh names in atoms, each once and in order of first appearance. -/
def freshTerms (as : List Atom) : List Term :=
  dedup ((as.flatMap fun a => a.args.flatMap Term.subterms).filter Term.isFresh)

/-- The atoms of a clause, a literal or an atom. -/
def Node.atoms : Node → Except NodeError (List Atom)
  | .clause c => .ok (c.literals.map Literal.atom)
  | .literal l => .ok [l.atom]
  | .formula (.atom a) => .ok [a]
  | n => .error (.kind .clauseLiteralOrPredicate n)

/-- The terms with fresh names in several nodes. -/
def Node.freshTerms (ns : List Node) : Except NodeError (List Term) := do
  let atoms ← ns.mapM Node.atoms
  return Clausal.freshTerms atoms.flatten

/-- What a fresh name was introduced for, in words; null stands for nothing. -/
def originText (names : Names) (i : Ident) : Labelling String :=
  match names.source? i with
  | none | some (.scalar (.ident .null)) => return ""
  | some n => do
    let text ← n.format
    return " from " ++ text

/-- The explanation of a term with a fresh name; others have none. -/
def Term.explain? (names : Names) : Term → Option (Labelling String)
  | .var (.standard n of origin) => some do
    let source ← originText names (.standard n of origin)
    return "a standardisation of " ++ of.text ++ source
  | .app (.skolem n of origin) _ => some do
    let name ← labelOf of
    let source ← originText names (.skolem n of origin)
    return "some " ++ name ++ source
  | _ => none

/-- The complaint about a node that is no term with a fresh name. -/
def notFreshMessage (n : Node) : String :=
  n.text ++ " is not a standardised variable or Skolem function"

end Clausal
