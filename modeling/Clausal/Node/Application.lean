import Clausal.Chaining.Store
import Clausal.Node.Unification

/-!
# Nodes and stores of definite clauses

Nodes are added to a store if they are definite clauses or can be made into one.  The clauses of a
store are applied to a goal that should be an atom, under bindings of any kind.

## Main definitions

- `ClauseStore.addNode`
- `ClauseStore.applyTo`
-/

namespace Clausal

/-- Add a definite clause, or the definite clause of a literal; also answers whether it was new. -/
def ClauseStore.addNode (t : ClauseStore) (n : Node) : Except NodeError (Bool × ClauseStore) := do
  let c := Clause.ofList (← Node.literals [n])
  match DefiniteClause.ofClause? c with
  | some d => return t.add d
  | none => throw (.notDefinite ⟨c⟩)

/-- A renamed clause whose head was unified with a goal, and the bindings that do it. -/
structure NodeApplication where
  clause : DefiniteClause
  bindings : Bindings

/-- Try to apply a clause to a goal under bindings, after the given applications. -/
def DefiniteClause.tryOn (goal : Atom) (b : Bindings) (found : List NodeApplication × Names)
    (d : DefiniteClause) : Except NodeError (List NodeApplication × Names) := do
  let (d, s) := d.renameApart found.2
  match ← b.unify (.formula (.atom d.head)) (.formula (.atom goal)) with
  | none => return (found.1, s)
  | some b => return (found.1 ++ [⟨d, b⟩], s)

/-- The ways to apply a clause of the store to a goal under bindings.  A term has a symbol as an
    atom does, but no clause is for it. -/
def ClauseStore.applyTo (t : ClauseStore) (s : Names) (goal : Node) (b : Bindings) :
    Except NodeError (List NodeApplication × Names) :=
  match goal, b.plain? with
  | .formula (.atom g), some σ =>
    let (as, s) := t.applications s g σ
    .ok (as.map fun a => ⟨a.clause, .ofSubstitution a.unifier⟩, s)
  | .formula (.atom g), none => (t.candidates g).foldlM (DefiniteClause.tryOn g b) ([], s)
  | .term _, _ => .ok ([], s)
  | _, _ => .error .unsupported

end Clausal
