import Clausal.Apart
import Clausal.Unification

/-!
# Stores of definite clauses

Definite clauses are kept in buckets by the symbol of their heads, so that the clauses for a goal
are found without looking at the others.

## Main definitions

- `ClauseStore`, `ClauseStore.add`, `ClauseStore.toList`
- `ClauseStore.applications`: the ways to apply a clause to a goal
-/

namespace Clausal

/-- A renamed clause whose head was unified with a goal, and the unifier. -/
structure Application where
  clause : DefiniteClause
  unifier : Substitution

/-- The way to apply a clause to a goal under a substitution, if there is one.  The clause is
    renamed apart first. -/
def DefiniteClause.applyTo (goal : Atom) (σ : Substitution) (s : Names) (d : DefiniteClause) :
    List Application × Names :=
  let (d, s) := d.renameApart s
  match d.head.unify σ goal with
  | none => ([], s)
  | some τ => ([⟨d, τ⟩], s)

/-- Definite clauses in buckets by the symbol of their heads, both in order of arrival. -/
structure ClauseStore where
  buckets : List (Ident × List DefiniteClause) := []

namespace ClauseStore

/-- The store without clauses. -/
def empty : ClauseStore := {}

instance : Inhabited ClauseStore := ⟨empty⟩

/-- The clauses, bucket by bucket. -/
def toList (t : ClauseStore) : List DefiniteClause :=
  t.buckets.flatMap Prod.snd

/-- The number of clauses. -/
def size (t : ClauseStore) : Nat :=
  t.toList.length

/-- The clauses whose heads have the given symbol. -/
def bucket (t : ClauseStore) (p : Ident) : List DefiniteClause :=
  (t.buckets.lookup p).getD []

/-- Add a clause; also answers whether it was new. -/
def add (t : ClauseStore) (d : DefiniteClause) : Bool × ClauseStore :=
  let p := d.head.symbol
  match t.buckets.lookup p with
  | none => (true, ⟨t.buckets ++ [(p, [d])]⟩)
  | some ds =>
    if ds.contains d then (false, t)
    else (true, ⟨t.buckets.map fun b => if b.1 = p then (p, b.2 ++ [d]) else b⟩)

/-- Add several clauses. -/
def addAll (t : ClauseStore) (ds : List DefiniteClause) : ClauseStore :=
  ds.foldl (fun t d => (t.add d).2) t

/-- The store of the given clauses. -/
def ofList (ds : List DefiniteClause) : ClauseStore :=
  empty.addAll ds

/-- The clauses that a goal may be proved by.  The null symbol stands for any bucket. -/
def candidates (t : ClauseStore) (goal : Atom) : List DefiniteClause :=
  if goal.symbol = .null then t.toList else t.bucket goal.symbol

/-- The ways to apply a clause of the store to a goal under a substitution. -/
def applications (t : ClauseStore) (s : Names) (goal : Atom) (σ : Substitution) :
    List Application × Names :=
  s.flatMap (DefiniteClause.applyTo goal σ) (t.candidates goal)

end ClauseStore

end Clausal
