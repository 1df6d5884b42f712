import Clausal.Index.Discrimination
import Clausal.Index.Feature
import Clausal.Index.Trie
import Clausal.Subsumption

/-!
# Feature vector indexes

A feature vector index stores values under clauses.  The components of a clause's vector are the
keys on the way to its entry in a trie.  A clause that subsumes another has no greater magnitude for
any feature, so most candidates are ruled out by their vectors before subsumption is tested.

Ruling out by vectors is right only if the subsuming clause cannot merge literals.  Stored clauses
with unifiable literals are therefore also kept in a list that is searched from end to end.

## Main definitions

- `FeatureIndex`, `tryAdd`, `add`, `remove`, `find?`
- `FeatureIndex.subsuming`, `FeatureIndex.subsumed`
- `FeatureIndex.replace`: add a clause in place of those that it subsumes
- `FeatureIndex.replaceAmong`: the same where each stored clause has a scheme of its own
-/

namespace Clausal

/-- A feature and its magnitude. -/
abbrev Component (φ : Type) : Type :=
  φ × Nat

/-- Stored clauses with their values. -/
abbrev Entries (α : Type) : Type :=
  List (Clause × α)

/-- Values stored under clauses, and the entries of clauses whose literals may merge. -/
structure FeatureIndex (φ α : Type) where
  root : Trie (Component φ) (Entries α)
  merging : Entries α

/-- The place of the first entry whose clause is a variant of the given one. -/
def Entries.find? {α : Type} (c : Clause) (es : Entries α) : Option (Clause × α) :=
  List.find? (fun e => e.1.isVariantOf c) es

/-- The entries without the first one whose clause is a variant of the given one, if there is
    one. -/
def Entries.erase? {α : Type} (c : Clause) (es : Entries α) : Option (Entries α) :=
  if (es.find? c).isSome then some (List.eraseP (fun e => e.1.isVariantOf c) es) else none

namespace FeatureIndex

variable {φ α : Type} [BEq φ]

/-- The index without entries. -/
def empty : FeatureIndex φ α :=
  ⟨.leaf [], []⟩

/-! ## Section 1: Entries -/

/-- The entries at and below children: later children come first, and each node before the nodes
    below it. -/
def entriesBelow : Forest (Component φ) (Entries α) → Entries α
  | .nil => []
  | .cons _ es below rest => entriesBelow rest ++ (es ++ entriesBelow below)

/-- All entries of a node and of the nodes below it. -/
def entriesOf (t : Trie (Component φ) (Entries α)) : Entries α :=
  t.entry ++ entriesBelow t.children

/-- All entries. -/
def entries (ix : FeatureIndex φ α) : Entries α :=
  entriesOf ix.root

/-- The number of entries. -/
def size (ix : FeatureIndex φ α) : Nat :=
  ix.entries.length

/-- The entry stored under a variant of a clause. -/
def find? (s : FeatureScheme φ) (ix : FeatureIndex φ α) (c : Clause) : Option (Clause × α) :=
  match ix.root.get? (s.sorted c) with
  | none => none
  | some es => es.find? c

/-- Whether a variant of a clause is stored. -/
def contains (s : FeatureScheme φ) (ix : FeatureIndex φ α) (c : Clause) : Bool :=
  (ix.find? s c).isSome

/-- Store a value under a clause that is not empty and of which no variant is stored.  The nodes on
    the way to its entry are made first, and are there also in the index that a refusal leaves. -/
def tryAdd (s : FeatureScheme φ) (ix : FeatureIndex φ α) (c : Clause) (a : α) :
    Except IndexError Unit × FeatureIndex φ α :=
  if c.isEmpty then (.error .emptyClause, ix)
  else
    let ix := { ix with root := ix.root.alter [] id (s.sorted c) }
    if ix.contains s c then (.error .present, ix)
    else (.ok (),
      { root := ix.root.alter [] (· ++ [(c, a)]) (s.sorted c)
        merging := if c.hasUnifiableLiterals then ix.merging ++ [(c, a)] else ix.merging })

/-- Store a value under a clause, if it is not refused. -/
def add (s : FeatureScheme φ) (ix : FeatureIndex φ α) (c : Clause) (a : α) :
    Except IndexError (FeatureIndex φ α) :=
  match ix.tryAdd s c a with
  | (.ok (), ix) => .ok ix
  | (.error e, _) => .error e

/-- Drop the entry of a variant of a clause; the answer tells whether there was one. -/
def remove (s : FeatureScheme φ) (ix : FeatureIndex φ α) (c : Clause) : Bool × FeatureIndex φ α :=
  match ix.root.prune List.isEmpty (Entries.erase? c) (s.sorted c) with
  | none => (false, ix)
  | some root => (true, { root, merging := ix.merging.filter fun e => !e.1.isVariantOf c })

/-! ## Section 2: Retrieval -/

/-- Children in the order of their components. -/
def ascending {β : Type} (s : FeatureScheme φ) (l : List (Component φ × β)) :
    List (Component φ × β) :=
  l.mergeSort fun a b => ((s.compare a.1.1 b.1.1).then (compare a.1.2 b.1.2)).isLE

/-- The entries whose vectors are below the given one, component by component. -/
def belowVector (s : FeatureScheme φ) :
    List (Component φ) → Trie (Component φ) (Entries α) → Entries α
  | [], t => t.entry
  | (f, n) :: v, t =>
    (((ascending s t.children.toList).filter fun c =>
        (s.compare c.1.1 f).isEq && c.1.2 ≤ n).flatMap fun c => belowVector s v c.2)
    ++ belowVector s v t

/-- The entries of all stored clauses that subsume a clause. -/
def subsuming (s : FeatureScheme φ) (ix : FeatureIndex φ α) (c : Clause) : Entries α :=
  let byVector := (belowVector s (s.sorted c) ix.root).filter fun e =>
    !(ix.merging.any fun m => m.1 == e.1) && e.1.subsumes c
  byVector ++ ix.merging.filter fun e => e.1.subsumes c

/-- For each child, the entries at and below it whose vectors are above the given one. -/
def aboveVectorIn (s : FeatureScheme φ) :
    Forest (Component φ) (Entries α) → List (Component φ) → List (Component φ × Entries α)
  | .nil, _ => []
  | .cons key es below rest, v =>
    let at' (v : List (Component φ)) (found : List (Component φ × Entries α)) : Entries α :=
      match v with
      | [] => es ++ entriesBelow below
      | _ :: _ => (ascending s found).flatMap Prod.snd
    let here : Entries α :=
      match v with
      | [] => []
      | (f, n) :: v' =>
        match s.compare key.1 f with
        | .gt => []
        | .eq => if n ≤ key.2 then at' v' (aboveVectorIn s below v') else []
        | .lt => at' ((f, n) :: v') (aboveVectorIn s below ((f, n) :: v'))
    (key, here) :: aboveVectorIn s rest v

/-- The entries whose vectors are above the given one, component by component. -/
def aboveVector (s : FeatureScheme φ) (t : Trie (Component φ) (Entries α))
    (v : List (Component φ)) : Entries α :=
  match v with
  | [] => entriesOf t
  | _ :: _ => (ascending s (aboveVectorIn s t.children v)).flatMap Prod.snd

/-- The entries of all stored clauses that a clause subsumes. -/
def subsumed (s : FeatureScheme φ) (ix : FeatureIndex φ α) (c : Clause) : Entries α :=
  let candidates :=
    if c.hasUnifiableLiterals then ix.entries else aboveVector s ix.root (s.sorted c)
  candidates.filter fun e => c.subsumes e.1

/-! ## Section 3: Replacement -/

/-- Add a clause unless a stored one subsumes it, after dropping every stored clause that it
    subsumes.  The answer tells whether it was added.  `own` is the scheme of a stored clause, if
    clauses are spelled in ways of their own. -/
def replaceAmong (s : FeatureScheme φ) (own : α → FeatureScheme φ) (ix : FeatureIndex φ α)
    (c : Clause) (a : α) : Except IndexError Bool × FeatureIndex φ α :=
  if c.isEmpty then (.error .emptyClause, ix)
  else if !(ix.subsuming s c).isEmpty then (.ok false, ix)
  else
    let ix := (ix.subsumed s c).foldl (fun ix e => (ix.remove (own e.2) e.1).2) ix
    match ix.tryAdd s c a with
    | (.ok (), ix) => (.ok true, ix)
    | (.error e, ix) => (.error e, ix)

/-- Add a clause in place of those that it subsumes, all of them measured by one scheme. -/
def replace (s : FeatureScheme φ) (ix : FeatureIndex φ α) (c : Clause) (a : α) :
    Except IndexError Bool × FeatureIndex φ α :=
  ix.replaceAmong s (fun _ => s) c a

end FeatureIndex

end Clausal
