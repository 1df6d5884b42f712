import Clausal.Index.Element
import Clausal.Index.Trie

/-!
# Discrimination trees

A discrimination tree stores values under terms.  The symbols of a term are the keys on the way to
its value.  One walk through the tree finds all stored instances, or all stored generalisations, of
a term; what the variables stand for is checked on the way.

## Main definitions

- `DiscriminationTree`, `store`, `add`, `get?`
- `DiscriminationTree.instances`, `DiscriminationTree.generalisations`
-/

namespace Clausal

/-- Why a key could not be added to an index. -/
inductive IndexError where
  | present
  | emptyClause
  deriving DecidableEq, Repr, Inhabited

/-- The message of an error. -/
def IndexError.message : IndexError → String
  | .present => "Key already present"
  | .emptyClause => "The empty clause is not a valid key"

/-- The sequences of symbols that numbered variables stand for. -/
abbrev ElementBindings : Type :=
  List (Nat × List Element)

/-- Let a variable stand for a sequence of symbols, if it does not stand for another one. -/
def bindElements (b : ElementBindings) (k : Nat) (es : List Element) : Option ElementBindings :=
  match b.lookup k with
  | none => some ((k, es) :: b)
  | some es' => if es' = es then some b else none

/-- What is left of a query after a key on the way: a variable takes a whole term of the query, any
    other key is to be its next symbol. -/
def afterKey? (key : Element) (query : List Element) (b : ElementBindings) :
    Option (List Element × ElementBindings) :=
  match key, query with
  | .variable k, query =>
    let (taken, query) := splitTerms 1 query
    (bindElements b k taken).map fun b => (query, b)
  | key, e :: query => if key = e then some (query, b) else none
  | _, [] => none

/-- What a walk looks for next: a given symbol, or the rest of a term for a variable to stand for,
    of which some symbols are known and a number of terms is open. -/
inductive Target where
  | symbol (e : Element)
  | term (ordinal : Nat) (known : List Element) (left : Nat)

namespace Target

/-- What to look for on behalf of a symbol of the query. -/
def ofElement : Element → Target
  | .variable k => .term k [] 1
  | e => .symbol e

/-- Take one symbol: the target that remains, if any, and the bindings. -/
def step (b : ElementBindings) (e : Element) : Target → Option (Option Target × ElementBindings)
  | .symbol e' => if e = e' then some (none, b) else none
  | .term k known left =>
    let known := known ++ [e]
    let left := left + e.arity - 1
    if left > 0 then some (some (.term k known left), b)
    else (bindElements b k known).map fun b => (none, b)

end Target

/-- Values stored under terms, by the symbols of the terms. -/
structure DiscriminationTree (α : Type) where
  root : Trie Element (Option α)
  size : Nat

namespace DiscriminationTree

variable {α : Type}

/-- The tree without values. -/
def empty : DiscriminationTree α :=
  ⟨.leaf none, 0⟩

/-- The value stored under a term, up to renaming of variables. -/
def get? (d : DiscriminationTree α) (t : Term) : Option α :=
  (d.root.get? t.elements).join

/-- Whether a value is stored under a term. -/
def contains (d : DiscriminationTree α) (t : Term) : Bool :=
  (d.root.get? t.elements).isSome

/-- Store a value under a term, unless there is one already.  Answers whether it was stored, and the
    tree that is left in either case. -/
def store (d : DiscriminationTree α) (t : Term) (a : α) : Bool × DiscriminationTree α :=
  let (placed, root) := d.root.place none (some a) t.elements
  (placed, ⟨root, if placed then d.size + 1 else d.size⟩)

/-- Store a value under a term.  No two terms may be equal up to renaming of variables. -/
def add (d : DiscriminationTree α) (t : Term) (a : α) :
    Except IndexError (DiscriminationTree α) :=
  let (stored, d) := d.store t a
  if stored then .ok d else .error .present

/-- The values that are reached by meeting a target and then the rest of the query. -/
def instancesIn : Forest Element (Option α) → Target → List Element → ElementBindings → List α
  | .nil, _, _, _ => []
  | .cons key entry below rest, target, query, b =>
    (match target.step b key, query with
      | none, _ => []
      | some (some target, b), query => instancesIn below target query b
      | some (none, _), [] => entry.toList
      | some (none, b), e :: query => instancesIn below (.ofElement e) query b)
    ++ instancesIn rest target query b

/-- The values of all stored instances of a term. -/
def instances (d : DiscriminationTree α) (t : Term) : List α :=
  match t.elements with
  | [] => []
  | e :: query => instancesIn d.root.children (.ofElement e) query []

/-- The values that are reached by the symbols of the query, where a variable on the way takes a
    whole term of the query. -/
def generalisationsIn : Forest Element (Option α) → List Element → ElementBindings → List α
  | .nil, _, _ => []
  | .cons key entry below rest, query, b =>
    (match afterKey? key query b with
      | none => []
      | some ([], _) => entry.toList
      | some (e :: query, b) => generalisationsIn below (e :: query) b)
    ++ generalisationsIn rest query b

/-- The values of all stored generalisations of a term. -/
def generalisations (d : DiscriminationTree α) (t : Term) : List α :=
  generalisationsIn d.root.children t.elements []

end DiscriminationTree

end Clausal
