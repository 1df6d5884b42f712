/-!
# Tries

A trie stores an entry at each of its nodes; a node is reached by the sequence of keys on the way
to it.  Each node keeps its children in the order in which they were made, and no two children of a
node have the same key.

The children of a node form a `Forest`, which is a plain list of nodes spelled out as one inductive
type, so that recursion over a whole trie is structural.

## Main definitions

- `Forest`, `Forest.alter`, `Forest.find?`
- `Trie`, `Trie.alter`, `Trie.place`, `Trie.prune`, `Trie.get?`
-/

namespace Clausal

/-- Children of a trie node: the key of each, its entry and its own children. -/
inductive Forest (κ ε : Type) where
  | nil
  | cons (key : κ) (entry : ε) (below : Forest κ ε) (rest : Forest κ ε)

/-- A node of a trie. -/
structure Trie (κ ε : Type) where
  entry : ε
  children : Forest κ ε

variable {κ ε : Type}

namespace Forest

/-- Whether there are no children. -/
def isNil : Forest κ ε → Bool
  | .nil => true
  | .cons _ _ _ _ => false

/-- The children with their keys, in the order in which they were made. -/
def toList : Forest κ ε → List (κ × Trie κ ε)
  | .nil => []
  | .cons key entry below rest => (key, ⟨entry, below⟩) :: rest.toList

/-- The child with the given key. -/
def find? [BEq κ] (k : κ) : Forest κ ε → Option (Trie κ ε)
  | .nil => none
  | .cons key entry below rest => if key == k then some ⟨entry, below⟩ else rest.find? k

/-- Change, make or drop the child with the given key.  A new child goes to the end. -/
def alter [BEq κ] (k : κ) (f : Option (Trie κ ε) → Option (Trie κ ε)) :
    Forest κ ε → Forest κ ε
  | .nil =>
    match f none with
    | none => .nil
    | some c => .cons k c.entry c.children .nil
  | .cons key entry below rest =>
    if key == k then
      match f (some ⟨entry, below⟩) with
      | none => rest
      | some c => .cons key c.entry c.children rest
    else .cons key entry below (rest.alter k f)

end Forest

namespace Trie

/-- The trie with one node. -/
def leaf (e : ε) : Trie κ ε :=
  ⟨e, .nil⟩

/-- The entry of the node that a sequence of keys leads to. -/
def get? [BEq κ] : List κ → Trie κ ε → Option ε
  | [], t => some t.entry
  | k :: ks, t =>
    match t.children.find? k with
    | none => none
    | some c => c.get? ks

/-- Change the entry of the node that a sequence of keys leads to.  Missing nodes are made, with
    the given entry. -/
def alter [BEq κ] (new : ε) (f : ε → ε) : List κ → Trie κ ε → Trie κ ε
  | [], t => ⟨f t.entry, t.children⟩
  | k :: ks, t =>
    ⟨t.entry, t.children.alter k fun c => some (alter new f ks (c.getD (leaf new)))⟩

/-- Put an entry at a node of its own, which a sequence of keys leads to.  Nodes on the way are made
    as they are needed; a last node that is there already stays as it is.  Also answers whether the
    entry was put there. -/
def place [BEq κ] (new e : ε) : List κ → Trie κ ε → Bool × Trie κ ε
  | [], t => (false, t)
  | [k], t =>
    if (t.children.find? k).isSome then (false, t)
    else (true, ⟨t.entry, t.children.alter k fun _ => some (leaf e)⟩)
  | k :: k' :: ks, t =>
    let (placed, c) := place new e (k' :: ks) ((t.children.find? k).getD (leaf new))
    (placed, ⟨t.entry, t.children.alter k fun _ => some c⟩)

/-- Change the entry of the node that a sequence of keys leads to.  There is no answer if there is no
    such node, or no new entry for it.  On the way back, a node that is left without children and
    with an entry that counts as empty is dropped. -/
def prune [BEq κ] (isEmpty : ε → Bool) (f : ε → Option ε) :
    List κ → Trie κ ε → Option (Trie κ ε)
  | [], t => (f t.entry).map fun e => ⟨e, t.children⟩
  | k :: ks, t =>
    match t.children.find? k with
    | none => none
    | some c =>
      match c.prune isEmpty f ks with
      | none => none
      | some c =>
        let kept := if isEmpty c.entry && c.children.isNil then none else some c
        some ⟨t.entry, t.children.alter k fun _ => kept⟩

end Trie

end Clausal
