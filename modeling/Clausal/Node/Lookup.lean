import Clausal.Index.FeatureVector
import Clausal.Index.ScalarFeature
import Clausal.Node.Operation

/-!
# Looking for nodes in feature vector indexes

Only clauses are stored in a feature vector index.  A node that is no clause is never found there,
but looking for it fails as soon as it would have to be compared with a stored clause.

## Main definitions

- `NodeScheme`, `NodeScheme.spelled`: feature vectors of nodes
- `FeatureIndex.findNode`, `FeatureIndex.removeNode`
- `FeatureIndex.subsumingNode`, `FeatureIndex.subsumedNode`
-/

namespace Clausal

/-- A scheme that measures the features of other nodes than clauses, too. -/
structure NodeScheme (φ : Type) extends FeatureScheme φ where
  measure : Node → Except NodeError (List (Component φ))

namespace NodeScheme

/-- The scheme of occurrence counts.  Nodes with elements other than literals are refused. -/
def occurrences : NodeScheme Feature where
  toFeatureScheme := .occurrences
  measure n := return Clause.occurrences (.ofList (← n.elements))

/-- The scheme of symbol depths.  Nodes with elements other than literals are refused. -/
def symbolDepths : NodeScheme Feature where
  toFeatureScheme := .symbolDepths
  measure n := return Clause.symbolDepths (.ofList (← n.elements))

/-- The scheme of nodes with a spelling. -/
def spelled (s : NodeScheme Feature) (spelling : List Scalar) : NodeScheme ScalarFeature where
  toFeatureScheme := s.toFeatureScheme.spelled spelling
  measure n := (s.measure n).map (List.map (Prod.map (.ofFeature spelling) id))

/-- The scheme without features. -/
def featureless : NodeScheme String where
  vector _ := []
  compare := Ord.compare
  measure _ := .ok []

/-- A vector with a length and, as nothing, a zero. -/
def lengthVector (n : Nat) : List (Component String) :=
  [("zero", 0), ("length", n)]

/-- The scheme of the number of literals.  Nodes whose elements cannot be counted are refused. -/
def lengths : NodeScheme String where
  vector c := lengthVector c.size
  compare := Ord.compare
  measure n := n.count.map lengthVector

/-- The vector of a node without zero magnitudes, in the order of features. -/
def sortedNode {φ : Type} (s : NodeScheme φ) (n : Node) :
    Except NodeError (List (Component φ)) := do
  return ((← s.measure n).filter (·.2 ≠ 0)).mergeSort fun a b => (s.compare a.1 b.1).isLE

end NodeScheme

namespace FeatureIndex

variable {φ α : Type} [BEq φ]

/-- The entry stored under a variant of a clause.  Another node is not found, and it is refused if a
    stored clause with the same vector has as many elements. -/
def findNode (s : NodeScheme φ) (ix : FeatureIndex φ α) :
    Node → Except NodeError (Option (Clause × α))
  | .clause c => .ok (ix.find? s.toFeatureScheme c)
  | n => do
    let entries := (ix.root.get? (← s.sortedNode n)).getD []
    if entries.isEmpty then return none
    let k ← n.count
    if entries.any fun e => e.1.size = k then throw .unsupported
    return none

/-- Drop the entry of a variant of a clause; the answer tells whether there was one. -/
def removeNode (s : NodeScheme φ) (ix : FeatureIndex φ α) :
    Node → Except NodeError (Bool × FeatureIndex φ α)
  | .clause c => .ok (ix.remove s.toFeatureScheme c)
  | n => do
    discard (ix.findNode s n)
    return (false, ix)

/-- The entries of all stored clauses that subsume a clause.  None subsumes another node, which is
    refused if there is a clause to be compared with. -/
def subsumingNode (s : NodeScheme φ) (ix : FeatureIndex φ α) : Node → Except NodeError (Entries α)
  | .clause c => .ok (ix.subsuming s.toFeatureScheme c)
  | n => do
    let v ← s.sortedNode n
    let others := (belowVector s.toFeatureScheme v ix.root).filter fun e =>
      !(ix.merging.any fun m => m.1 == e.1)
    if !(others ++ ix.merging).isEmpty then throw .unsupported
    return []

/-- The entries of all stored clauses that a clause subsumes.  Other nodes are refused. -/
def subsumedNode (s : NodeScheme φ) (ix : FeatureIndex φ α) : Node → Except NodeError (Entries α)
  | .clause c => .ok (ix.subsumed s.toFeatureScheme c)
  | _ => .error .unsupported

end FeatureIndex

end Clausal
