import Clausal.Index.Discrimination
import Clausal.Index.Path

/-!
# Indexes of terms

What the indexes of terms have in common: values are stored under terms, no two of which are equal
up to renaming of variables, and are retrieved by term, by instance or by generalisation.
-/

namespace Clausal

/-- Ways to keep values under terms. -/
class TermIndex (τ : Type → Type) where
  /-- The index without values. -/
  empty {α : Type} : τ α
  /-- The number of values. -/
  size {α : Type} : τ α → Nat
  /-- Store a value under a term. -/
  add {α : Type} : τ α → Term → α → Except IndexError (τ α)
  /-- Whether a value is stored under a term, up to renaming of variables. -/
  contains {α : Type} : τ α → Term → Bool
  /-- The value of a term, up to renaming of variables. -/
  get? {α : Type} : τ α → Term → Option α
  /-- The values of all stored instances of a term. -/
  instances {α : Type} : τ α → Term → List α
  /-- The values of all stored generalisations of a term. -/
  generalisations {α : Type} : τ α → Term → List α

instance : TermIndex DiscriminationTree where
  empty := .empty
  size := DiscriminationTree.size
  add := DiscriminationTree.add
  contains := DiscriminationTree.contains
  get? := DiscriminationTree.get?
  instances := DiscriminationTree.instances
  generalisations := DiscriminationTree.generalisations

instance : TermIndex PathTree where
  empty := .empty
  size := PathTree.size
  add := PathTree.add
  contains := PathTree.contains
  get? := PathTree.get?
  instances := PathTree.instances
  generalisations := PathTree.generalisations

end Clausal
