import Clausal.Distinct

/-!
# Ancestry

Derivations name the parents of everything that was derived.  Starting from a result, its ancestors
are collected generation by generation and listed the oldest first: each stands where the longest
line of descent to the result puts it, so parents come before what was derived from them.
-/

namespace Clausal

/-- The ancestors within `n` generations of a generation, the oldest first. -/
def generations {α : Type} [BEq α] (parents : α → List α) : Nat → List α → List α
  | 0, level => level
  | n + 1, level => generations parents n (dedup (level.flatMap parents)) ++ level

/-- The given results and their ancestors within `n` generations, the oldest first and each
    once. -/
def ancestry {α : Type} [BEq α] (parents : α → List α) (n : Nat) (results : List α) : List α :=
  dedup (generations parents n results)

end Clausal
