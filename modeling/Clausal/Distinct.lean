/-!
# Lists without repetitions

Clauses and clause sets are lists whose elements are pairwise different for `==`.  `dedup` keeps
the first of each group of equal elements, in order.

## Main statements

- `pairwise_dedup`: no two elements of `dedup l` are equal
- `filter_dedup`: a property that does not tell equal elements apart may be tested before or after
-/

namespace Clausal

/-- The list without repetitions: the first of each group of equal elements stays. -/
def dedup {α : Type} [BEq α] : List α → List α
  | [] => []
  | a :: l => a :: (dedup l).filter fun b => !(a == b)

/-- No two elements of a list are equal. -/
def Distinct {α : Type} [BEq α] (l : List α) : Prop :=
  l.Pairwise fun a b => (a == b) = false

theorem pairwise_dedup {α : Type} [BEq α] (l : List α) : Distinct (dedup l) := by
  induction l with
  | nil => exact List.Pairwise.nil
  | cons a l ih =>
    refine List.Pairwise.cons ?_ (List.Pairwise.filter _ ih)
    intro b hb
    simpa using (List.mem_filter.mp hb).2

theorem mem_of_mem_dedup {α : Type} [BEq α] {a : α} {l : List α} (h : a ∈ dedup l) : a ∈ l := by
  induction l with
  | nil => exact h
  | cons b l ih =>
    rcases List.mem_cons.mp h with rfl | h
    · exact List.mem_cons_self
    · exact List.mem_cons_of_mem _ (ih (List.mem_filter.mp h).1)

theorem filter_dedup {α : Type} [BEq α] {p : α → Bool} (hp : ∀ a b, (a == b) = true → p a = p b)
    (l : List α) : (dedup l).filter p = dedup (l.filter p) := by
  induction l with
  | nil => rfl
  | cons a l ih =>
    cases ha : p a with
    | true =>
      simp only [dedup, List.filter_cons, ha, if_true, ← ih, List.filter_filter]
      congr 2
      funext b
      exact Bool.and_comm _ _
    | false =>
      simp only [dedup, List.filter_cons, ha, Bool.false_eq_true, if_false, ← ih,
        List.filter_filter]
      refine List.filter_congr fun b _ => ?_
      cases hb : p b with
      | false => rfl
      | true =>
        have : (a == b) = false := by
          cases hab : a == b with
          | false => rfl
          | true => rw [hp a b hab, hb] at ha; exact ha
        simp [this]

end Clausal
