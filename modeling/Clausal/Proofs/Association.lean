import Clausal.Association
import Clausal.Distinct
import Mathlib.Data.List.Basic

/-!
# What associations keep

Giving a key a value keeps all keys and their order.  A key that equals one that is there does not
become a key itself: the old one stays and gets the new value.

## Main statements

- `map_fst_insertKey`: the keys after an insertion
- `mem_insertKey`: the entries after an insertion
- `insertKey_of_new`: a new key goes to the end
-/

namespace Clausal

variable {κ α : Type} [BEq κ] {k : κ} {a : α} {l : List (κ × α)} {e : κ × α}

theorem map_fst_insertKey (k : κ) (a : α) (l : List (κ × α)) :
    (insertKey k a l).map Prod.fst =
      if (l.map Prod.fst).any (· == k) then l.map Prod.fst else l.map Prod.fst ++ [k] := by
  induction l with
  | nil => rfl
  | cons e l ih =>
    rw [insertKey]
    cases he : e.1 == k with
    | true => simp [he]
    | false =>
      simp only [Bool.false_eq_true, if_false, List.map_cons, ih, List.any_cons, he, Bool.false_or]
      split <;> rfl

/-- An entry is an old one or has the new value, under the key or one that equals it. -/
theorem mem_insertKey [ReflBEq κ] (h : e ∈ insertKey k a l) :
    e ∈ l ∨ e.2 = a ∧ (e.1 == k) = true := by
  induction l with
  | nil =>
    rw [List.mem_singleton.mp h]
    exact Or.inr ⟨rfl, BEq.rfl⟩
  | cons e' l ih =>
    rw [insertKey] at h
    split at h
    next heq =>
      rcases List.mem_cons.mp h with rfl | h
      · exact Or.inr ⟨rfl, heq⟩
      · exact Or.inl (List.mem_cons_of_mem _ h)
    next =>
      rcases List.mem_cons.mp h with rfl | h
      · exact Or.inl List.mem_cons_self
      · exact (ih h).imp_left (List.mem_cons_of_mem _)

theorem keys_subset_insertKey (k : κ) (a : α) (l : List (κ × α)) :
    l.map Prod.fst ⊆ (insertKey k a l).map Prod.fst := by
  rw [map_fst_insertKey]
  split
  · exact List.Subset.refl _
  · exact List.subset_append_left _ _

/-- After an insertion the key is there, as itself or as one that equals it. -/
theorem exists_key_insertKey [ReflBEq κ] (k : κ) (a : α) (l : List (κ × α)) :
    ∃ k' ∈ (insertKey k a l).map Prod.fst, (k' == k) = true := by
  rw [map_fst_insertKey]
  split
  next hany => exact List.any_eq_true.mp hany
  next => exact ⟨k, by simp, BEq.rfl⟩

/-- A key is new, or it is there already as one that equals it. -/
theorem mem_keys_insertKey {k' : κ} (h : k' ∈ (insertKey k a l).map Prod.fst) :
    k' ∈ l.map Prod.fst ∨ k' = k := by
  rw [map_fst_insertKey] at h
  split at h
  · exact Or.inl h
  · simpa using h

theorem insertKey_of_new (h : ∀ k' ∈ l.map Prod.fst, (k' == k) = false) :
    insertKey k a l = l ++ [(k, a)] := by
  induction l with
  | nil => rfl
  | cons e l ih =>
    rw [List.map_cons, List.forall_mem_cons] at h
    rw [insertKey, h.1, ih h.2]
    rfl

theorem findKey_congr [EquivBEq κ] {k' : κ} (h : (k == k') = true) (l : List (κ × α)) :
    findKey k l = findKey k' l := by
  have hbeq : (fun e : κ × α => e.1 == k) = fun e => e.1 == k' :=
    funext fun e => BEq.congr_right h
  rw [findKey, findKey, hbeq]

theorem exists_mem_of_findKey (h : findKey k l = some a) : ∃ k', (k', a) ∈ l ∧ (k' == k) = true := by
  obtain ⟨e, he, rfl⟩ := Option.map_eq_some_iff.mp h
  have hbeq := List.find?_some he
  exact ⟨e.1, List.mem_of_find?_eq_some he, hbeq⟩

end Clausal
