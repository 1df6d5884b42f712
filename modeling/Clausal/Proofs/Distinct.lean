import Clausal.Distinct
import Mathlib.Data.List.Induction

/-!
# Dropping repetitions

`dedup` keeps the first of each group of equal elements.  What is left is a sublist, it has an equal
of every element that there was, and a list without repetitions stays as it is.  Repetitions may be
dropped before or after a map that keeps different elements apart.

## Main definitions

- `KeepsEq`: a map under which equal elements stay equal and different ones different

## Main statements

- `exists_mem_dedup`, `forall_mem_dedup`: properties that equal elements share
- `dedup_sublist`, `dedup_eq_self`, `length_dedup_lt`
- `dedup_concat`, `dedup_append`: repetitions are dropped from left to right
- `dedup_flatMap_dedup`: repetitions may be dropped early
- `KeepsEq.dedup_map`, `KeepsEq.idxOf_map`, `keepsEq_of_injective`
-/

namespace Clausal

variable {α : Type} [BEq α] {l : List α}

/-- Testing a property that equal elements share is the same before and after repetitions are
    dropped. -/
theorem exists_mem_dedup {p : α → Prop} (hp : ∀ a b, (a == b) = true → p b → p a) (l : List α) :
    (∃ a ∈ dedup l, p a) ↔ ∃ a ∈ l, p a := by
  constructor
  · rintro ⟨a, ha, hpa⟩
    exact ⟨a, mem_of_mem_dedup ha, hpa⟩
  · rintro ⟨a, ha, hpa⟩
    induction l with
    | nil => simp at ha
    | cons b l ih =>
      rcases List.mem_cons.mp ha with rfl | ha
      · exact ⟨a, List.mem_cons_self, hpa⟩
      · obtain ⟨c, hc, hpc⟩ := ih ha
        cases hbc : b == c with
        | true => exact ⟨b, List.mem_cons_self, hp b c hbc hpc⟩
        | false =>
          refine ⟨c, List.mem_cons_of_mem _ (List.mem_filter.mpr ⟨hc, ?_⟩), hpc⟩
          simp [hbc]

theorem forall_mem_dedup {p : α → Prop} (hp : ∀ a b, (a == b) = true → p a → p b) (l : List α) :
    (∀ a ∈ dedup l, p a) ↔ ∀ a ∈ l, p a := by
  have h := exists_mem_dedup (p := fun a => ¬ p a) (fun a b hab hb ha => hb (hp a b hab ha)) l
  simpa using not_congr h

/-- Every element is equal to one that is kept when repetitions are dropped. -/
theorem exists_beq_mem_dedup [EquivBEq α] {a : α} (h : a ∈ l) : ∃ b ∈ dedup l, (a == b) = true :=
  (exists_mem_dedup (p := fun b => (a == b) = true) (fun _ _ hbc hac => BEq.trans hac (BEq.symm hbc))
    l).mpr ⟨a, h, BEq.rfl⟩

theorem mem_dedup_iff [LawfulBEq α] {x : α} : x ∈ dedup l ↔ x ∈ l := by
  have h := exists_mem_dedup (p := (x = ·)) (fun a b hab hxb => hxb.trans (eq_of_beq hab).symm) l
  simpa using h

theorem dedup_ne_nil (h : l ≠ []) : dedup l ≠ [] := by
  cases l with
  | nil => exact absurd rfl h
  | cons a l => exact List.cons_ne_nil _ _

theorem dedup_sublist (l : List α) : (dedup l).Sublist l := by
  induction l with
  | nil => exact .slnil
  | cons a l ih => exact (List.filter_sublist.trans ih).cons_cons a

theorem dedup_eq_self (h : Distinct l) : dedup l = l := by
  induction l with
  | nil => rfl
  | cons a l ih =>
    obtain ⟨ha, hl⟩ := List.pairwise_cons.mp h
    rw [dedup, ih hl, List.filter_eq_self.mpr]
    intro b hb
    simp [ha b hb]

/-- A list with repetitions gets shorter when they are dropped. -/
theorem length_dedup_lt (h : ¬ Distinct l) : (dedup l).length < l.length := by
  refine Nat.lt_of_le_of_ne (dedup_sublist l).length_le fun hlen => h ?_
  have heq : dedup l = l := (dedup_sublist l).eq_of_length hlen
  exact heq ▸ pairwise_dedup l

theorem dedup_concat (l : List α) (a : α) :
    dedup (l ++ [a]) = if l.any (· == a) then dedup l else dedup l ++ [a] := by
  induction l with
  | nil => rfl
  | cons b l ih =>
    rw [List.cons_append, dedup, ih, List.any_cons]
    cases hl : l.any (· == a) with
    | true => simp [dedup]
    | false => cases hba : b == a <;> simp [dedup, hba]

private theorem any_beq_dedup [EquivBEq α] (l : List α) (b : α) :
    (dedup l).any (· == b) = l.any (· == b) := by
  rw [Bool.eq_iff_iff, List.any_eq_true, List.any_eq_true]
  exact exists_mem_dedup (p := fun a => (a == b) = true) (fun a c hac hcb => BEq.trans hac hcb) l

/-- Repetitions are dropped from the first part and then from the second, where what the first part
    has counts as a repetition. -/
theorem dedup_append (l m : List α) :
    dedup (l ++ m) = dedup l ++ (dedup m).filter fun b => !(l.any (· == b)) := by
  induction l with
  | nil => exact (List.filter_eq_self.mpr fun _ _ => rfl).symm
  | cons a l ih =>
    rw [List.cons_append, dedup, ih, List.filter_append, List.filter_filter, dedup,
      List.cons_append]
    congr 2
    refine List.filter_congr fun b _ => ?_
    rw [List.any_cons, Bool.not_or]

theorem dedup_append_congr [EquivBEq α] {l l' m m' : List α} (hl : dedup l = dedup l')
    (hm : dedup m = dedup m') : dedup (l ++ m) = dedup (l' ++ m') := by
  have hany : ∀ b, l.any (· == b) = l'.any (· == b) := fun b => by
    rw [← any_beq_dedup, hl, any_beq_dedup]
  simp only [dedup_append, hl, hm, hany]

/-- What is there already adds nothing. -/
theorem dedup_append_of_forall_any {m : List α} (h : ∀ b ∈ m, l.any (· == b) = true) :
    dedup (l ++ m) = dedup l := by
  have hnil : ((dedup m).filter fun b => !(l.any (· == b))) = [] :=
    List.filter_eq_nil_iff.mpr fun b hb => by simp [h b (mem_of_mem_dedup hb)]
  rw [dedup_append, hnil, List.append_nil]

/-- Repetitions may be dropped before a map that does not tell equal elements apart. -/
theorem dedup_flatMap_dedup [EquivBEq α] {f : α → List α}
    (hf : ∀ a b, (a == b) = true → f a = f b) (l : List α) :
    dedup ((dedup l).flatMap f) = dedup (l.flatMap f) := by
  induction l using List.reverseRecOn with
  | nil => rfl
  | append_singleton l a ih =>
    have hsingle : [a].flatMap f = f a := by simp
    rw [dedup_concat, List.flatMap_append, hsingle]
    split
    next hany =>
      obtain ⟨b, hb, hba⟩ := List.any_eq_true.mp hany
      rw [ih, dedup_append_of_forall_any]
      intro c hc
      rw [← hf b a hba] at hc
      exact List.any_eq_true.mpr ⟨c, List.mem_flatMap.mpr ⟨b, hb, hc⟩, BEq.rfl⟩
    next =>
      rw [List.flatMap_append, hsingle]
      exact dedup_append_congr ih rfl

/-- An element that is kept was there before, and what was kept before it is what was there before it
    without repetitions. -/
theorem exists_of_dedup_eq_append {l l₁ l₂ : List α} {a : α} (h : dedup l = l₁ ++ a :: l₂) :
    ∃ m₁ m₂, l = m₁ ++ a :: m₂ ∧ dedup m₁ = l₁ := by
  induction l using List.reverseRecOn generalizing l₂ with
  | nil => simp [dedup] at h
  | append_singleton l b ih =>
    rw [dedup_concat] at h
    split at h
    next =>
      obtain ⟨m₁, m₂, rfl, hm₁⟩ := ih h
      exact ⟨m₁, m₂ ++ [b], by simp, hm₁⟩
    next =>
      rcases List.eq_nil_or_concat l₂ with rfl | ⟨l₂', c, rfl⟩
      · -- the last element is kept
        obtain ⟨hl, hb⟩ := List.append_inj' h rfl
        obtain rfl : b = a := by simpa using hb
        exact ⟨l, [], rfl, hl⟩
      · have hsplit : dedup l ++ [b] = (l₁ ++ a :: l₂') ++ [c] := by simpa using h
        obtain ⟨m₁, m₂, rfl, hm₁⟩ := ih (List.append_inj' hsplit rfl).1
        exact ⟨m₁, m₂ ++ [b], by simp, hm₁⟩

theorem erase_eq_filter [EquivBEq α] (h : Distinct l) (a : α) :
    l.erase a = l.filter fun b => !(a == b) := by
  induction l with
  | nil => rfl
  | cons b l ih =>
    obtain ⟨hb, hl⟩ := List.pairwise_cons.mp h
    rw [List.erase_cons, BEq.comm]
    cases hab : a == b with
    | true =>
      -- no other element is equal to the one that is erased
      have hkeep : ∀ c ∈ l, (!(a == c)) = true := fun c hc => by
        cases hac : a == c with
        | false => rfl
        | true =>
          have hbc := hb c hc
          rw [BEq.trans (BEq.symm hab) hac] at hbc
          cases hbc
      simp [hab, List.filter_eq_self.mpr hkeep]
    | false => simp [hab, ih hl]

theorem Distinct.append_singleton {a : α} (h : Distinct l) (ha : ∀ b ∈ l, (b == a) = false) :
    Distinct (l ++ [a]) :=
  List.pairwise_append.mpr ⟨h, List.pairwise_singleton _ _, by simpa using ha⟩

theorem Distinct.nodup [ReflBEq α] (h : Distinct l) : l.Nodup :=
  h.imp fun {a b} hab heq => by
    rw [heq, BEq.rfl] at hab
    cases hab

/-- Equal elements of a list without repetitions are the same. -/
theorem Distinct.eq_of_beq [EquivBEq α] (h : Distinct l) {a b : α} (ha : a ∈ l) (hb : b ∈ l)
    (hab : (a == b) = true) : a = b := by
  obtain ⟨l₁, l₂, rfl⟩ := List.append_of_mem ha
  obtain ⟨-, hcons, hbefore⟩ := List.pairwise_append.mp h
  have hne : (a == b) ≠ false := by simp [hab]
  rcases List.mem_append.mp hb with hb | hb
  · exact absurd (BEq.symm_false (hbefore b hb a List.mem_cons_self)) hne
  · rcases List.mem_cons.mp hb with rfl | hb
    · rfl
    · exact absurd ((List.pairwise_cons.mp hcons).1 b hb) hne

/-- What stands earlier is found earlier. -/
theorem Distinct.findIdx_lt [EquivBEq α] {l₁ l₂ : List α} {a b : α} (h : Distinct (l₁ ++ b :: l₂))
    (ha : a ∈ l₁) :
    (l₁ ++ b :: l₂).findIdx (· == a) < (l₁ ++ b :: l₂).findIdx (· == b) := by
  obtain ⟨-, -, hbefore⟩ := List.pairwise_append.mp h
  have hfound : l₁.findIdx (· == a) < l₁.length :=
    List.findIdx_lt_length_of_exists ⟨a, ha, BEq.rfl⟩
  have hmissing : ¬ l₁.findIdx (· == b) < l₁.length := by
    rw [List.findIdx_lt_length]
    rintro ⟨c, hc, hcb⟩
    rw [hbefore c hc b List.mem_cons_self] at hcb
    cases hcb
  rw [List.findIdx_append, if_pos hfound, List.findIdx_append, if_neg hmissing]
  exact Nat.lt_of_lt_of_le hfound (Nat.le_add_left _ _)

section KeepsEq

variable {β : Type} [BEq β] {f : α → β}

/-- A map under which equal things stay equal and different ones different. -/
def KeepsEq (f : α → β) : Prop :=
  ∀ a b, (f a == f b) = (a == b)

theorem KeepsEq.contains_map (hf : KeepsEq f) (l : List α) (a : α) :
    (l.map f).contains (f a) = l.contains a := by
  induction l with
  | nil => rfl
  | cons b l ih => rw [List.map_cons, List.contains_cons, List.contains_cons, hf, ih]

theorem KeepsEq.idxOf_map (hf : KeepsEq f) (l : List α) (a : α) :
    (l.map f).idxOf (f a) = l.idxOf a := by
  induction l with
  | nil => rfl
  | cons b l ih => rw [List.map_cons, List.idxOf_cons, List.idxOf_cons, hf, ih]

private theorem KeepsEq.filter_map (hf : KeepsEq f) (l : List α) (a : α) :
    (l.map f).filter (fun b => !(f a == b)) = (l.filter fun b => !(a == b)).map f := by
  rw [List.filter_map]
  congr 1
  exact List.filter_congr fun b _ => congrArg not (hf a b)

theorem KeepsEq.dedup_map (hf : KeepsEq f) (l : List α) :
    dedup (l.map f) = (dedup l).map f := by
  induction l with
  | nil => rfl
  | cons a l ih => rw [List.map_cons, dedup, ih, hf.filter_map, dedup, List.map_cons]

theorem KeepsEq.distinct_map (hf : KeepsEq f) {l : List α} (h : Distinct l) :
    Distinct (l.map f) := by
  rw [Distinct, List.pairwise_map]
  exact h.imp fun {a b} hab => (hf a b).trans hab

/-- A value is found under the image of its key. -/
theorem KeepsEq.lookup_map {γ δ : Type} (hf : KeepsEq f) (g : γ → δ) (bs : List (α × γ)) (a : α) :
    (bs.map fun b => (f b.1, g b.2)).lookup (f a) = (bs.lookup a).map g := by
  induction bs with
  | nil => rfl
  | cons b bs ih =>
    rw [List.map_cons, List.lookup_cons, List.lookup_cons, hf, ih]
    cases a == b.1 <;> rfl

theorem keepsEq_of_injective {α β : Type} [DecidableEq α] [DecidableEq β] {f : α → β}
    (hf : Function.Injective f) : KeepsEq f := by
  intro a b
  simp [Bool.beq_eq_decide_eq, hf.eq_iff]

end KeepsEq

end Clausal
