import Clausal.Ancestry
import Clausal.Proofs.Distinct
import Mathlib.Logic.Relation

/-!
# Ancestors in order

Derivations record from what each result was derived.  If a rank goes down from every result to its
parents, then there are only finitely many generations of ancestors, and `ancestry` lists all of them:
parents come before what was derived from them, and the result itself comes last.

The ancestors can also be collected by a traversal with a queue, which keeps no track of generations.
It goes to a result, puts the parents at the end of the queue, and moves what it comes upon again to
the end of its list; the list read backwards is the outcome.  The traversal comes to an end, and its
outcome is the list of `ancestry`.

## Main definitions

- `derivedFrom`: the parents of a result that are results themselves
- `Traverses`: the traversal with a queue
- `Ordered`: results in an order in which they can be derived

## Main statements

- `exists_beq_of_ancestry_eq_append`: parents come first
- `exists_reaches_of_mem_generations`, `exists_mem_ancestry_of_reaches`: what is listed
- `exists_ancestry_singleton`: the result comes last
- `traverses_ancestry`, `Traverses.unique`: the traversal and its outcome
- `Ordered.mem_of_ancestry_eq_append`, `Ordered.traverses`: ancestors among results in order
-/

namespace Clausal

/-! ## Section 1: Lines of descent -/

section Descent

variable {α : Type} {parents : α → List α} {rank : α → Nat}

private theorem rank_le_of_reaches (hrank : ∀ c, ∀ p ∈ parents c, rank p < rank c) {a c : α}
    (h : Relation.ReflTransGen (fun p c => p ∈ parents c) c a) : rank c ≤ rank a := by
  induction h with
  | refl => exact Nat.le_refl _
  | tail _ hstep ih => exact Nat.le_trans ih (Nat.le_of_lt (hrank _ _ hstep))

/-- The ancestors within `n` generations of a generation, the oldest first, each as often as there
    are lines of descent. -/
def lineage (parents : α → List α) : Nat → List α → List α
  | 0, level => level
  | n + 1, level => lineage parents n (level.flatMap parents) ++ level

/-- The parents of a result that are results themselves, the last one first; `sources` gives the
    parents of results, and nothing for what is not a result. -/
def derivedFrom (sources : α → Option (List α)) (a : α) : List α :=
  ((sources a).getD []).reverse.filter fun p => (sources p).isSome

/-- Everything that is come upon, generation after generation and in the order of the queue. -/
def encounters (sources : α → Option (List α)) : Nat → List α → List α
  | 0, level => level
  | n + 1, level => level ++ encounters sources n (level.flatMap fun a => (sources a).getD [])

/-- Of what is come upon, the results are the ancestors, in the opposite order. -/
theorem filter_reverse_encounters (sources : α → Option (List α)) (n : Nat) (level : List α) :
    ((encounters sources n level).reverse.filter fun a => (sources a).isSome) =
      lineage (derivedFrom sources) n (level.reverse.filter fun a => (sources a).isSome) := by
  induction n generalizing level with
  | zero => rfl
  | succ n ih =>
    have hparents : ((level.flatMap fun a => (sources a).getD []).reverse.filter
          fun a => (sources a).isSome) =
        (level.reverse.filter fun a => (sources a).isSome).flatMap (derivedFrom sources) := by
      induction level with
      | nil => rfl
      | cons a level ihl =>
        rw [List.flatMap_cons, List.reverse_append, List.filter_append, ihl, List.reverse_cons,
          List.filter_append, List.flatMap_append]
        congr 1
        cases hs : sources a <;> simp [derivedFrom, hs]
    rw [encounters, List.reverse_append, List.filter_append, ih, hparents, lineage]

end Descent

variable {α : Type} [BEq α]

/-! ## Section 2: Generations -/

section Generations

variable {parents : α → List α} {rank : α → Nat}

theorem level_subset_generations (n : Nat) (level : List α) :
    level ⊆ generations parents n level := by
  cases n with
  | zero => exact List.Subset.refl _
  | succ n => exact List.subset_append_right _ _

/-- Everything that is listed is an ancestor. -/
theorem exists_reaches_of_mem_generations {n : Nat} {level : List α} {c : α}
    (h : c ∈ generations parents n level) :
    ∃ a ∈ level, Relation.ReflTransGen (fun p c => p ∈ parents c) c a := by
  induction n generalizing level with
  | zero => exact ⟨c, h, .refl⟩
  | succ n ih =>
    rcases List.mem_append.mp h with h | h
    · obtain ⟨b, hb, hcb⟩ := ih h
      obtain ⟨a, ha, hba⟩ := List.mem_flatMap.mp (mem_of_mem_dedup hb)
      exact ⟨a, ha, hcb.tail hba⟩
    · exact ⟨c, h, .refl⟩

/-- A single result comes last, since nothing is its own ancestor. -/
theorem exists_ancestry_singleton (hcongr : ∀ a b, (a == b) = true → parents a = parents b)
    (hrank : ∀ c, ∀ p ∈ parents c, rank p < rank c) (n : Nat) (a : α) :
    ∃ l, ancestry parents n [a] = l ++ [a] := by
  cases n with
  | zero => exact ⟨[], rfl⟩
  | succ n =>
    refine ⟨dedup (generations parents n (dedup ([a].flatMap parents))), ?_⟩
    refine (dedup_concat _ a).trans (if_neg fun hany => ?_)
    obtain ⟨c, hc, hca⟩ := List.any_eq_true.mp hany
    obtain ⟨b, hb, hcb⟩ := exists_reaches_of_mem_generations hc
    have hbc : b ∈ parents c := by
      rw [hcongr c a hca]
      simpa using mem_of_mem_dedup hb
    have hlt := Nat.lt_of_le_of_lt (rank_le_of_reaches hrank hcb) (hrank c b hbc)
    exact Nat.lt_irrefl _ hlt

variable [EquivBEq α]

/-- With enough generations, parents stand before their children, wherever these stand. -/
theorem exists_beq_of_generations_eq_append (hrank : ∀ c, ∀ p ∈ parents c, rank p < rank c)
    {n : Nat} {level : List α} (hlevel : ∀ a ∈ level, rank a < n) {l₁ l₂ : List α} {c : α}
    (h : generations parents n level = l₁ ++ c :: l₂) {p : α} (hp : p ∈ parents c) :
    ∃ p' ∈ l₁, (p == p') = true := by
  induction n generalizing level l₂ with
  | zero =>
    have hc : c ∈ level := by
      rw [show level = l₁ ++ c :: l₂ from h]
      simp
    exact absurd (hlevel c hc) (Nat.not_lt_zero _)
  | succ n ih =>
    have hparents : ∀ b ∈ dedup (level.flatMap parents), rank b < n := by
      intro b hb
      obtain ⟨a, ha, hba⟩ := List.mem_flatMap.mp (mem_of_mem_dedup hb)
      exact Nat.lt_of_lt_of_le (hrank a b hba) (Nat.le_of_lt_succ (hlevel a ha))
    rcases List.append_eq_append_iff.mp h with ⟨m, hl₁, hlev⟩ | ⟨m, hgen, hlev⟩
    · -- the child is of the last generation, and its parents are of the one before
      have hc : c ∈ level := by
        rw [hlev]
        simp
      obtain ⟨p', hp', hbeq⟩ := exists_beq_mem_dedup (List.mem_flatMap.mpr ⟨c, hc, hp⟩)
      rw [hl₁]
      exact ⟨p', List.mem_append_left _ (level_subset_generations n _ hp'), hbeq⟩
    · cases m with
      | nil =>
        obtain rfl : level = c :: l₂ := by simpa using hlev.symm
        obtain ⟨p', hp', hbeq⟩ :=
          exists_beq_mem_dedup (List.mem_flatMap.mpr ⟨c, List.mem_cons_self, hp⟩)
        rw [List.append_nil] at hgen
        rw [← hgen]
        exact ⟨p', level_subset_generations n _ hp', hbeq⟩
      | cons b m =>
        obtain ⟨rfl, -⟩ := List.cons.inj hlev
        exact ih hparents hgen

variable {n : Nat} {results : List α}

/-- Parents come first. -/
theorem exists_beq_of_ancestry_eq_append (hrank : ∀ c, ∀ p ∈ parents c, rank p < rank c)
    (hresults : ∀ a ∈ results, rank a < n) {l₁ l₂ : List α} {c : α}
    (h : ancestry parents n results = l₁ ++ c :: l₂) {p : α} (hp : p ∈ parents c) :
    ∃ p' ∈ l₁, (p == p') = true := by
  obtain ⟨m₁, m₂, hgen, hm₁⟩ := exists_of_dedup_eq_append h
  obtain ⟨p', hp', hbeq⟩ := exists_beq_of_generations_eq_append hrank hresults hgen hp
  obtain ⟨p'', hp'', hbeq'⟩ := exists_beq_mem_dedup hp'
  exact ⟨p'', hm₁ ▸ hp'', BEq.trans hbeq hbeq'⟩

/-- Every ancestor is listed. -/
theorem exists_mem_ancestry_of_reaches (hcongr : ∀ a b, (a == b) = true → parents a = parents b)
    (hrank : ∀ c, ∀ p ∈ parents c, rank p < rank c) (hresults : ∀ a ∈ results, rank a < n)
    {a c : α} (ha : a ∈ results) (h : Relation.ReflTransGen (fun p c => p ∈ parents c) c a) :
    ∃ c' ∈ ancestry parents n results, (c == c') = true := by
  induction h using Relation.ReflTransGen.head_induction_on with
  | refl => exact exists_beq_mem_dedup (level_subset_generations n results ha)
  | head hstep _ ih =>
    -- a child is listed, so its parents are listed before it
    obtain ⟨c', hc', hbeq⟩ := ih
    rw [hcongr _ _ hbeq] at hstep
    obtain ⟨l₁, l₂, hsplit⟩ := List.append_of_mem hc'
    obtain ⟨p', hp', hpp'⟩ := exists_beq_of_ancestry_eq_append hrank hresults hsplit hstep
    exact ⟨p', hsplit ▸ List.mem_append_left _ hp', hpp'⟩

theorem dedup_lineage_congr (hcongr : ∀ a b, (a == b) = true → parents a = parents b) (n : Nat)
    {l m : List α} (h : dedup l = dedup m) :
    dedup (lineage parents n l) = dedup (lineage parents n m) := by
  induction n generalizing l m with
  | zero => exact h
  | succ n ih =>
    have hparents : dedup (l.flatMap parents) = dedup (m.flatMap parents) := by
      rw [← dedup_flatMap_dedup hcongr l, h, dedup_flatMap_dedup hcongr m]
    exact dedup_append_congr (ih hparents) h

/-- It makes no difference whether repetitions are dropped in each generation or at the end. -/
theorem ancestry_eq_dedup_lineage (hcongr : ∀ a b, (a == b) = true → parents a = parents b)
    (n : Nat) (results : List α) :
    ancestry parents n results = dedup (lineage parents n results) := by
  show dedup (generations parents n results) = _
  induction n generalizing results with
  | zero => rfl
  | succ n ih =>
    refine dedup_append_congr ((ih _).trans (dedup_lineage_congr hcongr n ?_)) rfl
    exact dedup_eq_self (pairwise_dedup _)

end Generations

/-! ## Section 3: Traversal with a queue -/

/-- The traversal with a queue and a list of what has been come upon.  What is come upon again is
    taken off the list; results are put at its end, and their parents at the end of the queue. -/
inductive Traverses (sources : α → Option (List α)) : List α → List α → List α → Prop
  | done {ordered : List α} : Traverses sources [] ordered ordered.reverse
  | derived {a : α} {ps queue ordered out : List α} (h : sources a = some ps)
      (rest : Traverses sources (queue ++ ps) (ordered.erase a ++ [a]) out) :
      Traverses sources (a :: queue) ordered out
  | given {a : α} {queue ordered out : List α} (h : sources a = none)
      (rest : Traverses sources queue (ordered.erase a) out) :
      Traverses sources (a :: queue) ordered out

section Traversal

variable {sources : α → Option (List α)} {rank : α → Nat}

theorem Traverses.unique {queue ordered out out' : List α} (h : Traverses sources queue ordered out)
    (h' : Traverses sources queue ordered out') : out = out' := by
  induction h with
  | done =>
    cases h'
    rfl
  | derived hs _ ih =>
    cases h' with
    | derived hs' rest =>
      obtain rfl := Option.some.inj (hs.symm.trans hs')
      exact ih rest
    | given hs' => cases hs.symm.trans hs'
  | given hs _ ih =>
    cases h' with
    | derived hs' => cases hs.symm.trans hs'
    | given _ rest => exact ih rest

/-- What coming upon something does to the list. -/
def visit (sources : α → Option (List α)) (ordered : List α) (a : α) : List α :=
  if (sources a).isSome then ordered.erase a ++ [a] else ordered.erase a

/-- What stands first in the queue is dealt with first. -/
theorem Traverses.of_level {level queue ordered out : List α}
    (h : Traverses sources (queue ++ level.flatMap fun a => (sources a).getD [])
      (level.foldl (visit sources) ordered) out) :
    Traverses sources (level ++ queue) ordered out := by
  induction level generalizing queue ordered with
  | nil => simpa using h
  | cons a level ih =>
    rw [List.foldl_cons, List.flatMap_cons] at h
    rw [List.cons_append]
    cases hs : sources a with
    | some ps =>
      refine .derived hs ?_
      rw [List.append_assoc]
      exact ih (by simpa [visit, hs] using h)
    | none =>
      refine .given hs (ih ?_)
      simpa [visit, hs] using h

/-- The traversal comes to an end.  The bound on the ranks is a bound on the generations. -/
theorem traverses_encounters (hrank : ∀ c, ∀ p ∈ derivedFrom sources c, rank p < rank c) {n : Nat}
    {level : List α} (hlevel : ∀ a ∈ level, (sources a).isSome = true → rank a < n)
    (ordered : List α) :
    Traverses sources level ordered
      ((encounters sources n level).foldl (visit sources) ordered).reverse := by
  induction n generalizing level ordered with
  | zero =>
    -- there are no results, and so no parents
    have hnil : (level.flatMap fun a => (sources a).getD []) = [] := by
      refine List.flatMap_eq_nil_iff.mpr fun a ha => ?_
      cases hs : sources a with
      | none => rfl
      | some ps => exact absurd (hlevel a ha (by simp [hs])) (Nat.not_lt_zero _)
    have hlast : Traverses sources (level ++ []) ordered
        (level.foldl (visit sources) ordered).reverse := by
      refine Traverses.of_level ?_
      rw [hnil]
      exact .done
    rwa [List.append_nil] at hlast
  | succ n ih =>
    rw [encounters, List.foldl_append, ← List.append_nil level]
    refine Traverses.of_level ?_
    rw [List.append_nil]
    refine ih (fun p hp hderived => ?_) _
    obtain ⟨a, ha, hpa⟩ := List.mem_flatMap.mp hp
    cases hs : sources a with
    | none => simp [hs] at hpa
    | some ps =>
      have hmem : p ∈ derivedFrom sources a := by
        refine List.mem_filter.mpr ⟨List.mem_reverse.mpr hpa, hderived⟩
      exact Nat.lt_of_lt_of_le (hrank a p hmem) (Nat.le_of_lt_succ (hlevel a ha (by simp [hs])))

variable [EquivBEq α]

/-- The list read backwards has the results that were come upon, the last encounter of each. -/
theorem reverse_foldl_visit (hcongr : ∀ a b, (a == b) = true → sources a = sources b)
    (as : List α) :
    (as.foldl (visit sources) []).reverse =
      dedup (as.reverse.filter fun a => (sources a).isSome) := by
  induction as using List.reverseRecOn with
  | nil => rfl
  | append_singleton as a ih =>
    rw [List.foldl_append, List.foldl_cons, List.foldl_nil, List.reverse_append,
      List.reverse_singleton, List.singleton_append, List.filter_cons]
    generalize as.foldl (visit sources) [] = ordered at ih ⊢
    have hdistinct : Distinct ordered := by
      have hreverse : Distinct ordered.reverse := ih ▸ pairwise_dedup _
      exact (List.pairwise_reverse.mp hreverse).imp BEq.symm_false
    have herase : (ordered.erase a).reverse = ordered.reverse.filter fun b => !(a == b) := by
      rw [erase_eq_filter hdistinct, List.filter_reverse]
    unfold visit
    split
    next =>
      rw [List.reverse_append, List.reverse_singleton, List.singleton_append, herase, ih, dedup]
    next hnone =>
      -- what is not a result is not on the list
      rw [herase, ← ih]
      refine List.filter_eq_self.mpr fun b hb => ?_
      rw [ih] at hb
      have hb := (List.mem_filter.mp (mem_of_mem_dedup hb)).2
      cases hab : a == b with
      | false => rfl
      | true => exact absurd (hcongr a b hab ▸ hb) hnone

/-- The traversal from a result ends with the list of its ancestors. -/
theorem traverses_ancestry (hcongr : ∀ a b, (a == b) = true → sources a = sources b)
    (hrank : ∀ c, ∀ p ∈ derivedFrom sources c, rank p < rank c) {n : Nat} {a : α}
    (ha : (sources a).isSome = true) (hn : rank a < n) :
    Traverses sources [a] [] (ancestry (derivedFrom sources) n [a]) := by
  have hparents : ∀ a b, (a == b) = true → derivedFrom sources a = derivedFrom sources b :=
    fun a b hab => by rw [derivedFrom, hcongr a b hab, derivedFrom]
  have hend : Traverses sources [a] []
      ((encounters sources n [a]).foldl (visit sources) []).reverse :=
    traverses_encounters hrank (fun b hb _ => List.mem_singleton.mp hb ▸ hn) []
  rwa [reverse_foldl_visit hcongr, filter_reverse_encounters, List.reverse_singleton,
    List.filter_cons_of_pos (p := fun a => (sources a).isSome) ha, List.filter_nil,
    ← ancestry_eq_dedup_lineage hparents] at hend

end Traversal

/-! ## Section 4: Results in order -/

/-- Results in an order in which they can be derived: `keys` has all results, each once, and every
    result comes after those of its parents that are results. -/
structure Ordered (sources : α → Option (List α)) (keys : List α) : Prop where
  distinct : Distinct keys
  congr : ∀ a b, (a == b) = true → sources a = sources b
  derived : ∀ a, (sources a).isSome = true ↔ ∃ b ∈ keys, (b == a) = true
  earlier : ∀ a, ∀ p ∈ derivedFrom sources a,
    ∃ l b l', keys = l ++ b :: l' ∧ (b == a) = true ∧ p ∈ l

namespace Ordered

variable {sources : α → Option (List α)} {keys : List α} {a p : α}

theorem derivedFrom_congr (h : Ordered sources keys) (a b : α) (hab : (a == b) = true) :
    derivedFrom sources a = derivedFrom sources b := by
  rw [derivedFrom, h.congr a b hab, derivedFrom]

theorem mem_of_mem_derivedFrom (h : Ordered sources keys) (hp : p ∈ derivedFrom sources a) :
    p ∈ keys := by
  obtain ⟨l, b, l', rfl, -, hmem⟩ := h.earlier a p hp
  exact List.mem_append_left _ hmem

/-- The ancestors of a result are results. -/
theorem mem_of_mem_ancestry (h : Ordered sources keys) (ha : a ∈ keys) {n : Nat} {b : α}
    (hb : b ∈ ancestry (derivedFrom sources) n [a]) : b ∈ keys := by
  obtain ⟨c, hc, hreaches⟩ := exists_reaches_of_mem_generations (mem_of_mem_dedup hb)
  obtain rfl := List.mem_singleton.mp hc
  rcases Relation.ReflTransGen.cases_head hreaches with rfl | ⟨d, hstep, -⟩
  · exact ha
  · exact h.mem_of_mem_derivedFrom hstep

variable [EquivBEq α]

/-- The place in the order goes down from results to parents. -/
theorem findIdx_lt (h : Ordered sources keys) (a p : α) (hp : p ∈ derivedFrom sources a) :
    keys.findIdx (· == p) < keys.findIdx (· == a) := by
  obtain ⟨l, b, l', rfl, hbeq, hmem⟩ := h.earlier a p hp
  have hplace : (l ++ b :: l').findIdx (· == a) = (l ++ b :: l').findIdx (· == b) :=
    congrArg (l ++ b :: l').findIdx (funext fun c => (BEq.congr_right hbeq).symm)
  rw [hplace]
  exact h.distinct.findIdx_lt hmem

theorem findIdx_lt_length (ha : a ∈ keys) : ∀ b ∈ [a], keys.findIdx (· == b) < keys.length :=
  List.forall_mem_singleton.mpr (List.findIdx_lt_length_of_exists ⟨a, ha, BEq.rfl⟩)

/-- All results from which parents lead to a result are among its ancestors. -/
theorem mem_ancestry_of_reaches (h : Ordered sources keys) (ha : a ∈ keys) {c : α} (hc : c ∈ keys)
    (hreaches : Relation.ReflTransGen (fun p c => p ∈ derivedFrom sources c) c a) :
    c ∈ ancestry (derivedFrom sources) keys.length [a] := by
  obtain ⟨c', hc', hbeq⟩ := exists_mem_ancestry_of_reaches h.derivedFrom_congr h.findIdx_lt
    (findIdx_lt_length ha) List.mem_cons_self hreaches
  rwa [h.distinct.eq_of_beq hc (h.mem_of_mem_ancestry ha hc') hbeq]

/-- Parents come first. -/
theorem mem_of_ancestry_eq_append (h : Ordered sources keys) (ha : a ∈ keys) {l l' : List α} {c : α}
    (hsplit : ancestry (derivedFrom sources) keys.length [a] = l ++ c :: l')
    (hp : p ∈ derivedFrom sources c) : p ∈ l := by
  obtain ⟨p', hp', hbeq⟩ := exists_beq_of_ancestry_eq_append h.findIdx_lt (findIdx_lt_length ha)
    hsplit hp
  have hkey : p' ∈ keys := h.mem_of_mem_ancestry ha (hsplit ▸ List.mem_append_left _ hp')
  rwa [h.distinct.eq_of_beq (h.mem_of_mem_derivedFrom hp) hkey hbeq]

theorem exists_ancestry_eq_append (h : Ordered sources keys) (n : Nat) (a : α) :
    ∃ l, ancestry (derivedFrom sources) n [a] = l ++ [a] :=
  exists_ancestry_singleton h.derivedFrom_congr h.findIdx_lt n a

theorem traverses (h : Ordered sources keys) (ha : a ∈ keys) :
    Traverses sources [a] [] (ancestry (derivedFrom sources) keys.length [a]) :=
  traverses_ancestry h.congr h.findIdx_lt ((h.derived a).mpr ⟨a, ha, BEq.rfl⟩)
    (findIdx_lt_length ha a List.mem_cons_self)

end Ordered

end Clausal
