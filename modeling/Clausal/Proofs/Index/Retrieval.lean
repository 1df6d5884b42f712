import Clausal.Proofs.Index.Walks

/-!
# What a feature vector index finds

An index keeps every entry under the vector of its clause, and the entries of clauses whose literals
may merge also in a list.  As long as that list is complete, the clauses that a clause subsumes are
found as if all stored clauses had been tried.

The clauses that subsume a clause are found in the same way, with one exception: the walk skips a
clause that is equal to one in the list, although clauses may be equal when the literals of only one
of them merge.  That takes an ordinary atom with the name of equality beside an equation.

## Main definitions

- `FeatureIndex.Keyed`, `FeatureIndex.Consistent`: the entries of an index are where they belong
- `FeatureIndex.addAll`: storing several entries, one after the other
- `Entries.hides`: whether an entry is skipped

## Main statements

- `FeatureIndex.add_eq_ok`, `FeatureIndex.remove_eq_true`: what storing and dropping an entry change
- `FeatureIndex.subsumed_perm`, `FeatureIndex.subsuming_perm`
- `feature_retrieval_exact`: both retrievals against trying all stored clauses
-/

namespace Clausal

open scoped List

variable {φ α : Type} {s : FeatureScheme φ} {ix ix' : FeatureIndex φ α} {c q : Clause} {a : α}

namespace FeatureIndex

/-! ## Section 1: Entries and their paths -/

/-- Every entry is stored under the vector of its clause. -/
def Keyed (s : FeatureScheme φ) (ix : FeatureIndex φ α) : Prop :=
  ∀ i ∈ ix.root.items, i.1 = s.sorted i.2.1

theorem entries_empty : (empty : FeatureIndex φ α).entries = [] := rfl

theorem mem_entries {e : Clause × α} : e ∈ ix.entries ↔ ∃ p, (p, e) ∈ ix.root.items := by
  rw [entries, (entriesOf_perm ix.root).mem_iff, List.mem_map]
  constructor
  · rintro ⟨i, hi, rfl⟩
    exact ⟨i.1, hi⟩
  · rintro ⟨p, hp⟩
    exact ⟨_, hp, rfl⟩

theorem entries_perm_cons {p : List (Component φ)} {e : Clause × α}
    (h : ix'.root.items ~ (p, e) :: ix.root.items) : ix'.entries ~ e :: ix.entries :=
  calc ix'.entries
    _ ~ ix'.root.items.map Prod.snd := entriesOf_perm ix'.root
    _ ~ e :: ix.root.items.map Prod.snd := h.map Prod.snd
    _ ~ e :: ix.entries := (entriesOf_perm ix.root).symm.cons e

/-- A condition on paths is one on the vectors of clauses. -/
theorem Keyed.filter_perm (h : ix.Keyed s) (p : List (Component φ) → Bool) :
    (ix.root.items.filter fun i => p i.1).map Prod.snd ~
      ix.entries.filter fun e => p (s.sorted e.1) := by
  have hpath : ix.root.items.filter (fun i => p i.1) =
      ix.root.items.filter ((fun e : Clause × α => p (s.sorted e.1)) ∘ Prod.snd) := by
    refine List.filter_congr fun i hi => ?_
    rw [h i hi]
    rfl
  rw [hpath, ← List.filter_map]
  exact ((entriesOf_perm ix.root).filter _).symm

/-! ## Section 2: Retrieval -/

/-- The walk below the vector of a clause finds the entries whose vectors it reaches. -/
theorem Keyed.belowVector_perm (hs : s.Lawful) (h : ix.Keyed s) (q : Clause) :
    belowVector s (s.sorted q) ix.root ~
      ix.entries.filter fun e => reachesBelow s (s.sorted q) (s.sorted e.1) := by
  have := hs.trans
  have := hs.lawfulEq
  refine (FeatureIndex.belowVector_perm (FeatureScheme.pairwise_sorted hs q) ix.root).trans ?_
  exact h.filter_perm (reachesBelow s (s.sorted q))

/-- An entry is found if its clause subsumes the given one and it is in the list, or the walk
    reaches it and no entry of the list is equal to it. -/
theorem Keyed.mem_subsuming [DecidableEq φ] (hs : s.Lawful) (h : ix.Keyed s) {e : Clause × α} :
    e ∈ ix.subsuming s q ↔ e.1.subsumes q = true ∧
      (e ∈ ix.merging ∨ e ∈ ix.entries ∧ reachesBelow s (s.sorted q) (s.sorted e.1) = true ∧
        ∀ m ∈ ix.merging, (m.1 == e.1) = false) := by
  have hwalk := (h.belowVector_perm hs q).mem_iff (a := e)
  rw [List.mem_filter] at hwalk
  simp only [subsuming, List.mem_append, List.mem_filter, hwalk, Bool.and_eq_true,
    Bool.not_eq_true', List.any_eq_false, Bool.not_eq_true]
  constructor
  · rintro (⟨hreached, hne, hsub⟩ | ⟨hlisted, hsub⟩)
    · exact ⟨hsub, Or.inr ⟨hreached.1, hreached.2, hne⟩⟩
    · exact ⟨hsub, Or.inl hlisted⟩
  · rintro ⟨hsub, hlisted | ⟨hstored, hreached, hne⟩⟩
    · exact Or.inr ⟨hlisted, hsub⟩
    · exact Or.inl ⟨⟨hstored, hreached⟩, hne, hsub⟩

theorem reachesBelow_sorted [DecidableEq φ] (hs : s.Lawful) (h : s.Dominates q c) :
    reachesBelow s (s.sorted q) (s.sorted c) = true := by
  have := hs.trans
  apply reachesBelow_of_dominated (FeatureScheme.pairwise_sorted hs q)
    (FeatureScheme.pairwise_sorted hs c)
  intro e he
  exact h.exists_mem_sorted hs he

private theorem reachesAbove_sorted [DecidableEq φ] (hs : s.Lawful) (h : s.Dominates c q) :
    reachesAbove s (s.sorted c) (s.sorted q) = true := by
  have := hs.trans
  have := hs.lawfulEq
  apply reachesAbove_of_dominated (FeatureScheme.pairwise_sorted hs c)
    (FeatureScheme.pairwise_sorted hs q)
  intro e he
  exact h.exists_mem_sorted hs he

/-- The stored clauses that a clause subsumes are all found, each once. -/
theorem Keyed.subsumed_perm [DecidableEq φ] (hs : s.Lawful) (h : ix.Keyed s)
    (hdom : ∀ e ∈ ix.entries, q.hasUnifiableLiterals = false → q.subsumes e.1 = true →
      s.Dominates e.1 q) :
    ix.subsumed s q ~ ix.entries.filter fun e => q.subsumes e.1 := by
  unfold subsumed
  cases hmerge : q.hasUnifiableLiterals with
  | true => exact List.Perm.refl _
  | false =>
    have hwalk := (aboveVector_perm ix.root (s.sorted q)).trans
      (h.filter_perm fun p => reachesAbove s p (s.sorted q))
    have hreached : ∀ e ∈ ix.entries,
        (q.subsumes e.1 && reachesAbove s (s.sorted e.1) (s.sorted q)) = q.subsumes e.1 := by
      intro e he
      cases hsub : q.subsumes e.1 with
      | true => rw [reachesAbove_sorted hs (hdom e he hmerge hsub), Bool.and_self]
      | false => rfl
    refine (hwalk.filter _).trans ?_
    rw [List.filter_filter, List.filter_congr hreached]

/-- The entries of an index are where they belong, they are found there, and the list of clauses
    whose literals may merge is complete. -/
structure Consistent [DecidableEq φ] (s : FeatureScheme φ) (ix : FeatureIndex φ α) : Prop where
  keyed : ix.Keyed s
  unique : ix.root.children.Unique
  merging : ix.merging ~ ix.entries.filter fun e => e.1.hasUnifiableLiterals

theorem keyed_empty (s : FeatureScheme φ) : (empty : FeatureIndex φ α).Keyed s := by
  intro i hi
  cases hi

theorem consistent_empty [DecidableEq φ] (s : FeatureScheme φ) :
    (empty : FeatureIndex φ α).Consistent s :=
  ⟨keyed_empty s, trivial, List.Perm.refl _⟩

end FeatureIndex

/-- Whether an entry is skipped: its literals do not merge, but those of an equal clause do. -/
def Entries.hides (es : Entries α) (c : Clause) : Bool :=
  !c.hasUnifiableLiterals && es.any fun e => e.1.hasUnifiableLiterals && e.1 == c

theorem Entries.hides_eq_false_iff {es : Entries α} : es.hides c = false ↔
    (c.hasUnifiableLiterals = false →
      ∀ e ∈ es, e.1.hasUnifiableLiterals = true → (e.1 == c) = false) := by
  simp [hides]

private theorem Entries.hides_congr {es es' : Entries α} (h : es ~ es') (c : Clause) :
    es.hides c = es'.hides c := by
  rw [hides, hides, h.any_eq]

/-- Where equality has its name to itself, no entry is skipped. -/
theorem Entries.hides_eq_false_of_proper {es : Entries α} (hes : ∀ e ∈ es, e.1.Proper)
    (hc : c.Proper) : es.hides c = false := by
  rw [hides_eq_false_iff]
  intro hmerge e he hmerge'
  exact Clause.beq_eq_false_of_hasUnifiableLiterals (hes e he) hc hmerge' hmerge

namespace FeatureIndex

/-- The stored clauses that subsume a clause are found, each once, except for those skipped. -/
theorem Consistent.subsuming_perm [DecidableEq φ] (hs : s.Lawful) (h : ix.Consistent s)
    (hdom : ∀ e ∈ ix.entries, e.1.hasUnifiableLiterals = false → e.1.subsumes q = true →
      s.Dominates q e.1) :
    ix.subsuming s q ~ ix.entries.filter fun e => e.1.subsumes q && !ix.entries.hides e.1 := by
  have hmem : ∀ m, m ∈ ix.merging ↔ m ∈ ix.entries ∧ m.1.hasUnifiableLiterals = true := by
    intro m
    rw [h.merging.mem_iff, List.mem_filter]
  have hlisted := (h.merging.filter fun e => e.1.subsumes q)
  have hwalked := ((h.keyed.belowVector_perm hs q).filter fun e =>
    !(ix.merging.any fun m => m.1 == e.1) && e.1.subsumes q)
  rw [List.filter_filter] at hlisted hwalked
  refine (hwalked.append hlisted).trans (List.Perm.trans (filter_or_perm ?_).symm ?_)
  · -- what the walk finds is not in the list
    intro e he hwalk
    have hne : ix.merging.any (fun m => m.1 == e.1) = false := by
      simp at hwalk
      simpa using hwalk.1.1
    by_contra hlist
    have hmerge : e.1.hasUnifiableLiterals = true := by
      simp at hlist
      exact hlist.2
    have hself := List.any_eq_false.mp hne e ((hmem e).mpr ⟨he, hmerge⟩)
    exact hself BEq.rfl
  · -- and the two together find all but what is skipped
    refine List.Perm.of_eq (List.filter_congr fun e he => ?_)
    cases hsub : e.1.subsumes q with
    | false => simp
    | true =>
      cases hmerge : e.1.hasUnifiableLiterals with
      | true => simp [Entries.hides, hmerge]
      | false =>
        have hany : (ix.merging.any fun m => m.1 == e.1) = ix.entries.hides e.1 := by
          rw [h.merging.any_eq, List.any_filter, Entries.hides, hmerge, Bool.not_false,
            Bool.true_and]
        rw [hany, reachesBelow_sorted hs (hdom e he hmerge hsub)]
        simp

/-! ## Section 3: Storing and dropping entries -/

variable [DecidableEq φ]

theorem contains_iff : ix.contains s c = true ↔
    ∃ es, ix.root.get? (s.sorted c) = some es ∧ (es.find? c).isSome = true := by
  unfold contains find?
  cases ix.root.get? (s.sorted c) with
  | none => simp
  | some es => simp

/-- Making the nodes on the way to a clause does not change whether a variant of it is found. -/
theorem contains_alter_id (s : FeatureScheme φ) (ix : FeatureIndex φ α) (c : Clause) :
    contains s { ix with root := ix.root.alter [] id (s.sorted c) } c = ix.contains s c := by
  unfold contains find?
  rw [Trie.get?_alter]
  cases ix.root.get? (s.sorted c) <;> rfl

/-- What storing an entry does.  If it is refused, then all nodes on the way were there before. -/
theorem tryAdd_eq (s : FeatureScheme φ) (ix : FeatureIndex φ α) (c : Clause) (a : α) :
    ix.tryAdd s c a =
      if c.isEmpty then (.error .emptyClause, ix)
      else if ix.contains s c then (.error .present, ix)
      else (.ok (),
        { root := ix.root.alter [] (· ++ [(c, a)]) (s.sorted c)
          merging := if c.hasUnifiableLiterals then ix.merging ++ [(c, a)] else ix.merging }) := by
  unfold tryAdd
  dsimp only
  rw [contains_alter_id, Trie.alter_alter]
  cases hcontains : ix.contains s c with
  | false => rfl
  | true =>
    obtain ⟨es, hes, -⟩ := contains_iff.mp hcontains
    rw [Trie.alter_id hes]
    rfl

theorem add_eq (s : FeatureScheme φ) (ix : FeatureIndex φ α) (c : Clause) (a : α) :
    ix.add s c a =
      if c.isEmpty then .error .emptyClause
      else if ix.contains s c then .error .present
      else .ok
        { root := ix.root.alter [] (· ++ [(c, a)]) (s.sorted c)
          merging := if c.hasUnifiableLiterals then ix.merging ++ [(c, a)] else ix.merging } := by
  unfold add
  rw [tryAdd_eq]
  cases c.isEmpty with
  | true => rfl
  | false => cases ix.contains s c <;> rfl

theorem tryAdd_eq_ok_iff : ix.tryAdd s c a = (.ok (), ix') ↔ ix.add s c a = .ok ix' := by
  unfold add
  cases ix.tryAdd s c a with
  | mk answer ix₁ => cases answer <;> simp

theorem add_eq_ok_iff : ix.add s c a = .ok ix' ↔
    c.isEmpty = false ∧ ix.contains s c = false ∧ ix' =
      { root := ix.root.alter [] (· ++ [(c, a)]) (s.sorted c)
        merging := if c.hasUnifiableLiterals then ix.merging ++ [(c, a)] else ix.merging } := by
  rw [add_eq]
  cases c.isEmpty with
  | true => simp
  | false =>
    cases ix.contains s c with
    | true => simp
    | false =>
      simp only [Bool.false_eq_true, if_false, Except.ok.injEq, true_and]
      exact eq_comm

/-- What storing an entry changes. -/
theorem add_eq_ok (h : ix.add s c a = .ok ix') :
    c.isEmpty = false ∧ ix.contains s c = false ∧
      ix'.root.items ~ (s.sorted c, c, a) :: ix.root.items ∧
      ix'.merging = (if c.hasUnifiableLiterals then ix.merging ++ [(c, a)] else ix.merging) ∧
      (ix.root.children.Unique → ix'.root.children.Unique) := by
  obtain ⟨hempty, hnew, rfl⟩ := add_eq_ok_iff.mp h
  refine ⟨hempty, hnew, ?_, rfl, fun hunique => ?_⟩
  · exact Trie.items_alter ix.root (s.sorted c) (c, a)
  · exact Trie.unique_alter hunique _ _ _

theorem Keyed.add (h : ix.Keyed s) (hadd : ix.add s c a = .ok ix') : ix'.Keyed s := by
  obtain ⟨-, -, hitems, -⟩ := add_eq_ok hadd
  intro i hi
  rcases List.mem_cons.mp (hitems.mem_iff.mp hi) with rfl | hi
  · rfl
  · exact h i hi

theorem Consistent.add (h : ix.Consistent s) (hadd : ix.add s c a = .ok ix') :
    ix'.Consistent s := by
  obtain ⟨-, -, hitems, hmerging, hunique⟩ := add_eq_ok hadd
  refine ⟨h.keyed.add hadd, hunique h.unique, ?_⟩
  have hentries := (entries_perm_cons hitems).filter fun e => e.1.hasUnifiableLiterals
  rw [hmerging]
  refine List.Perm.trans ?_ hentries.symm
  rw [List.filter_cons]
  split
  next => exact List.perm_append_comm.trans (h.merging.cons (c, a))
  next => exact h.merging

/-- The first variant at the node of the vector is dropped, if there is one. -/
theorem exists_prune_of_contains (h : ix.contains s c = true) : ∃ root e,
    ix.root.prune List.isEmpty (Entries.erase? c) (s.sorted c) = some root ∧
      e.1.isVariantOf c = true ∧ ix.root.items ~ (s.sorted c, e) :: root.items := by
  obtain ⟨es, hes, hfound⟩ := contains_iff.mp h
  obtain ⟨k, hk, hvariant⟩ := List.find?_isSome.mp hfound
  obtain ⟨e, es₁, es₂, -, he, hsplit, herase⟩ :=
    List.exists_of_eraseP (p := fun e => e.1.isVariantOf c) hk hvariant
  have hrest : Entries.erase? c es = some (es₁ ++ es₂) := by
    rw [← herase]
    exact if_pos hfound
  have hperm : es ~ e :: (es₁ ++ es₂) := by
    rw [hsplit]
    exact List.perm_middle
  obtain ⟨root, hprune, hitems⟩ := Trie.exists_prune hes hrest hperm
  exact ⟨root, e, hprune, he, hitems⟩

theorem remove_of_not_contains (h : ix.contains s c = false) : ix.remove s c = (false, ix) := by
  have hnone : ix.root.prune List.isEmpty (Entries.erase? c) (s.sorted c) = none := by
    refine Trie.prune_eq_none fun es hes => if_neg fun hfound => ?_
    rw [contains_iff.mpr ⟨es, hes, hfound⟩] at h
    cases h
  rw [remove, hnone]

theorem remove_eq_true_iff : ix.remove s c = (true, ix') ↔
    ∃ root, ix.root.prune List.isEmpty (Entries.erase? c) (s.sorted c) = some root ∧
      ix' = { root, merging := ix.merging.filter fun e => !e.1.isVariantOf c } := by
  unfold remove
  cases ix.root.prune List.isEmpty (Entries.erase? c) (s.sorted c) <;> simp [eq_comm]

/-- What dropping an entry changes. -/
theorem remove_eq_true (h : ix.remove s c = (true, ix')) :
    (∃ e, e.1.isVariantOf c = true ∧ ix.root.items ~ (s.sorted c, e) :: ix'.root.items) ∧
      ix'.merging = (ix.merging.filter fun e => !e.1.isVariantOf c) ∧
      (ix.root.children.Unique → ix'.root.children.Unique) := by
  cases hcontains : ix.contains s c with
  | false =>
    rw [remove_of_not_contains hcontains] at h
    cases h
  | true =>
    obtain ⟨root, e, hprune, he, hitems⟩ := exists_prune_of_contains hcontains
    obtain ⟨root', hprune', rfl⟩ := remove_eq_true_iff.mp h
    obtain rfl := Option.some.inj (hprune.symm.trans hprune')
    exact ⟨⟨e, he, hitems⟩, rfl, fun hunique => Trie.unique_prune hunique hprune⟩

theorem Keyed.remove (h : ix.Keyed s) (hremove : ix.remove s c = (true, ix')) : ix'.Keyed s := by
  obtain ⟨e, -, hitems⟩ := (remove_eq_true hremove).1
  intro i hi
  exact h i (hitems.mem_iff.mpr (List.mem_cons_of_mem _ hi))

theorem remove_of_contains (h : ix.contains s c = true) :
    ∃ ix', ix.remove s c = (true, ix') := by
  obtain ⟨root, e, hprune, -, -⟩ := exists_prune_of_contains h
  exact ⟨_, remove_eq_true_iff.mpr ⟨root, hprune, rfl⟩⟩

/-- A clause is found if a variant of it is stored under the same vector. -/
theorem Keyed.exists_of_contains (h : ix.Keyed s) (hcontains : ix.contains s c = true) :
    ∃ e ∈ ix.entries, e.1.isVariantOf c = true ∧ s.sorted e.1 = s.sorted c := by
  obtain ⟨ix', hix'⟩ := remove_of_contains hcontains
  obtain ⟨⟨e, he, hitems⟩, -, -⟩ := remove_eq_true hix'
  have hmem : (s.sorted c, e) ∈ ix.root.items := hitems.mem_iff.mpr List.mem_cons_self
  exact ⟨e, mem_entries.mpr ⟨_, hmem⟩, he, (h _ hmem).symm⟩

/-- A stored clause is found by each of its variants with the same vector. -/
theorem Keyed.contains_of_mem (h : ix.Keyed s) (hunique : ix.root.children.Unique)
    {e : Clause × α} (he : e ∈ ix.entries) (hvariant : e.1.isVariantOf c = true)
    (hsorted : s.sorted e.1 = s.sorted c) : ix.contains s c = true := by
  obtain ⟨p, hp⟩ := mem_entries.mp he
  obtain ⟨es, hes, hmem⟩ := Trie.exists_get?_of_mem_items hunique hp
  obtain rfl : p = s.sorted c := (h _ hp).trans hsorted
  exact contains_iff.mpr ⟨es, hes, List.find?_isSome.mpr ⟨e, hmem, hvariant⟩⟩

/-- A stored clause is found under its own vector. -/
theorem Consistent.contains (h : ix.Consistent s) {e : Clause × α} (he : e ∈ ix.entries) :
    ix.contains s e.1 = true :=
  h.keyed.contains_of_mem h.unique he e.1.isVariantOf_self rfl

/-- A clause can be stored if no variant of it is stored under the same vector. -/
theorem Keyed.exists_add (h : ix.Keyed s) (hempty : c.isEmpty = false)
    (hnew : ∀ e ∈ ix.entries, e.1.isVariantOf c = true → s.sorted e.1 ≠ s.sorted c) (a : α) :
    ∃ ix', ix.add s c a = .ok ix' := by
  have hcontains : ix.contains s c = false := by
    by_contra hcontains
    obtain ⟨e, he, hvariant, hsorted⟩ :=
      h.exists_of_contains (Bool.eq_true_of_not_eq_false hcontains)
    exact hnew e he hvariant hsorted
  rw [add_eq, hempty, hcontains]
  exact ⟨_, rfl⟩

/-- Store several entries, one after the other, unless one of them is refused. -/
def addAll (s : FeatureScheme φ) :
    Entries α → FeatureIndex φ α → Except IndexError (FeatureIndex φ α)
  | [], ix => .ok ix
  | e :: es, ix =>
    match ix.add s e.1 e.2 with
    | .error x => .error x
    | .ok ix => addAll s es ix

theorem addAll_cons_eq_ok {e : Clause × α} {es : Entries α} :
    addAll s (e :: es) ix = .ok ix' ↔
      ∃ ix₁, ix.add s e.1 e.2 = .ok ix₁ ∧ addAll s es ix₁ = .ok ix' := by
  rw [addAll]
  cases ix.add s e.1 e.2 with
  | error x => simp
  | ok ix₁ => simp

private theorem Consistent.addAll {es : Entries α} (h : ix.Consistent s)
    (hadd : FeatureIndex.addAll s es ix = .ok ix') :
    ix'.Consistent s ∧ ix'.entries ~ es ++ ix.entries := by
  induction es generalizing ix with
  | nil =>
    obtain rfl := Except.ok.inj hadd
    exact ⟨h, List.Perm.refl _⟩
  | cons e es ih =>
    obtain ⟨ix₁, hix₁, hadd⟩ := addAll_cons_eq_ok.mp hadd
    obtain ⟨hconsistent, hentries⟩ := ih (h.add hix₁) hadd
    obtain ⟨-, -, hitems, -⟩ := add_eq_ok hix₁
    refine ⟨hconsistent, hentries.trans ?_⟩
    exact ((entries_perm_cons hitems).append_left es).trans List.perm_middle

/-- An index built by storing entries holds these entries. -/
theorem consistent_of_addAll {es : Entries α} (h : addAll s es empty = .ok ix) :
    ix.Consistent s ∧ ix.entries ~ es := by
  obtain ⟨hconsistent, hentries⟩ := (consistent_empty s).addAll h
  rw [entries_empty, List.append_nil] at hentries
  exact ⟨hconsistent, hentries⟩

private theorem Keyed.exists_addAll {es : Entries α} (h : ix.Keyed s)
    (hempty : ∀ e ∈ es, e.1.isEmpty = false)
    (hes : es.Pairwise fun e e' => e.1.isVariantOf e'.1 = true → s.sorted e.1 ≠ s.sorted e'.1)
    (hnew : ∀ k ∈ ix.entries, ∀ e ∈ es, k.1.isVariantOf e.1 = true →
      s.sorted k.1 ≠ s.sorted e.1) :
    ∃ ix', FeatureIndex.addAll s es ix = .ok ix' := by
  induction es generalizing ix with
  | nil => exact ⟨ix, rfl⟩
  | cons e es ih =>
    obtain ⟨he, hempty⟩ := List.forall_mem_cons.mp hempty
    obtain ⟨hlater, hes⟩ := List.pairwise_cons.mp hes
    obtain ⟨ix₁, hix₁⟩ := h.exists_add he (fun k hk => hnew k hk e List.mem_cons_self) e.2
    obtain ⟨-, -, hitems, -⟩ := add_eq_ok hix₁
    have hrest : ∀ k ∈ ix₁.entries, ∀ e' ∈ es, k.1.isVariantOf e'.1 = true →
        s.sorted k.1 ≠ s.sorted e'.1 := by
      intro k hk e' he'
      rcases List.mem_cons.mp ((entries_perm_cons hitems).mem_iff.mp hk) with rfl | hk
      · exact hlater e' he'
      · exact hnew k hk e' (List.mem_cons_of_mem _ he')
    obtain ⟨ix', hix'⟩ := ih (h.add hix₁) hempty hes hrest
    exact ⟨ix', addAll_cons_eq_ok.mpr ⟨ix₁, hix₁, hix'⟩⟩

/-- Clauses can be stored one after the other if variants among them have different vectors. -/
theorem exists_addAll_empty {es : Entries α} (hempty : ∀ e ∈ es, e.1.isEmpty = false)
    (hes : es.Pairwise fun e e' => e.1.isVariantOf e'.1 = true → s.sorted e.1 ≠ s.sorted e'.1) :
    ∃ ix, addAll s es empty = .ok ix := by
  apply (keyed_empty s).exists_addAll hempty hes
  intro k hk
  cases hk

/-- What is found among the entries that an index was built from. -/
theorem subsuming_addAll_perm (hs : s.Lawful) {es : Entries α}
    (hix : addAll s es empty = .ok ix) (q : Clause)
    (hdom : ∀ e ∈ es, e.1.hasUnifiableLiterals = false → e.1.subsumes q = true →
      s.Dominates q e.1) :
    ix.subsuming s q ~ es.filter fun e => e.1.subsumes q && !es.hides e.1 := by
  obtain ⟨hconsistent, hentries⟩ := consistent_of_addAll hix
  refine (hconsistent.subsuming_perm hs fun e he => hdom e (hentries.mem_iff.mp he)).trans ?_
  simp only [Entries.hides_congr hentries]
  exact hentries.filter _

private theorem subsumed_addAll_perm (hs : s.Lawful) {es : Entries α}
    (hix : addAll s es empty = .ok ix) (q : Clause)
    (hdom : q.hasUnifiableLiterals = false → ∀ d, q.subsumes d = true → s.Dominates d q) :
    ix.subsumed s q ~ es.filter fun e => q.subsumes e.1 := by
  obtain ⟨hconsistent, hentries⟩ := consistent_of_addAll hix
  exact (hconsistent.keyed.subsumed_perm hs fun e _ hmerge => hdom hmerge e.1).trans
    (hentries.filter _)

end FeatureIndex

/-! ## Section 4: Retrieval and brute force -/

/-- In an index built by storing entries, the clauses that a clause subsumes are found as if all had
    been tried, each once.  So are the clauses that subsume it, except for those that are skipped;
    and none is skipped if equality has its name to itself.  The vectors have to go up along
    subsumption by these clauses: depths do so for all clauses, and counts for those in which
    equality has its name to itself. -/
theorem feature_retrieval_exact [DecidableEq φ] (s : FeatureScheme φ) (hs : s.Lawful)
    (es : Entries α) (q : Clause)
    (hdom : ∀ c ∈ q :: es.map Prod.fst, c.hasUnifiableLiterals = false →
      ∀ d, c.subsumes d = true → s.Dominates d c)
    (ix : FeatureIndex φ α) (hix : FeatureIndex.addAll s es FeatureIndex.empty = .ok ix) :
    ix.subsumed s q ~ (es.filter fun e => q.subsumes e.1) ∧
      ix.subsuming s q ~ (es.filter fun e => e.1.subsumes q && !es.hides e.1) ∧
      ((∀ e ∈ es, e.1.Proper) → ix.subsuming s q ~ es.filter fun e => e.1.subsumes q) := by
  obtain ⟨hquery, hstored⟩ := List.forall_mem_cons.mp hdom
  have hsubsuming := FeatureIndex.subsuming_addAll_perm hs hix q fun e he hmerge =>
    hstored e.1 (List.mem_map_of_mem he) hmerge q
  refine ⟨FeatureIndex.subsumed_addAll_perm hs hix q hquery, hsubsuming, fun hproper => ?_⟩
  have hfound : es.filter (fun e => e.1.subsumes q && !es.hides e.1) =
      es.filter fun e => e.1.subsumes q := by
    refine List.filter_congr fun e he => ?_
    rw [Entries.hides_eq_false_of_proper hproper (hproper e he), Bool.not_false, Bool.and_true]
  exact hfound ▸ hsubsuming

/-- Stored clauses `p(X) ∨ p(Y)`, whose literals merge, `p(a) ∨ a = b ∨ r(X)` and `a = X`. -/
def marks : Entries Nat :=
  [(.ofList [⟨true, .pred (.name "p") [.var (.name "X")]⟩,
      ⟨true, .pred (.name "p") [.var (.name "Y")]⟩], 1),
    (.ofList [⟨true, .pred (.name "p") [.const (.name "a")]⟩,
      ⟨true, .eq (.const (.name "a")) (.const (.name "b"))⟩,
      ⟨true, .pred (.name "r") [.var (.name "X")]⟩], 2),
    (.ofList [⟨true, .eq (.const (.name "a")) (.var (.name "X"))⟩], 3)]

/-- The clause `p(a) ∨ b = a`. -/
def markedPair : Clause :=
  .ofList [⟨true, .pred (.name "p") [.const (.name "a")]⟩,
    ⟨true, .eq (.const (.name "b")) (.const (.name "a"))⟩]

theorem feature_retrieval_exact_marks :
    ∃ ix, FeatureIndex.addAll .symbolDepths marks .empty = .ok ix ∧
      (ix.subsumed .symbolDepths markedPair).map Prod.snd ~ [2] ∧
      (ix.subsuming .symbolDepths markedPair).map Prod.snd ~ [1, 3] := by
  obtain ⟨ix, hix⟩ : ∃ ix, FeatureIndex.addAll .symbolDepths marks .empty = .ok ix :=
    FeatureIndex.exists_addAll_empty (by decide +kernel) (by decide +kernel)
  obtain ⟨hsubsumed, -, hsubsuming⟩ := feature_retrieval_exact .symbolDepths
    FeatureScheme.lawful_symbolDepths marks markedPair
    (fun _ _ _ _ => Clause.dominates_symbolDepths) ix hix
  refine ⟨ix, hix, ?_, ?_⟩
  · exact (hsubsumed.map Prod.snd).trans (.of_eq (by decide +kernel))
  · exact ((hsubsuming (by decide +kernel)).map Prod.snd).trans (.of_eq (by decide +kernel))

/-- `=(a, b) ∨ s = t ∨ x ≠ y ∨ q(X)`, where the first atom is an ordinary one with the name of
    equality.  It unifies with the equation only if the sides are in the right order. -/
def besideEquation (s t x y : Term) : Clause :=
  .ofList [⟨true, .pred .equality [.const (.name "a"), .const (.name "b")]⟩, ⟨true, .eq s t⟩,
    ⟨false, .eq x y⟩, ⟨true, .pred (.name "q") [.var (.name "X")]⟩]

/-- The clause with its sides in the order in which the first two literals merge. -/
def mergingOrder : Clause :=
  besideEquation (.const (.name "a")) (.const (.name "b")) (.var (.name "X")) (.var (.name "Y"))

/-- An equal clause in the other order.  That the negative equation is turned round as well keeps the
    two from being variants. -/
def otherOrder : Clause :=
  besideEquation (.const (.name "b")) (.const (.name "a")) (.var (.name "Y")) (.var (.name "X"))

/-- A stored clause that subsumes itself is skipped when it is asked for. -/
theorem feature_retrieval_skips :
    ¬ ∀ (s : FeatureScheme Feature), s.Lawful →
      (∀ c d : Clause, c.hasUnifiableLiterals = false → c.subsumes d = true → s.Dominates d c) →
      ∀ (es : Entries Nat) (ix : FeatureIndex Feature Nat),
        FeatureIndex.addAll s es .empty = .ok ix →
        ∀ q, ix.subsuming s q ~ es.filter fun e => e.1.subsumes q := by
  intro h
  let equalPair : Entries Nat := [(mergingOrder, 1), (otherOrder, 2)]
  obtain ⟨ix, hix⟩ : ∃ ix, FeatureIndex.addAll .symbolDepths equalPair .empty = .ok ix :=
    FeatureIndex.exists_addAll_empty (by decide +kernel) (by decide +kernel)
  have hlawful := FeatureScheme.lawful_symbolDepths
  have hdom : ∀ c d : Clause, c.hasUnifiableLiterals = false → c.subsumes d = true →
      FeatureScheme.symbolDepths.Dominates d c := fun _ _ _ => Clause.dominates_symbolDepths
  have hskipped := FeatureIndex.subsuming_addAll_perm hlawful hix otherOrder fun e _ =>
    hdom e.1 otherOrder
  have hcount := (hskipped.symm.trans (h _ hlawful hdom equalPair ix hix otherOrder)).length_eq
  exact absurd hcount (by decide +kernel)

end Clausal
