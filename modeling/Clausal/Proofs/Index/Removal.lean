import Clausal.Proofs.Index.Retrieval

/-!
# What removal leaves

Dropping the entry of a clause takes one entry out of the trie, but all variants of the clause out
of the list of clauses whose literals may merge.  Variants are clauses of the same length that
subsume each other; they may have different vectors, and then a variant of the dropped clause stays
in the trie after it is gone from the list.  Where it subsumes a clause only by merging its literals,
it is no longer found.

All other entries are found as before.

## Main definitions

- `FeatureIndex.Reached`: indexes made by storing and dropping entries, with the entries that no
  removal has touched

## Main statements

- `FeatureIndex.Reached.tracks`: the list holds the entries that no removal has touched
- `removal_frame`: what is found after a removal
-/

namespace Clausal

open scoped List

namespace FeatureIndex

variable {φ α : Type} [DecidableEq φ] {s : FeatureScheme φ} {ix ix' : FeatureIndex φ α}
  {kept : Entries α} {c q : Clause} {e : Clause × α}

/-! ## Section 1: Sequences of calls -/

/-- An index made by storing and dropping entries, one after the other, and the entries of it that
    are untouched: no variant of them has been dropped since they were stored.  A call that fails
    changes nothing. -/
inductive Reached (s : FeatureScheme φ) : FeatureIndex φ α → Entries α → Prop
  | empty : Reached s empty []
  | add {ix ix' : FeatureIndex φ α} {kept : Entries α} {c : Clause} {a : α}
      (h : Reached s ix kept) (hadd : ix.add s c a = .ok ix') : Reached s ix' (kept ++ [(c, a)])
  | remove {ix ix' : FeatureIndex φ α} {kept : Entries α} {c : Clause}
      (h : Reached s ix kept) (hremove : ix.remove s c = (true, ix')) :
      Reached s ix' (kept.filter fun e => !e.1.isVariantOf c)

/-- Untouched entries are stored, and those whose literals may merge are the ones in the list. -/
structure Tracks (s : FeatureScheme φ) (ix : FeatureIndex φ α) (kept : Entries α) : Prop where
  keyed : ix.Keyed s
  stored : ∀ e ∈ kept, e ∈ ix.entries
  merging : ix.merging = kept.filter fun e => e.1.hasUnifiableLiterals

private theorem Tracks.add {a : α} (h : ix.Tracks s kept) (hadd : ix.add s c a = .ok ix') :
    ix'.Tracks s (kept ++ [(c, a)]) := by
  obtain ⟨-, -, hitems, hmerging, -⟩ := add_eq_ok hadd
  refine ⟨h.keyed.add hadd, fun e he => ?_, ?_⟩
  · rw [(entries_perm_cons hitems).mem_iff]
    rcases List.mem_append.mp he with he | he
    · exact List.mem_cons_of_mem _ (h.stored e he)
    · rw [List.mem_singleton.mp he]
      exact List.mem_cons_self
  · rw [hmerging, h.merging, List.filter_append, List.filter_singleton]
    cases c.hasUnifiableLiterals <;> simp

private theorem Tracks.remove (h : ix.Tracks s kept) (hremove : ix.remove s c = (true, ix')) :
    ix'.Tracks s (kept.filter fun e => !e.1.isVariantOf c) := by
  obtain ⟨⟨k, hk, hitems⟩, hmerging, -⟩ := remove_eq_true hremove
  refine ⟨h.keyed.remove hremove, fun e he => ?_, ?_⟩
  · -- the entry that is dropped is a variant, and those are touched
    obtain ⟨he, hvariant⟩ := List.mem_filter.mp he
    rcases List.mem_cons.mp ((entries_perm_cons hitems).mem_iff.mp (h.stored e he)) with rfl | he
    · rw [hk] at hvariant
      cases hvariant
    · exact he
  · rw [hmerging, h.merging, List.filter_filter, List.filter_filter]
    simp only [Bool.and_comm]

theorem Reached.tracks (h : Reached s ix kept) : ix.Tracks s kept := by
  induction h with
  | empty => exact ⟨keyed_empty s, by simp, rfl⟩
  | add _ hadd ih => exact ih.add hadd
  | remove _ hremove ih => exact ih.remove hremove

theorem Reached.addAll {es : Entries α} (h : Reached s ix kept)
    (hadd : FeatureIndex.addAll s es ix = .ok ix') : Reached s ix' (kept ++ es) := by
  induction es generalizing ix kept with
  | nil =>
    obtain rfl := Except.ok.inj hadd
    rwa [List.append_nil]
  | cons e es ih =>
    obtain ⟨ix₁, hix₁, hadd⟩ := addAll_cons_eq_ok.mp hadd
    have hreached := ih (h.add hix₁) hadd
    rwa [List.append_assoc] at hreached

/-! ## Section 2: What is found -/

/-- Untouched entries are found. -/
theorem Tracks.mem_subsuming_of_kept (hs : s.Lawful) (h : ix.Tracks s kept) (he : e ∈ kept)
    (hmerge : e.1.hasUnifiableLiterals = true) (hsub : e.1.subsumes q = true) :
    e ∈ ix.subsuming s q := by
  refine (h.keyed.mem_subsuming hs).mpr ⟨hsub, Or.inl ?_⟩
  rw [h.merging]
  exact List.mem_filter.mpr ⟨he, hmerge⟩

/-- Entries whose literals do not merge are found, touched or not. -/
theorem Tracks.mem_subsuming_of_dominates (hs : s.Lawful) (h : ix.Tracks s kept)
    (hproper : ∀ e ∈ ix.entries, e.1.Proper) (he : e ∈ ix.entries)
    (hmerge : e.1.hasUnifiableLiterals = false) (hsub : e.1.subsumes q = true)
    (hdom : s.Dominates q e.1) : e ∈ ix.subsuming s q := by
  refine (h.keyed.mem_subsuming hs).mpr
    ⟨hsub, Or.inr ⟨he, reachesBelow_sorted hs hdom, fun m hm => ?_⟩⟩
  -- an equal clause in the list would have literals that merge
  rw [h.merging] at hm
  obtain ⟨hm, hmerge'⟩ := List.mem_filter.mp hm
  exact Clause.beq_eq_false_of_hasUnifiableLiterals (hproper m (h.stored m hm)) (hproper e he)
    hmerge' hmerge

/-- What was found before a removal is found after it, unless it is gone or a variant of the removed
    clause whose literals may merge. -/
theorem Tracks.mem_subsuming_remove (hs : s.Lawful) (h : ix.Tracks s kept)
    (hremove : ix.remove s c = (true, ix')) (hfound : e ∈ ix.subsuming s q) (he : e ∈ ix'.entries)
    (hvariant : e.1.hasUnifiableLiterals = true → e.1.isVariantOf c = false) :
    e ∈ ix'.subsuming s q := by
  obtain ⟨-, hmerging, -⟩ := remove_eq_true hremove
  obtain ⟨hsub, hlisted | ⟨-, hreached, hne⟩⟩ := (h.keyed.mem_subsuming hs).mp hfound
  · refine ((h.keyed.remove hremove).mem_subsuming hs).mpr ⟨hsub, Or.inl ?_⟩
    have hmerge : e.1.hasUnifiableLiterals = true := by
      rw [h.merging] at hlisted
      exact (List.mem_filter.mp hlisted).2
    rw [hmerging]
    exact List.mem_filter.mpr ⟨hlisted, by rw [hvariant hmerge]; rfl⟩
  · refine ((h.keyed.remove hremove).mem_subsuming hs).mpr
      ⟨hsub, Or.inr ⟨he, hreached, fun m hm => hne m ?_⟩⟩
    rw [hmerging] at hm
    exact List.mem_of_mem_filter hm

end FeatureIndex

/-- After a removal one entry is gone, that of a variant of the removed clause.  What was found
    before is still found, unless it is a variant of the removed clause whose literals merge.  And
    whatever calls came before, a stored clause that subsumes another is found if its literals do not
    merge or no variant of it was removed since it was stored. -/
theorem removal_frame {α : Type} {ix ix' : FeatureIndex Feature α} {kept : Entries α}
    (hix : FeatureIndex.Reached .occurrences ix kept) {c : Clause}
    (hremove : ix.remove .occurrences c = (true, ix')) :
    (∃ e, e.1.isVariantOf c = true ∧ ix.entries ~ e :: ix'.entries) ∧
      (∀ q, ∀ e ∈ ix'.entries, e ∈ ix.subsuming .occurrences q →
        (e.1.hasUnifiableLiterals = true → e.1.isVariantOf c = false) →
        e ∈ ix'.subsuming .occurrences q) ∧
      ((∀ e ∈ ix'.entries, e.1.Proper) →
        ∀ q, ∀ e ∈ ix'.entries, e.1.subsumes q = true →
          (e.1.hasUnifiableLiterals = true → e ∈ kept ∧ e.1.isVariantOf c = false) →
          e ∈ ix'.subsuming .occurrences q) := by
  have hlawful := FeatureScheme.lawful_occurrences
  have htracks := hix.tracks
  refine ⟨?_, fun q e he hfound hvariant => ?_, fun hproper q e he hsub huntouched => ?_⟩
  · obtain ⟨⟨e, he, hitems⟩, -, -⟩ := FeatureIndex.remove_eq_true hremove
    exact ⟨e, he, FeatureIndex.entries_perm_cons hitems⟩
  · exact htracks.mem_subsuming_remove hlawful hremove hfound he hvariant
  · have htracks' := (hix.remove hremove).tracks
    cases hmerge : e.1.hasUnifiableLiterals with
    | false =>
      apply htracks'.mem_subsuming_of_dominates hlawful hproper he hmerge hsub
      exact Clause.dominates_occurrences (hproper e he).uniform hmerge hsub
    | true =>
      obtain ⟨hkept, hvariant⟩ := huntouched hmerge
      refine htracks'.mem_subsuming_of_kept hlawful (List.mem_filter.mpr ⟨hkept, ?_⟩) hmerge hsub
      rw [hvariant]
      rfl

/-- The clause `p(f(a)) ∨ p(t)`. -/
def withMark (t : Term) : Clause :=
  .ofList [⟨true, .pred (.name "p") [.app (.name "f") [.const (.name "a")]]⟩,
    ⟨true, .pred (.name "p") [t]⟩]

/-- The clause `p(f(a))`. -/
def onlyMark : Clause :=
  .ofList [⟨true, .pred (.name "p") [.app (.name "f") [.const (.name "a")]]⟩]

/-- The clause `p(X) ∨ p(Y)`. -/
def anyPair : Clause :=
  .ofList [⟨true, .pred (.name "p") [.var (.name "X")]⟩,
    ⟨true, .pred (.name "p") [.var (.name "Y")]⟩]

theorem removal_frame_anyPair :
    ∃ ix ix' : FeatureIndex Feature Nat,
      FeatureIndex.Reached .occurrences ix [(withMark (.var (.name "X")), 1), (anyPair, 2)] ∧
        ix.remove .occurrences (withMark (.var (.name "X"))) = (true, ix') ∧
        (anyPair, 2) ∈ ix'.subsuming .occurrences onlyMark := by
  let stored : Entries Nat := [(withMark (.var (.name "X")), 1), (anyPair, 2)]
  obtain ⟨ix, hix⟩ : ∃ ix, FeatureIndex.addAll .occurrences stored .empty = .ok ix :=
    FeatureIndex.exists_addAll_empty (by decide +kernel) (by decide +kernel)
  obtain ⟨hconsistent, hentries⟩ := FeatureIndex.consistent_of_addAll hix
  have hreached := FeatureIndex.Reached.empty.addAll hix
  have hfirst : (withMark (.var (.name "X")), 1) ∈ ix.entries := by
    rw [hentries.mem_iff]
    exact List.mem_cons_self
  have hsecond : (anyPair, 2) ∈ ix.entries := by
    rw [hentries.mem_iff]
    exact List.mem_cons_of_mem _ List.mem_cons_self
  obtain ⟨ix', hremove⟩ := FeatureIndex.remove_of_contains (hconsistent.contains hfirst)
  obtain ⟨⟨k, hk, hperm⟩, -, hfound⟩ := removal_frame hreached hremove
  -- the entry that is gone is a variant of the removed clause
  have hrest : (anyPair, 2) ∈ ix'.entries := by
    rcases List.mem_cons.mp (hperm.mem_iff.mp hsecond) with rfl | hmem
    · exact absurd hk (by decide +kernel)
    · exact hmem
  have hproper : ∀ e ∈ ix'.entries, e.1.Proper := by
    intro e he
    have hmem := hentries.mem_iff.mp (hperm.mem_iff.mpr (List.mem_cons_of_mem k he))
    have hall : ∀ e ∈ stored, e.1.Proper := by decide +kernel
    exact hall e hmem
  refine ⟨ix, ix', hreached, hremove, ?_⟩
  apply hfound hproper onlyMark _ hrest (by decide +kernel)
  intro _
  exact ⟨by simp [stored], by decide +kernel⟩

/-- The vector of `p(f(a)) ∨ p(f(X))` counts the function twice. -/
theorem mem_sorted_withMark_app : (Feature.mk (.name "f") true, 2) ∈
    FeatureScheme.occurrences.sorted (withMark (.app (.name "f") [.var (.name "X")])) :=
  FeatureScheme.mem_sorted.mpr (by decide +kernel)

/-- Variants `p(f(a)) ∨ p(X)` and `p(f(a)) ∨ p(f(X))`: when the first is removed, the second is
    still stored, but it is no longer found where it subsumes `p(f(a))`. -/
theorem removal_loses_variant :
    ¬ ∀ (ix ix' : FeatureIndex Feature Nat) (kept : Entries Nat) (c q : Clause),
      FeatureIndex.Reached .occurrences ix kept → ix.remove .occurrences c = (true, ix') →
      ∀ e ∈ ix'.entries, e.1.subsumes q = true → e ∈ ix'.subsuming .occurrences q := by
  intro h
  let first := withMark (.var (.name "X"))
  let second := withMark (.app (.name "f") [.var (.name "X")])
  have hlawful := FeatureScheme.lawful_occurrences
  have hsorted : FeatureScheme.occurrences.sorted first ≠
      FeatureScheme.occurrences.sorted second := by
    intro heq
    have hmem := mem_sorted_withMark_app
    rw [← heq, FeatureScheme.mem_sorted] at hmem
    exact absurd hmem.1 (by decide +kernel)
  let variants : Entries Nat := [(first, 1), (second, 2)]
  obtain ⟨ix, hix⟩ : ∃ ix, FeatureIndex.addAll .occurrences variants .empty = .ok ix :=
    FeatureIndex.exists_addAll_empty (by decide +kernel) (by simp [variants, hsorted])
  obtain ⟨hconsistent, hentries⟩ := FeatureIndex.consistent_of_addAll hix
  have hfirst : (first, 1) ∈ ix.entries := hentries.mem_iff.mpr List.mem_cons_self
  have hsecond : (second, 2) ∈ ix.entries :=
    hentries.mem_iff.mpr (List.mem_cons_of_mem _ List.mem_cons_self)
  obtain ⟨ix', hremove⟩ := FeatureIndex.remove_of_contains (hconsistent.contains hfirst)
  obtain ⟨⟨k, -, hitems⟩, hmerging, -⟩ := FeatureIndex.remove_eq_true hremove
  -- the entry that is dropped has the vector of the first clause
  have hrest : (second, 2) ∈ ix'.entries := by
    have hmem := (FeatureIndex.entries_perm_cons hitems).mem_iff.mp hsecond
    rcases List.mem_cons.mp hmem with rfl | hmem
    · exact absurd (hconsistent.keyed _ (hitems.mem_iff.mpr List.mem_cons_self)) hsorted
    · exact hmem
  have hfound := h ix ix' _ first onlyMark (FeatureIndex.Reached.empty.addAll hix) hremove _ hrest
    (by decide +kernel)
  obtain ⟨-, hlisted | ⟨-, hreached, -⟩⟩ :=
    ((hconsistent.keyed.remove hremove).mem_subsuming hlawful).mp hfound
  · -- both are gone from the list
    rw [hmerging] at hlisted
    exact absurd (List.mem_filter.mp hlisted).2 (by decide +kernel)
  · -- and the clause asked for has the function only once
    have := hlawful.lawfulEq
    obtain ⟨n, hn, hle⟩ := dominated_of_reachesBelow hreached _ mem_sorted_withMark_app
    have honce : ∀ e ∈ onlyMark.occurrences, e.1 = Feature.mk (.name "f") true → e.2 < 2 := by
      decide +kernel
    exact absurd (honce _ (FeatureScheme.mem_sorted.mp hn).1 rfl) (Nat.not_lt.mpr hle)

end Clausal
