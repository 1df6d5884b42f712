import Mathlib.Data.List.Flatten
import Mathlib.Data.List.Perm.Subperm
import Clausal.Index.Feature
import Clausal.Proofs.Subsumption

/-!
# Features grow along subsumption

The order of features is total and tells all of them apart, so that the sorted vector of a clause
ascends strictly.  A clause that subsumes another has no greater magnitude for any feature.  For
symbol depths that is always so; for occurrence counts the subsuming clause must not merge two of its
literals.

## Main definitions

- `magnitude`: the magnitude of a feature in a vector
- `FeatureScheme.Lawful`: what an index relies on
- `FeatureScheme.Dominates`: no magnitude of one clause is greater than that of another

## Main statements

- `FeatureScheme.pairwise_sorted`: sorted vectors ascend
- `FeatureScheme.lawful_occurrences`, `FeatureScheme.lawful_symbolDepths`
- `Clause.dominates_occurrences`, `Clause.dominates_symbolDepths`
-/

namespace Clausal

/-! ## Section 1: The order of features -/

private theorem Ident.code_injective {i j : Ident} (h : i.code = j.code) : i = j := by
  -- the number that stands for the place of origin
  have horigin : ∀ o o' : Option Nat,
      o.elim 0 (Int.ofNat · + 1) = o'.elim 0 (Int.ofNat · + 1) → o = o' := by
    intro o o' h
    cases o <;> cases o' <;> simp at h ⊢ <;> omega
  induction i generalizing j with
  | null => cases j <;> simp [code] at h ⊢
  | equality => cases j <;> simp [code] at h ⊢
  | num n => cases j <;> simp [code] at h ⊢; exact h
  | name s =>
    cases j <;> simp [code] at h ⊢
    refine String.toList_injective ((List.map_inj_right fun c d hcd => ?_).mp h)
    exact Char.toNat_inj.mp (Int.ofNat.inj hcd)
  | standard n k o ih =>
    cases j <;> simp [code] at h ⊢
    exact ⟨by omega, ih h.2.2, horigin _ _ h.2.1⟩
  | skolem n k o ih =>
    cases j <;> simp [code] at h ⊢
    exact ⟨by omega, ih h.2.2, horigin _ _ h.2.1⟩

instance : Std.TransCmp Ident.compare :=
  inferInstanceAs (Std.TransCmp (compareLex (compareOn Ident.rank)
    (compareLex (compareOn Ident.text) (compareLex (compareOn Ident.serial) (compareOn Ident.code)))))

instance : Std.LawfulEqCmp Ident.compare where
  eq_of_compare {i j} h := by
    simp only [Ident.compare, Ordering.then_eq_eq] at h
    exact Ident.code_injective (Std.LawfulEqCmp.eq_of_compare h.2.2.2)

instance : Std.TransCmp Feature.compare :=
  let _ : Ord Ident := ⟨Ident.compare⟩
  have : Std.TransOrd Ident := inferInstanceAs (Std.TransCmp Ident.compare)
  inferInstanceAs
    (Std.TransCmp (compareLex (compareOn Feature.symbol) (compareOn Feature.positive)))

instance : Std.LawfulEqCmp Feature.compare where
  eq_of_compare {f g} h := by
    obtain ⟨i, p⟩ := f
    obtain ⟨j, q⟩ := g
    obtain ⟨hsymbol, hsign⟩ := Ordering.then_eq_eq.mp h
    obtain rfl : i = j := Std.LawfulEqCmp.eq_of_compare hsymbol
    obtain rfl : p = q := Std.LawfulEqCmp.eq_of_compare hsign
    rfl

/-! ## Section 2: Magnitudes -/

section Magnitude

variable {φ : Type} [DecidableEq φ]

/-- The magnitude of a feature in a vector; it is zero if the feature is missing. -/
def magnitude (f : φ) : List (φ × Nat) → Nat
  | [] => 0
  | (f', n) :: v => if f' = f then n else magnitude f v

theorem magnitude_eq_of_mem {f : φ} {n : Nat} {v : List (φ × Nat)}
    (hv : (v.map Prod.fst).Nodup) (h : (f, n) ∈ v) : magnitude f v = n := by
  induction v with
  | nil => cases h
  | cons e v ih =>
    obtain ⟨f', n'⟩ := e
    obtain ⟨hfresh, hv⟩ := List.nodup_cons.mp hv
    rcases List.mem_cons.mp h with heq | h
    · cases heq
      simp [magnitude]
    · have hne : f' ≠ f := by
        rintro rfl
        exact hfresh (List.mem_map.mpr ⟨_, h, rfl⟩)
      rw [magnitude, if_neg hne, ih hv h]

private theorem mem_of_magnitude_ne_zero {f : φ} {v : List (φ × Nat)} (h : magnitude f v ≠ 0) :
    (f, magnitude f v) ∈ v := by
  induction v with
  | nil => exact absurd rfl h
  | cons e v ih =>
    obtain ⟨f', n⟩ := e
    rw [magnitude] at h ⊢
    split at h
    next heq => simp [heq]
    next hne =>
      rw [if_neg hne]
      exact List.mem_cons_of_mem _ (ih h)

theorem magnitude_adjust (f f' : φ) (g : Nat → Nat) (v : List (φ × Nat)) :
    magnitude f' (adjust f g v) = if f = f' then g (magnitude f v) else magnitude f' v := by
  induction v with
  | nil => simp [adjust, magnitude]
  | cons e v ih => grind [adjust, magnitude]

private theorem map_fst_adjust (f : φ) (g : Nat → Nat) (v : List (φ × Nat)) :
    (adjust f g v).map Prod.fst =
      if f ∈ v.map Prod.fst then v.map Prod.fst else v.map Prod.fst ++ [f] := by
  induction v with
  | nil => simp [adjust]
  | cons e v ih => grind [adjust]

/-- Features stay different from one another, whatever is recorded. -/
theorem nodup_foldl_adjust {ε : Type} (feature : ε → φ) (g : ε → Nat → Nat) (es : List ε)
    {v : List (φ × Nat)} (hv : (v.map Prod.fst).Nodup) :
    ((es.foldl (fun v e => adjust (feature e) (g e) v) v).map Prod.fst).Nodup := by
  induction es generalizing v with
  | nil => exact hv
  | cons e es ih =>
    refine ih ?_
    rw [map_fst_adjust]
    split
    next => exact hv
    next hfresh => exact hv.append (List.nodup_singleton _) (by simpa using hfresh)

/-- Counting gives the number of times that a feature was met. -/
theorem magnitude_foldl_count (f : φ) (fs : List φ) (v : List (φ × Nat)) :
    magnitude f (fs.foldl (fun v f => adjust f (· + 1) v) v) = magnitude f v + fs.count f := by
  induction fs generalizing v with
  | nil => rfl
  | cons f' fs ih =>
    rw [List.foldl_cons, ih, magnitude_adjust, List.count_cons]
    by_cases h : f' = f
    · subst h
      simp
      omega
    · simp [h]

/-- Raising gives the greatest number that a feature was met with. -/
theorem magnitude_foldl_max_le (f : φ) (es : List (φ × Nat)) (v : List (φ × Nat)) (b : Nat) :
    magnitude f (es.foldl (fun v e => adjust e.1 (max e.2) v) v) ≤ b ↔
      magnitude f v ≤ b ∧ ∀ e ∈ es, e.1 = f → e.2 ≤ b := by
  induction es generalizing v with
  | nil => simp
  | cons e es ih =>
    rw [List.foldl_cons, ih, magnitude_adjust, List.forall_mem_cons]
    by_cases h : e.1 = f
    · rw [if_pos h, h]
      simp [and_assoc, and_left_comm]
    · simp [h]

end Magnitude

/-! ## Section 3: Schemes -/

namespace FeatureScheme

variable {φ : Type} {s : FeatureScheme φ} {c d : Clause}

/-- The order of features is total and tells them apart, and no vector has a feature twice. -/
structure Lawful (s : FeatureScheme φ) : Prop where
  trans : Std.TransCmp s.compare
  lawfulEq : Std.LawfulEqCmp s.compare
  nodup : ∀ c, ((s.vector c).map Prod.fst).Nodup

/-- No magnitude of the second clause is greater than that of the first. -/
def Dominates [DecidableEq φ] (s : FeatureScheme φ) (d c : Clause) : Prop :=
  ∀ f, magnitude f (s.vector c) ≤ magnitude f (s.vector d)

theorem mem_sorted {e : φ × Nat} : e ∈ s.sorted c ↔ e ∈ s.vector c ∧ e.2 ≠ 0 := by
  simp [sorted, List.mem_mergeSort]

/-- Sorted vectors ascend strictly. -/
theorem pairwise_sorted (hs : s.Lawful) (c : Clause) :
    (s.sorted c).Pairwise fun a b => s.compare a.1 b.1 = .lt := by
  obtain ⟨htrans, heq, hnodup⟩ := hs
  have hle : (s.sorted c).Pairwise fun a b => (s.compare a.1 b.1).isLE = true := by
    apply List.pairwise_mergeSort
    · intro a b c hab hbc
      exact Std.TransCmp.isLE_trans hab hbc
    · intro a b
      have hswap : s.compare b.1 a.1 = (s.compare a.1 b.1).swap := Std.OrientedCmp.eq_swap
      rw [hswap]
      cases s.compare a.1 b.1 <;> rfl
  have hne : (s.sorted c).Pairwise fun a b => a.1 ≠ b.1 := by
    have hperm := (List.mergeSort_perm ((s.vector c).filter (·.2 ≠ 0))
      fun a b => (s.compare a.1 b.1).isLE).map Prod.fst
    have hfilter := (hnodup c).sublist ((List.filter_sublist (p := (·.2 ≠ 0))).map Prod.fst)
    exact List.pairwise_map.mp (hperm.nodup_iff.mpr hfilter)
  refine hle.imp₂ (fun a b hab hne => ?_) hne
  rcases Ordering.isLE_iff_eq_lt_or_eq_eq.mp hab with h | h
  · exact h
  · exact absurd (Std.LawfulEqCmp.eq_of_compare h) hne

/-- Each component of a dominated vector has a counterpart that is no smaller. -/
theorem Dominates.exists_mem_sorted [DecidableEq φ] (hs : s.Lawful) (h : s.Dominates d c)
    {e : φ × Nat} (he : e ∈ s.sorted c) : ∃ n, (e.1, n) ∈ s.sorted d ∧ e.2 ≤ n := by
  obtain ⟨hmem, hpos⟩ := mem_sorted.mp he
  have hle := h e.1
  rw [magnitude_eq_of_mem (hs.nodup c) hmem] at hle
  refine ⟨_, mem_sorted.mpr ⟨mem_of_magnitude_ne_zero ?_, ?_⟩, hle⟩ <;> omega

theorem lawful_occurrences : occurrences.Lawful where
  trans := inferInstanceAs (Std.TransCmp Feature.compare)
  lawfulEq := inferInstanceAs (Std.LawfulEqCmp Feature.compare)
  nodup _ := nodup_foldl_adjust id (fun _ => (· + 1)) _ List.nodup_nil

theorem lawful_symbolDepths : symbolDepths.Lawful where
  trans := inferInstanceAs (Std.TransCmp Feature.compare)
  lawfulEq := inferInstanceAs (Std.LawfulEqCmp Feature.compare)
  nodup _ := nodup_foldl_adjust Prod.fst (fun e => max e.2) _ List.nodup_nil

end FeatureScheme

/-! ## Section 4: Occurrence counts -/

/-- Replacing variables loses no symbol. -/
theorem Term.symbols_sublist_subst (ρ : Ident → Term) (t : Term) :
    (t.subterms.filterMap Term.symbol?).Sublist ((t.subst ρ).subterms.filterMap Term.symbol?) := by
  induction t using Term.induction with
  | var x => exact List.nil_sublist _
  | const c => exact List.Sublist.refl _
  | app f ts ih =>
    rw [subst_app, subterms, subterms, subtermsList_eq_flatMap, subtermsList_eq_flatMap,
      List.flatMap_map]
    change (f :: _).Sublist (f :: _)
    rw [List.filterMap_flatMap, List.filterMap_flatMap]
    exact (List.Sublist.flatMap_right ts ih).cons_cons f

namespace Literal

variable {ρ : Ident → Term} {l m : Literal}

/-- The features that a literal is counted under, with repetitions. -/
def features (l : Literal) : List Feature :=
  (Ident.null :: l.symbols).map fun s => Feature.mk s l.positive

private theorem MapsTo.features_subperm (h : l.MapsTo ρ m) : l.features.Subperm m.features := by
  obtain ⟨hsign, hsymbol, hargs⟩ := h
  -- the symbols of the arguments, in whatever order these are
  have hsub : ((l.atom.args.flatMap Term.subterms).filterMap Term.symbol?).Subperm
      ((m.atom.args.flatMap Term.subterms).filterMap Term.symbol?) := by
    have hsubst : ((l.atom.args.flatMap Term.subterms).filterMap Term.symbol?).Sublist
        (((l.atom.args.map (Term.subst ρ)).flatMap Term.subterms).filterMap Term.symbol?) := by
      rw [List.flatMap_map, List.filterMap_flatMap, List.filterMap_flatMap]
      exact List.Sublist.flatMap_right _ fun t _ => t.symbols_sublist_subst ρ
    rcases hargs with hargs | ⟨-, hargs⟩
    · rw [hargs] at hsubst
      exact hsubst.subperm
    · rw [hargs] at hsubst
      have hperm := (List.reverse_perm m.atom.args).flatMap_right Term.subterms
      exact hsubst.subperm.trans (hperm.filterMap _).subperm
  rw [features, features, symbols, symbols, hsymbol, hsign]
  refine List.Subperm.map (fun i j hij => congrArg Feature.symbol hij) ?_
  exact (List.subperm_cons _).mpr ((List.subperm_cons _).mpr hsub)

private theorem flatMap_features_subperm {f : Literal → Literal} {ls : List Literal}
    (h : ∀ l ∈ ls, l.MapsTo ρ (f l)) :
    (ls.flatMap features).Subperm ((ls.map f).flatMap features) := by
  induction ls with
  | nil => exact List.Subperm.refl _
  | cons l ls ih =>
    obtain ⟨hl, hls⟩ := List.forall_mem_cons.mp h
    exact hl.features_subperm.append (ih hls)

end Literal

namespace Clause

variable {c d : Clause}

theorem magnitude_occurrences (f : Feature) (c : Clause) :
    magnitude f c.occurrences = (c.literals.flatMap Literal.features).count f :=
  (magnitude_foldl_count f (c.literals.flatMap Literal.features) []).trans (Nat.zero_add _)

/-- Images that are all different have at least as many symbols. -/
theorem dominates_occurrences (hc : c.Uniform) (hmerge : c.hasUnifiableLiterals = false)
    (h : c.subsumes d = true) : FeatureScheme.occurrences.Dominates d c := by
  intro f
  obtain ⟨ρ, image, hmaps, ls, hperm, hsub⟩ := exists_subperm_of_subsumes hc hmerge h
  calc magnitude f c.occurrences
      = (c.literals.flatMap Literal.features).count f := magnitude_occurrences f c
    _ ≤ ((c.literals.map image).flatMap Literal.features).count f :=
        (Literal.flatMap_features_subperm hmaps).count_le f
    _ = (ls.flatMap Literal.features).count f := (hperm.flatMap_right _).symm.count_eq f
    _ ≤ (d.literals.flatMap Literal.features).count f := (hsub.flatMap _).count_le f
    _ = magnitude f d.occurrences := (magnitude_occurrences f d).symm

end Clause

/-! ## Section 5: Symbol depths -/

theorem Term.symbolDepthsList_eq_flatMap (n : Nat) (ts : List Term) :
    Term.symbolDepthsList n ts = ts.flatMap (Term.symbolDepths n) := by
  induction ts with
  | nil => rfl
  | cons t ts ih => rw [symbolDepthsList, ih, List.flatMap_cons]

/-- Replacing variables leaves every symbol at its depth. -/
theorem Term.symbolDepths_subset_subst (ρ : Ident → Term) (n : Nat) (t : Term) :
    Term.symbolDepths n t ⊆ Term.symbolDepths n (t.subst ρ) := by
  induction t using Term.induction generalizing n with
  | var x => exact List.nil_subset _
  | const c => exact List.Subset.refl _
  | app f ts ih =>
    rw [subst_app, symbolDepths, symbolDepths, symbolDepthsList_eq_flatMap,
      symbolDepthsList_eq_flatMap, List.flatMap_map]
    refine List.cons_subset_cons _ fun e he => ?_
    obtain ⟨t, ht, he⟩ := List.mem_flatMap.mp he
    exact List.mem_flatMap.mpr ⟨t, ht, ih t ht (n + 1) he⟩

/-- The features of a literal with the depths at which they occur. -/
def Literal.depths (l : Literal) : List (Feature × Nat) :=
  ((l.atom.symbol, 1) :: Term.symbolDepthsList 2 l.atom.args).map fun s =>
    (Feature.mk s.1 l.positive, s.2)

private theorem Literal.MapsTo.depths_subset {ρ : Ident → Term} {l m : Literal} (h : l.MapsTo ρ m) :
    l.depths ⊆ m.depths := by
  obtain ⟨hsign, hsymbol, hargs⟩ := h
  -- a symbol stays in its argument, wherever that goes
  have hmem : ∀ t ∈ l.atom.args, t.subst ρ ∈ m.atom.args := by
    intro t ht
    have ht' := List.mem_map_of_mem (f := Term.subst ρ) ht
    rcases hargs with hargs | ⟨-, hargs⟩
    · rwa [hargs] at ht'
    · rwa [hargs, List.mem_reverse] at ht'
  rw [depths, depths, hsymbol, hsign, Term.symbolDepthsList_eq_flatMap,
    Term.symbolDepthsList_eq_flatMap]
  refine List.map_subset _ (List.cons_subset_cons _ fun e he => ?_)
  obtain ⟨t, ht, he⟩ := List.mem_flatMap.mp he
  exact List.mem_flatMap.mpr ⟨_, hmem t ht, t.symbolDepths_subset_subst ρ 2 he⟩

/-- Images have their symbols at least as deep, whether or not literals merge. -/
theorem Clause.dominates_symbolDepths {c d : Clause} (h : c.subsumes d = true) :
    FeatureScheme.symbolDepths.Dominates d c := by
  intro f
  have hle := fun (c : Clause) =>
    magnitude_foldl_max_le f (c.literals.flatMap Literal.depths) []
  obtain ⟨ρ, hρ⟩ := exists_mapsTo_of_subsumes h
  refine (hle c _).mpr ⟨Nat.zero_le _, fun e he hef => ?_⟩
  obtain ⟨l, hl, he⟩ := List.mem_flatMap.mp he
  obtain ⟨m, hm, hlm⟩ := hρ l hl
  exact ((hle d _).mp (Nat.le_refl _)).2 e (List.mem_flatMap.mpr ⟨m, hm, hlm.depths_subset he⟩) hef

end Clausal
