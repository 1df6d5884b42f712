import Clausal.Proofs.Ordinal
import Clausal.Proofs.Subsumption.Orientation
import Mathlib.GroupTheory.OrderOfElement

/-!
# Variants

Clauses count as variants of each other if they have equally many literals and subsume each other.
Clauses that are equal up to a renaming of the variables do, but the converse fails: the two
replacements may merge literals, and they need not undo each other.

What is recognised is equality up to renaming after as many literals as possible are merged.  A
clause is condensed if no replacement maps it into a proper part of itself.  Then going over to
another clause and back permutes the literals; a permutation of finitely many literals has finite
order, so the replacement can be undone, and a replacement that can be undone is a renaming.

## Main definitions

- `Clause.SubstInto`: a replacement maps a clause into another one
- `Clause.MergesInto`, `Clause.Condensed`: merging the literals of a clause
- `Clause.RenamesTo`: equality up to a renaming of the variables

## Main statements

- `exists_perm_of_subst_eq_var`: a replacement that can be undone is a renaming
- `Clause.exists_condensed`: every clause merges into a condensed one
- `Clause.Condensed.exists_undo`: what maps a condensed clause into itself can be undone
- `Clause.Condensed.exists_perm`: what maps a condensed clause to where it can be got back from is a
  renaming
- `variants_up_to_renaming`: what it means for clauses to be variants
- `variants_not_renamings`: variants that are not equal up to renaming
-/

namespace Clausal

/-! ## Section 1: Renaming variables -/

/-- Variables whose replacement can be undone are renamed. -/
theorem exists_perm_of_subst_eq_var {xs : List Ident} {θ ξ : Ident → Term}
    (h : ∀ x ∈ xs, (θ x).subst ξ = .var x) :
    ∃ π : Equiv.Perm Ident, ∀ x ∈ xs, θ x = .var (π x) := by
  -- nothing but a variable becomes a variable
  have hvar : ∀ x ∈ xs, ∃ y, θ x = .var y ∧ ξ y = .var x := by
    intro x hx
    have hx := h x hx
    cases ht : θ x with
    | var y => exact ⟨y, rfl, by simpa [ht, Term.subst] using hx⟩
    | const c => simp [ht, Term.subst] at hx
    | app f ts => simp [ht] at hx
  choose! f hf hξ using hvar
  have hinj : Set.InjOn f {x | x ∈ xs} := by
    intro x hx y hy hxy
    have hvar := (hξ x hx).symm.trans (hxy ▸ hξ y hy)
    exact Term.var.inj hvar
  obtain ⟨π, hπ⟩ := exists_perm_of_injOn hinj
  exact ⟨π, fun x hx => by rw [hf x hx, hπ x hx]⟩

namespace Literal

/-- Equal literals without an equation are the same. -/
theorem eq_of_beq_of_isEq_false {l m : Literal} (hl : l.atom.isEq = false)
    (h : (l == m) = true) : l = m := by
  obtain ⟨hatom, hsign⟩ := Literal.beq_iff.mp h
  rcases Atom.beq_iff.mp hatom with heq | ⟨s, t, heq, -⟩
  · cases l
    cases m
    simp_all
  · rw [heq] at hl
    cases hl

theorem subst_symm (π : Equiv.Perm Ident) (l : Literal) :
    (l.subst fun x => .var (π x)).subst (fun x => .var (π.symm x)) = l := by
  rw [subst_subst]
  simp only [Term.subst, Equiv.symm_apply_apply]
  exact subst_var l

theorem subst_perm_injective (π : Equiv.Perm Ident) :
    Function.Injective (Literal.subst fun x => .var (π x)) :=
  Function.LeftInverse.injective (subst_symm π)

end Literal

namespace Clause

variable {c d e : Clause} {θ η ε : Ident → Term}

/-! ## Section 2: Mapping a clause into another one -/

theorem nodup_literals (c : Clause) : c.literals.Nodup :=
  c.distinct.nodup

/-- A part of a clause with as many literals is all of it. -/
theorem subset_of_size_le (hsub : d.literals ⊆ c.literals) (hsize : c.size ≤ d.size) :
    c.literals ⊆ d.literals :=
  ((List.subperm_of_subset d.nodup_literals hsub).perm_of_length_le hsize).symm.subset

theorem EquationFree.mono (hc : c.EquationFree) (h : d.literals ⊆ c.literals) : d.EquationFree :=
  fun l hl => hc l (h hl)

/-- A replacement makes each literal of `c` a literal of `d`. -/
def SubstInto (θ : Ident → Term) (c d : Clause) : Prop :=
  ∀ l ∈ c.literals, l.subst θ ∈ d.literals

theorem SubstInto.trans (hcd : c.SubstInto θ d) (hde : d.SubstInto η e) :
    c.SubstInto (fun x => (θ x).subst η) e := by
  intro l hl
  rw [← Literal.subst_subst]
  exact hde _ (hcd l hl)

private theorem substInto_iff_mapsTo (hc : c.EquationFree) (hd : d.EquationFree) :
    c.SubstInto θ d ↔ c.MapsTo θ d := by
  refine forall₂_congr fun l hl => ⟨fun hmem => ?_, ?_⟩
  · exact ⟨_, hmem, (Literal.mapsTo_iff_subst_eq (hc l hl) (hd _ hmem)).mpr rfl⟩
  · rintro ⟨m, hm, hlm⟩
    rwa [(Literal.mapsTo_iff_subst_eq (hc l hl) (hd m hm)).mp hlm]

private theorem isEmpty_eq_of_size_eq (h : c.size = d.size) : c.isEmpty = d.isEmpty := by
  rw [Bool.eq_iff_iff, isEmpty, isEmpty, List.isEmpty_iff_length_eq_zero,
    List.isEmpty_iff_length_eq_zero]
  exact Iff.of_eq (congrArg (· = 0) h)

/-- Without equations, clauses count as variants exactly if they have equally many literals and
    replacements map each into the other. -/
theorem isVariantOf_iff (hc : c.EquationFree) (hd : d.EquationFree) :
    c.isVariantOf d = true ↔
      c.size = d.size ∧ (∃ θ, c.SubstInto θ d) ∧ ∃ η, d.SubstInto η c := by
  simp only [substInto_iff_mapsTo hc hd, substInto_iff_mapsTo hd hc]
  rw [isVariantOf, Bool.and_eq_true_iff, decide_eq_true_eq]
  refine and_congr_right fun hsize => ?_
  have hiff : c.isEmpty = d.isEmpty := isEmpty_eq_of_size_eq hsize
  cases hempty : c.isEmpty with
  | true =>
    -- the empty clause subsumes nothing, but it is a variant of itself
    have hcnil : c.literals = [] := List.isEmpty_iff.mp hempty
    have hdnil : d.literals = [] := List.isEmpty_iff.mp (hiff.symm.trans hempty)
    simp [MapsTo, hcnil, hdnil]
  | false =>
    rw [Bool.false_or, Bool.and_eq_true_iff, subsumes_iff hc, subsumes_iff hd, ← hiff, hempty]
    simp only [true_and]
    rfl

/-! ## Section 3: Condensed clauses -/

/-- The clause of those literals that pass a test. -/
def part (c : Clause) (p : Literal → Bool) : Clause :=
  ⟨c.literals.filter p, c.form, c.distinct.filter p⟩

/-- `d` consists of literals of `c`, and one replacement maps all of `c` there. -/
def MergesInto (c d : Clause) : Prop :=
  d.literals ⊆ c.literals ∧ ∃ θ, c.SubstInto θ d

/-- No replacement maps a clause into a proper part of itself. -/
def Condensed (c : Clause) : Prop :=
  ∀ θ, c.SubstInto θ c → ∀ m ∈ c.literals, ∃ l ∈ c.literals, l.subst θ = m

theorem part_subset (c : Clause) (p : Literal → Bool) : (c.part p).literals ⊆ c.literals :=
  List.filter_sublist.subset

private theorem MergesInto.refl (c : Clause) : c.MergesInto c :=
  ⟨fun _ => id, .var, fun l hl => by rwa [Literal.subst_var]⟩

theorem MergesInto.trans (hcd : c.MergesInto d) (hde : d.MergesInto e) : c.MergesInto e := by
  obtain ⟨hsub, θ, hθ⟩ := hcd
  obtain ⟨hsub', η, hη⟩ := hde
  exact ⟨fun l hl => hsub (hsub' hl), _, hθ.trans hη⟩

/-- Every clause merges into a condensed one. -/
theorem exists_condensed (hc : c.EquationFree) : ∃ d, c.MergesInto d ∧ d.Condensed := by
  induction hn : c.size using Nat.strong_induction_on generalizing c with
  | _ n ih =>
    by_cases hcond : c.Condensed
    · exact ⟨c, .refl c, hcond⟩
    · -- some replacement maps the clause into itself and misses a literal, which is left out
      obtain ⟨θ, hθ, m, hm, hmiss⟩ : ∃ θ, c.SubstInto θ c ∧
          ∃ m ∈ c.literals, ∀ l ∈ c.literals, l.subst θ ≠ m := by
        simpa [Condensed] using hcond
      have hmerge : c.MergesInto (c.part fun l => !(l == m)) := by
        refine ⟨c.part_subset _, θ, fun l hl => List.mem_filter.mpr ⟨hθ l hl, ?_⟩⟩
        by_contra heq
        have heq : (l.subst θ == m) = true := by simpa using heq
        exact hmiss l hl (Literal.eq_of_beq_of_isEq_false (hc _ (hθ l hl)) heq)
      have hlt : (c.part fun l => !(l == m)).size < n := by
        rw [← hn]
        exact List.length_filter_lt_length_iff_exists.mpr ⟨m, hm, by simp⟩
      obtain ⟨d, hd, hcond⟩ := ih _ hlt (hc.mono hmerge.1) rfl
      exact ⟨d, hmerge.trans hd, hcond⟩

/-- If no two literals of a clause unify, it is condensed. -/
theorem condensed_of_hasUnifiableLiterals (hc : c.EquationFree)
    (h : c.hasUnifiableLiterals = false) : c.Condensed := by
  intro θ hθ m hm
  have hmaps : ∀ l ∈ c.literals, l.MapsTo θ (l.subst θ) := fun l hl =>
    (Literal.mapsTo_iff_subst_eq (hc l hl) (hc _ (hθ l hl))).mpr rfl
  -- the images are different literals, so there are as many as before
  have hperm := (subperm_map_of_mapsTo hc.uniform h hmaps hθ).perm_of_length_le (by simp)
  exact List.mem_map.mp (hperm.mem_iff.mpr hm)

/-- What maps a condensed clause into itself can be undone. -/
theorem Condensed.exists_undo (hc : c.Condensed) (hε : c.SubstInto ε c) :
    ∃ ζ, ∀ l ∈ c.literals, (l.subst ε).subst ζ = l := by
  let f : {l // l ∈ c.literals} → {l // l ∈ c.literals} := fun l => ⟨l.1.subst ε, hε l.1 l.2⟩
  have hsurj : Function.Surjective f := by
    rintro ⟨m, hm⟩
    obtain ⟨l, hl, heq⟩ := hc ε hε m hm
    exact ⟨⟨l, hl⟩, Subtype.ext heq⟩
  have : Finite {l // l ∈ c.literals} := (List.finite_toSet c.literals).to_subtype
  let p : Equiv.Perm {l // l ∈ c.literals} :=
    Equiv.ofBijective f ⟨Finite.injective_iff_surjective.mpr hsurj, hsurj⟩
  -- the literals are permuted, and what permutes them several times is a replacement as well
  have hpow : ∀ n, ∃ ζ : Ident → Term, ∀ l, ((p ^ n) l).1 = l.1.subst ζ := by
    intro n
    induction n with
    | zero => exact ⟨.var, fun l => (Literal.subst_var l.1).symm⟩
    | succ n ih =>
      obtain ⟨ζ, hζ⟩ := ih
      refine ⟨fun x => (ε x).subst ζ, fun l => ?_⟩
      rw [pow_succ, Equiv.Perm.mul_apply, hζ, ← Literal.subst_subst]
      rfl
  obtain ⟨ζ, hζ⟩ := hpow (orderOf p - 1)
  have hone : p ^ (orderOf p - 1) * p = 1 := by
    rw [← pow_succ, Nat.sub_add_cancel (orderOf_pos p), pow_orderOf_eq_one]
  refine ⟨ζ, fun l hl => ?_⟩
  calc (l.subst ε).subst ζ = ((p ^ (orderOf p - 1) * p) ⟨l, hl⟩).1 := (hζ (p ⟨l, hl⟩)).symm
    _ = l := by rw [hone]; rfl

/-! ## Section 4: Equality up to renaming -/

/-- Some renaming of the variables makes the literals of `c` those of `d`. -/
def RenamesTo (c d : Clause) : Prop :=
  ∃ π : Equiv.Perm Ident, ∀ m, m ∈ d.literals ↔
    ∃ l ∈ c.literals, l.subst (fun x => .var (π x)) = m

namespace RenamesTo

private theorem symm (h : c.RenamesTo d) : d.RenamesTo c := by
  obtain ⟨π, hπ⟩ := h
  refine ⟨π.symm, fun m => ⟨fun hm => ?_, ?_⟩⟩
  · exact ⟨_, (hπ _).mpr ⟨m, hm, rfl⟩, Literal.subst_symm π m⟩
  · rintro ⟨k, hk, rfl⟩
    obtain ⟨l, hl, rfl⟩ := (hπ k).mp hk
    rwa [Literal.subst_symm]

theorem exists_substInto (h : c.RenamesTo d) : ∃ θ, c.SubstInto θ d := by
  obtain ⟨π, hπ⟩ := h
  exact ⟨_, fun l hl => (hπ _).mpr ⟨l, hl, rfl⟩⟩

theorem size_eq (h : c.RenamesTo d) : c.size = d.size := by
  obtain ⟨π, hπ⟩ := h
  have hnodup := c.nodup_literals.map (Literal.subst_perm_injective π)
  have hperm := (List.perm_ext_iff_of_nodup d.nodup_literals hnodup).mpr fun m => by
    rw [hπ, List.mem_map]
  simpa [size] using hperm.length_eq.symm

/-- A renaming of a condensed clause is condensed. -/
theorem condensed (h : c.RenamesTo d) (hc : c.Condensed) : d.Condensed := by
  intro θ hθ m hm
  obtain ⟨π, hπ⟩ := h
  have hto : c.SubstInto (fun x => .var (π x)) d := fun l hl => (hπ _).mpr ⟨l, hl, rfl⟩
  have hback : d.SubstInto (fun x => .var (π.symm x)) c := by
    intro k hk
    obtain ⟨l, hl, rfl⟩ := (hπ k).mp hk
    rwa [Literal.subst_symm]
  -- the replacement is carried over to the given clause
  obtain ⟨l, hl, heq⟩ := hc _ ((hto.trans hθ).trans hback) _ (hback m hm)
  refine ⟨_, hto l hl, Literal.subst_perm_injective π.symm ?_⟩
  rw [← heq, Literal.subst_subst, Literal.subst_subst]
  rfl

end RenamesTo

/-- A replacement that maps a condensed clause to where it can be got back from is a renaming. -/
theorem Condensed.exists_perm (hcond : c.Condensed) (hθ : c.SubstInto θ d)
    (hη : d.SubstInto η c) : ∃ π : Equiv.Perm Ident, ∀ x ∈ c.vars, θ x = .var (π x) := by
  obtain ⟨ζ, hζ⟩ := hcond.exists_undo (hθ.trans hη)
  refine exists_perm_of_subst_eq_var (ξ := fun y => (η y).subst ζ) fun x hx => ?_
  obtain ⟨l, hl, hx⟩ := mem_vars.mp hx
  have hfix : (l.subst fun x => (θ x).subst η).subst ζ = l.subst .var := by
    rw [hζ l hl, Literal.subst_var]
  rw [Literal.subst_subst] at hfix
  rw [← Term.subst_subst]
  exact Literal.subst_eq_subst_iff.mp hfix x hx

/-- A condensed clause is equal up to renaming to a part of each clause that it maps into and that
    maps into it. -/
theorem Condensed.exists_renamesTo (hcond : c.Condensed) (hd : d.EquationFree)
    (hθ : c.SubstInto θ d) (hη : d.SubstInto η c) : ∃ e, d.MergesInto e ∧ c.RenamesTo e := by
  obtain ⟨π, hπ⟩ := hcond.exists_perm hθ hη
  -- the part that is reached
  let e := d.part fun m => c.literals.any fun l => l.subst θ == m
  have hmem : ∀ m, m ∈ e.literals ↔ ∃ l ∈ c.literals, l.subst θ = m := by
    intro m
    refine List.mem_filter.trans ⟨?_, ?_⟩
    · rintro ⟨-, h⟩
      obtain ⟨l, hl, heq⟩ := List.any_eq_true.mp h
      exact ⟨l, hl, Literal.eq_of_beq_of_isEq_false (hd _ (hθ l hl)) heq⟩
    · rintro ⟨l, hl, rfl⟩
      exact ⟨hθ l hl, List.any_eq_true.mpr ⟨l, hl, BEq.rfl⟩⟩
  refine ⟨e, ⟨d.part_subset _, _, hη.trans fun l hl => (hmem _).mpr ⟨l, hl, rfl⟩⟩, π, fun m => ?_⟩
  rw [hmem]
  refine exists_congr fun l => and_congr_right fun hl => ?_
  have hrename : l.subst θ = l.subst fun x => .var (π x) :=
    Literal.subst_eq_subst_iff.mpr fun x hx => hπ x (mem_vars.mpr ⟨l, hl, hx⟩)
  rw [hrename]

/-- A condensed clause and another one with as many literals that map into each other are equal up
    to renaming. -/
theorem Condensed.renamesTo (hcond : c.Condensed) (hd : d.EquationFree) (hsize : c.size = d.size)
    (hθ : c.SubstInto θ d) (hη : d.SubstInto η c) : c.RenamesTo d := by
  obtain ⟨e, ⟨hsub, -⟩, hrename⟩ := hcond.exists_renamesTo hd hθ hη
  have hall := subset_of_size_le hsub (hsize.symm.trans hrename.size_eq).le
  obtain ⟨π, hπ⟩ := hrename
  exact ⟨π, fun m => ⟨fun hm => (hπ m).mp (hall hm), fun hm => hsub ((hπ m).mpr hm)⟩⟩

/-- Clauses with a common condensed form map into each other. -/
theorem MergesInto.exists_substInto {c' d' : Clause} (hc : c.MergesInto c')
    (hrename : c'.RenamesTo d') (hd : d.MergesInto d') : ∃ θ, c.SubstInto θ d := by
  obtain ⟨-, θ, hθ⟩ := hc
  obtain ⟨η, hη⟩ := hrename.exists_substInto
  exact ⟨_, fun l hl => hd.1 (hθ.trans hη l hl)⟩

end Clause

/-! ## Section 5: Variants -/

/-- Without equations, clauses are variants exactly if they have equally many literals and the
    condensed clauses that they merge into are equal up to renaming.  So clauses that are equal up
    to renaming are variants, and the converse holds if one of them is condensed, as it is if no two
    of its literals unify. -/
theorem variants_up_to_renaming {c d : Clause} (hc : c.EquationFree) (hd : d.EquationFree) :
    (c.isVariantOf d = true ↔ c.size = d.size ∧ ∃ c' d' : Clause,
      c.MergesInto c' ∧ c'.Condensed ∧ d.MergesInto d' ∧ d'.Condensed ∧ c'.RenamesTo d') ∧
      (c.RenamesTo d → c.isVariantOf d = true) ∧
      (c.Condensed ∨ d.Condensed → c.isVariantOf d = true → c.RenamesTo d) ∧
      (c.hasUnifiableLiterals = false → c.Condensed) := by
  rw [Clause.isVariantOf_iff hc hd]
  refine ⟨⟨?_, ?_⟩, ?_, ?_, Clause.condensed_of_hasUnifiableLiterals hc⟩
  · rintro ⟨hsize, ⟨θ, hθ⟩, η, hη⟩
    obtain ⟨c', hmerge, hcond⟩ := Clause.exists_condensed hc
    obtain ⟨hsub, ρ, hρ⟩ := hmerge
    have hθ' : c'.SubstInto θ d := fun l hl => hθ l (hsub hl)
    obtain ⟨d', hmerge', hrename⟩ := hcond.exists_renamesTo hd hθ' (hη.trans hρ)
    exact ⟨hsize, c', d', ⟨hsub, ρ, hρ⟩, hcond, hmerge', hrename.condensed hcond, hrename⟩
  · rintro ⟨hsize, c', d', hmerge, -, hmerge', -, hrename⟩
    exact ⟨hsize, hmerge.exists_substInto hrename hmerge',
      hmerge'.exists_substInto hrename.symm hmerge⟩
  · intro hrename
    exact ⟨hrename.size_eq, hrename.exists_substInto, hrename.symm.exists_substInto⟩
  · rintro hcond ⟨hsize, ⟨θ, hθ⟩, η, hη⟩
    rcases hcond with hcond | hcond
    · exact hcond.renamesTo hd hsize hθ hη
    · exact (hcond.renamesTo hc hsize.symm hη hθ).symm

/-- The literals of `p(X, Y) | p(Y, X)` unify, but no replacement makes them the same and keeps them
    in the clause.  So a variant with other names is recognised as equal up to renaming. -/
theorem variants_up_to_renaming_exchange :
    let c := Clause.ofList [⟨true, .pred (.num 0) [.var (.num 1), .var (.num 2)]⟩,
      ⟨true, .pred (.num 0) [.var (.num 2), .var (.num 1)]⟩]
    let d := Clause.ofList [⟨true, .pred (.num 0) [.var (.num 4), .var (.num 3)]⟩,
      ⟨true, .pred (.num 0) [.var (.num 3), .var (.num 4)]⟩]
    c.EquationFree ∧ d.EquationFree ∧ c.hasUnifiableLiterals = true ∧ c.Condensed ∧
      c.RenamesTo d := by
  intro c d
  have hlits : c.literals = [⟨true, .pred (.num 0) [.var (.num 1), .var (.num 2)]⟩,
    ⟨true, .pred (.num 0) [.var (.num 2), .var (.num 1)]⟩] := rfl
  have hcond : c.Condensed := by
    intro θ hθ m hm
    have hkeep : θ (.num 1) = .var (.num 1) ∧ θ (.num 2) = .var (.num 2) ∨
        θ (.num 1) = .var (.num 2) ∧ θ (.num 2) = .var (.num 1) := by
      have hfirst := hθ ⟨true, .pred (.num 0) [.var (.num 1), .var (.num 2)]⟩ List.mem_cons_self
      simpa [hlits, Literal.subst, Atom.subst, Term.subst] using hfirst
    rw [hlits] at hm ⊢
    rcases hkeep with ⟨h1, h2⟩ | ⟨h1, h2⟩ <;>
      rcases List.mem_pair.mp hm with rfl | rfl <;>
      simp [Literal.subst, Atom.subst, Term.subst, h1, h2]
  have h := variants_up_to_renaming (c := c) (d := d) (by decide) (by decide)
  exact ⟨by decide, by decide, by decide, hcond, h.2.2.1 (Or.inl hcond) (by decide)⟩

/-- `p(f(a)) | p(X)` and `p(f(a)) | p(f(X))` are variants: in both, the second literal is merged
    with the first.  No renaming makes `p(X)` a literal of the other clause. -/
theorem variants_not_renamings :
    let fa : Term := .app (.num 1) [.const (.num 2)]
    let c := Clause.ofList [⟨true, .pred (.num 0) [fa]⟩, ⟨true, .pred (.num 0) [.var (.num 3)]⟩]
    let d := Clause.ofList [⟨true, .pred (.num 0) [fa]⟩,
      ⟨true, .pred (.num 0) [.app (.num 1) [.var (.num 3)]]⟩]
    c.EquationFree ∧ d.EquationFree ∧ c.isVariantOf d = true ∧ ¬ c.RenamesTo d := by
  intro fa c d
  refine ⟨by decide, by decide, by decide, ?_⟩
  rintro ⟨π, hπ⟩
  have hlits : d.literals = [⟨true, .pred (.num 0) [fa]⟩,
    ⟨true, .pred (.num 0) [.app (.num 1) [.var (.num 3)]]⟩] := rfl
  have hmem := (hπ _).mpr ⟨_, List.mem_cons_of_mem _ List.mem_cons_self, rfl⟩
  simp [hlits, Literal.subst, Atom.subst, Term.subst, fa] at hmem

end Clausal
