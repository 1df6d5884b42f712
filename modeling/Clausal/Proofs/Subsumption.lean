import Mathlib.Data.List.Pairwise
import Clausal.Subsumption
import Clausal.Proofs.Clause
import Clausal.Proofs.Matching
import Clausal.Proofs.MostGeneral
import Clausal.Proofs.Resolution.Resolvent

/-!
# What subsumption says

A clause that subsumes another is mapped into it by one replacement.  The search settles the order
of the sides of an equation too early to find every such replacement.  For clauses without equations
it misses none, and among these subsumption is a preorder.

If no two literals of a clause unify, a replacement that maps it into another clause maps no two of
its literals onto one.

## Main definitions

- `Clause.EquationFree`: no literal of a clause is an equation
- `Clause.Uniform`: a symbol is not used both in equations and in other atoms

## Main statements

- `Clause.subsumes_iff`: the search for a replacement is exact without equations
- `Clause.subsumes_self`, `Clause.subsumes_trans`
- `Clause.subperm_map_of_mapsTo`, `Clause.exists_subperm_of_subsumes`: literals that do not merge have
  different images
- `Clause.beq_eq_false_of_hasUnifiableLiterals`: whether literals merge does not depend on how
  equations are written
-/

namespace Clausal

variable {ρ : Ident → Term} {σ : Substitution} {l m k : Literal}

/-! ## Section 1: The search for a replacement -/

private theorem exists_mapsTo_of_matchAll {ms ls : List Literal} (h : matchAll ms ls σ = true) :
    ∃ ρ, σ.Agrees ρ ∧ ∀ l ∈ ls, ∃ m ∈ ms, l.MapsTo ρ m := by
  induction ls generalizing σ with
  | nil =>
    obtain ⟨ρ, hρ⟩ := σ.exists_agrees
    exact ⟨ρ, hρ, by simp⟩
  | cons l ls ih =>
    obtain ⟨m, hm, h⟩ := List.any_eq_true.mp h
    split at h
    next => cases h
    next τ hτ =>
      obtain ⟨ρ, hρ, hls⟩ := ih h
      obtain ⟨hσ, hl⟩ := Literal.mapsTo_of_match? hτ hρ
      exact ⟨ρ, hσ, List.forall_mem_cons.mpr ⟨⟨m, hm, hl⟩, hls⟩⟩

/-- A replacement that turns no equation round is found. -/
theorem matchAll_of_mapsTo {ms ls : List Literal} (hσ : σ.Agrees ρ)
    (h : ∀ l ∈ ls, ∃ m ∈ ms, l.MapsTo ρ m ∧ l.atom.args.map (Term.subst ρ) = m.atom.args) :
    matchAll ms ls σ = true := by
  induction ls generalizing σ with
  | nil => rfl
  | cons l ls ih =>
    obtain ⟨⟨m, hm, hl, hargs⟩, hls⟩ := List.forall_mem_cons.mp h
    obtain ⟨τ, hτ, hagrees⟩ := Literal.exists_match? hl hargs hσ
    refine List.any_eq_true.mpr ⟨m, hm, ?_⟩
    rw [hτ]
    exact ih hagrees hls

/-- Ordinary literals are mapped one after the other. -/
theorem Literal.MapsTo.trans {υ : Ident → Term} (hlm : l.MapsTo ρ m) (hmk : m.MapsTo υ k)
    (hl : l.atom.isEq = false) (hm : m.atom.isEq = false) :
    l.MapsTo (fun x => (ρ x).subst υ) k := by
  refine ⟨hlm.1.trans hmk.1, hlm.2.1.trans hmk.2.1, Or.inl ?_⟩
  rw [← hmk.args_eq hm, ← hlm.args_eq hl, List.map_map]
  exact List.map_congr_left fun t _ => (Term.subst_subst ρ υ t).symm

theorem Literal.mapsTo_self (l : Literal) : l.MapsTo .var l :=
  ⟨rfl, rfl, Or.inl (List.map_id'' Term.subst_var l.atom.args)⟩

namespace Clause

variable {c d e : Clause}

/-- No literal of a clause is an equation. -/
def EquationFree (c : Clause) : Prop :=
  ∀ l ∈ c.literals, l.atom.isEq = false

instance (c : Clause) : Decidable c.EquationFree :=
  inferInstanceAs (Decidable (∀ l ∈ c.literals, l.atom.isEq = false))

theorem exists_mapsTo_of_subsumes (h : c.subsumes d = true) :
    ∃ ρ, ∀ l ∈ c.literals, ∃ m ∈ d.literals, l.MapsTo ρ m := by
  obtain ⟨-, h⟩ := Bool.and_eq_true_iff.mp h
  obtain ⟨ρ, -, hρ⟩ := exists_mapsTo_of_matchAll h
  exact ⟨ρ, hρ⟩

theorem isEmpty_of_subsumes (h : c.subsumes d = true) : c.isEmpty = false := by
  obtain ⟨h, -⟩ := Bool.and_eq_true_iff.mp h
  simpa using h

/-- Without equations in the first clause, subsumption is what it is meant to be. -/
theorem subsumes_iff (hc : c.EquationFree) :
    c.subsumes d = true ↔
      c.isEmpty = false ∧ ∃ ρ, ∀ l ∈ c.literals, ∃ m ∈ d.literals, l.MapsTo ρ m := by
  refine ⟨fun h => ⟨isEmpty_of_subsumes h, exists_mapsTo_of_subsumes h⟩, ?_⟩
  rintro ⟨hempty, ρ, hρ⟩
  refine Bool.and_eq_true_iff.mpr ⟨by rw [hempty]; rfl, ?_⟩
  refine matchAll_of_mapsTo (Substitution.agrees_empty ρ) fun l hl => ?_
  obtain ⟨m, hm, hlm⟩ := hρ l hl
  exact ⟨m, hm, hlm, hlm.args_eq (hc l hl)⟩

theorem subsumes_self (hc : c.isEmpty = false) : c.subsumes c = true := by
  refine Bool.and_eq_true_iff.mpr ⟨by rw [hc]; rfl, ?_⟩
  refine matchAll_of_mapsTo (Substitution.agrees_empty .var) fun l hl => ?_
  exact ⟨l, hl, l.mapsTo_self, List.map_id'' Term.subst_var l.atom.args⟩

theorem subsumes_trans (hc : c.EquationFree) (hd : d.EquationFree) (hcd : c.subsumes d = true)
    (hde : d.subsumes e = true) : c.subsumes e = true := by
  obtain ⟨hempty, ρ, hρ⟩ := (subsumes_iff hc).mp hcd
  obtain ⟨υ, hυ⟩ := exists_mapsTo_of_subsumes hde
  refine (subsumes_iff hc).mpr ⟨hempty, fun x => (ρ x).subst υ, fun l hl => ?_⟩
  obtain ⟨m, hm, hlm⟩ := hρ l hl
  obtain ⟨k, hk, hmk⟩ := hυ m hm
  exact ⟨k, hk, hlm.trans hmk (hc l hl) (hd m hm)⟩

theorem isVariantOf_self (c : Clause) : c.isVariantOf c = true := by
  cases h : c.isEmpty with
  | true => simp [isVariantOf, h]
  | false => simp [isVariantOf, subsumes_self h]

theorem isVariantOf_comm (c d : Clause) : c.isVariantOf d = d.isVariantOf c := by
  unfold isVariantOf
  by_cases hsize : c.size = d.size
  · have hempty : c.isEmpty = d.isEmpty := by
      rw [Bool.eq_iff_iff, isEmpty, isEmpty, List.isEmpty_iff_length_eq_zero,
        List.isEmpty_iff_length_eq_zero]
      exact Eq.congr_left hsize
    rw [hsize, hempty, Bool.and_comm (c.subsumes d)]
  · simp [hsize, Ne.symm hsize]

theorem subsumes_of_isVariantOf (h : c.isVariantOf d = true) (hc : c.isEmpty = false) :
    c.subsumes d = true ∧ d.subsumes c = true := by
  simpa [hc] using (Bool.and_eq_true_iff.mp h).2

/-- Equal clauses without equations subsume each other. -/
theorem subsumes_of_beq (hc : c.EquationFree) (hempty : c.isEmpty = false)
    (h : (c == d) = true) : c.subsumes d = true := by
  refine (subsumes_iff hc).mpr ⟨hempty, .var, fun l hl => ?_⟩
  obtain ⟨m, hm, hlm⟩ := (Clause.beq_iff.mp h).1 l hl
  obtain ⟨hatom, hsign⟩ := Literal.beq_iff.mp hlm
  rcases Atom.beq_iff.mp hatom with heq | ⟨s, t, heq, -⟩
  · exact ⟨m, hm, hsign, heq ▸ m.mapsTo_self.2⟩
  · -- an equation
    have hplain := hc l hl
    rw [heq] at hplain
    cases hplain

end Clause

/-! ## Section 2: Literals that merge -/

theorem anyUnifiable_eq_false {ls : List Literal} :
    anyUnifiable ls = false ↔ ls.Pairwise fun l m => l.unify .empty m = none := by
  induction ls with
  | nil => simp [anyUnifiable]
  | cons l ls ih => simp [anyUnifiable, ih]

/-- Literals of one kind that a replacement maps onto one literal unify. -/
theorem Literal.unify_ne_none_of_mapsTo (hkind : l.atom.isEq = m.atom.isEq)
    (hl : l.MapsTo ρ k) (hm : m.MapsTo ρ k) : l.unify .empty m ≠ none := by
  obtain ⟨hsign, hsymbol, hl⟩ := hl
  obtain ⟨hsign', hsymbol', hm⟩ := hm
  -- the arguments become the same, in the same order or in the other one
  have hargs : l.atom.args.map (Term.subst ρ) = m.atom.args.map (Term.subst ρ) ∨
      l.atom.isEq = true ∧
        l.atom.args.map (Term.subst ρ) = m.atom.args.reverse.map (Term.subst ρ) := by
    rcases hl with hl | ⟨heq, hl⟩ <;> rcases hm with hm | ⟨heq', hm⟩
    · exact Or.inl (hl.trans hm.symm)
    · exact Or.inr ⟨hkind.trans heq', by rw [List.map_reverse, hm, List.reverse_reverse, hl]⟩
    · exact Or.inr ⟨heq, by rw [List.map_reverse, hm, hl]⟩
    · exact Or.inl (hl.trans hm.symm)
  have hlen : l.atom.args.length = m.atom.args.length := by
    rcases hargs with h | ⟨-, h⟩ <;> simpa using congrArg List.length h
  have hunify : ∀ ts : List Term, l.atom.args.length = ts.length →
      l.atom.args.map (Term.subst ρ) = ts.map (Term.subst ρ) →
      unifyList .empty l.atom.args ts ≠ none := by
    intro ts hts h
    obtain ⟨τ, hτ⟩ := exists_unifyList Substitution.acyclic_empty
      (Substitution.solves_empty ρ) ((map_subst_eq_iff hts ρ).mp h)
    simp [hτ]
  rw [unify, if_pos (hsign.trans hsign'.symm), Atom.unify,
    if_pos ⟨hsymbol.trans hsymbol'.symm, hlen⟩]
  rcases hargs with h | ⟨heq, h⟩
  · split
    next => simp
    next hnone => exact absurd hnone (hunify _ hlen h)
  · split
    next => simp
    next =>
      rw [if_pos heq]
      exact hunify _ (by rw [List.length_reverse, hlen]) h

namespace Clause

variable {c d : Clause}

/-- Atoms of a clause with the same symbol are equations either all or none. -/
def Uniform (c : Clause) : Prop :=
  ∀ l ∈ c.literals, ∀ m ∈ c.literals, l.atom.symbol = m.atom.symbol → l.atom.isEq = m.atom.isEq

theorem EquationFree.uniform (hc : c.EquationFree) : c.Uniform :=
  fun l hl m hm _ => (hc l hl).trans (hc m hm).symm

theorem Proper.uniform (hc : c.Proper) : c.Uniform :=
  fun l hl m hm => Atom.isEq_eq_of_proper (hc l hl) (hc m hm)

/-- The literals of a clause that do not merge become different ones. -/
theorem subperm_map_of_mapsTo (hc : c.Uniform) (hmerge : c.hasUnifiableLiterals = false)
    {ρ : Ident → Term} {f : Literal → Literal} (hmaps : ∀ l ∈ c.literals, l.MapsTo ρ (f l))
    (hf : ∀ l ∈ c.literals, f l ∈ d.literals) : (c.literals.map f).Subperm d.literals := by
  refine List.subperm_of_subset ?_ ?_
  · -- two literals with one image would unify
    refine List.pairwise_map.mpr ?_
    refine (anyUnifiable_eq_false.mp hmerge).imp_of_mem fun {l m} hl hm hnone heq => ?_
    have hmapsm := heq ▸ hmaps m hm
    have hsymbol := (hmaps l hl).2.1.trans hmapsm.2.1.symm
    exact Literal.unify_ne_none_of_mapsTo (hc l hl m hm hsymbol) (hmaps l hl) hmapsm hnone
  · intro k hk
    obtain ⟨l, hl, rfl⟩ := List.mem_map.mp hk
    exact hf l hl

/-- A clause whose literals do not merge has different images of them in every clause that it
    subsumes. -/
theorem exists_subperm_of_subsumes (hc : c.Uniform) (hmerge : c.hasUnifiableLiterals = false)
    (h : c.subsumes d = true) :
    ∃ ρ, ∃ f : Literal → Literal,
      (∀ l ∈ c.literals, l.MapsTo ρ (f l)) ∧ (c.literals.map f).Subperm d.literals := by
  obtain ⟨ρ, hρ⟩ := exists_mapsTo_of_subsumes h
  choose! f hf hmaps using hρ
  exact ⟨ρ, f, hmaps, subperm_map_of_mapsTo hc hmerge hmaps hf⟩

/-- The literals of a proper clause do not merge exactly if no replacement makes two of them
    equal. -/
theorem hasUnifiableLiterals_eq_false (hc : c.Proper) :
    c.hasUnifiableLiterals = false ↔
      c.literals.Pairwise fun l m => ∀ θ, (l.subst θ == m.subst θ) = false := by
  refine anyUnifiable_eq_false.trans (List.Pairwise.iff_of_mem fun {l m} hl hm => ?_)
  rw [Literal.unify_eq_none_iff Substitution.acyclic_empty (hc l hl) (hc m hm)]
  simp [Substitution.solves_empty]

private theorem hasUnifiableLiterals_eq_false_of_beq (hc : c.Proper) (hd : d.Proper)
    (h : (c == d) = true) (hmerge : c.hasUnifiableLiterals = false) :
    d.hasUnifiableLiterals = false := by
  have hpairs := (hasUnifiableLiterals_eq_false hc).mp hmerge
  have : Std.Symm fun l m : Literal => ∀ θ, (l.subst θ == m.subst θ) = false :=
    ⟨fun l m hlm θ => by rw [BEq.comm]; exact hlm θ⟩
  refine (hasUnifiableLiterals_eq_false hd).mpr (d.distinct.imp_of_mem fun {l m} hl hm hne θ => ?_)
  -- the literals that are equal to these two in the other clause
  obtain ⟨l', hl', hll'⟩ := (Clause.beq_iff.mp h).2 l hl
  obtain ⟨m', hm', hmm'⟩ := (Clause.beq_iff.mp h).2 m hm
  have hne' : l' ≠ m' := by
    rintro rfl
    rw [BEq.trans hll' (BEq.symm hmm')] at hne
    cases hne
  have hinstances := hpairs.forall hl' hm' hne' θ
  by_contra heq
  rw [Bool.not_eq_false] at heq
  have hmerged := BEq.trans (BEq.symm (Literal.beq_subst hll' θ))
    (BEq.trans heq (Literal.beq_subst hmm' θ))
  rw [hmerged] at hinstances
  cases hinstances

/-- A proper clause whose literals merge is not equal to one whose literals do not. -/
theorem beq_eq_false_of_hasUnifiableLiterals (hc : c.Proper) (hd : d.Proper)
    (hmerge : c.hasUnifiableLiterals = true) (hnot : d.hasUnifiableLiterals = false) :
    (c == d) = false := by
  by_contra h
  have hdc : (d == c) = true := BEq.symm (Bool.eq_true_of_not_eq_false h)
  rw [hasUnifiableLiterals_eq_false_of_beq hd hc hdc hnot] at hmerge
  cases hmerge

end Clause

end Clausal
