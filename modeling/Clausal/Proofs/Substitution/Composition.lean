import Clausal.Proofs.Substitution

/-!
# Composition of substitutions

The composition of two substitutions is meant to give each variable its value under the first, to
which the second is applied.  Its bindings are those of the first, with the second applied to their
terms, and those of the second for the other variables.  But bindings are followed, so these terms
are gone through once more, and by the bindings of both substitutions: a variable of the first that
stands in a term of the second is replaced although the first comes before the second, and one that
both bind and that stands in a term of the first is replaced by the second alone.

Whether the composition is sequential nevertheless is seen on single bindings.

## Main definitions

- `Substitution.Compatible`: going through the bound terms once more changes nothing
- `Substitution.Apart`: no term mentions a variable that the other substitution interferes with

## Main statements

- `Substitution.find?_compose`: the bindings of a composition
- `Substitution.Acyclic.apply_compose_iff`: compositions of compatible substitutions are sequential,
  and no others
- `composition_sequential`
-/

namespace Clausal

namespace Substitution

variable {σ τ : Substitution} {x y : Ident}

/-! ## Section 1: The bindings of a composition -/

/-- A binding of the first substitution takes precedence, after the second one is applied to it. -/
theorem find?_compose (σ τ : Substitution) (x : Ident) :
    (σ.compose τ).find? x = ((σ.find? x).map τ.apply).or (τ.find? x) := by
  have hfold : ∀ (bs : List (Ident × Term)) (ρ : Substitution),
      (bs.foldl (fun ρ b => if ρ.isBound b.1 then ρ else ρ.insert b.1 b.2) ρ).find? x =
        (ρ.find? x).or (bs.lookup x) := by
    intro bs
    induction bs with
    | nil => simp
    | cons b bs ih =>
      intro ρ
      rw [List.foldl_cons, ih, List.lookup_cons]
      by_cases hx : x = b.1
      · subst hx
        cases hf : ρ.find? b.1 <;> simp [isBound, hf, find?_insert]
      · by_cases hb : ρ.isBound b.1 = true <;> simp [hb, hx, find?_insert, beq_false_of_ne hx]
  rw [compose, hfold, find?_mapTerms]
  rfl

/-- A binding of the composition mentions what the second substitution makes of a variable of the
    first one's term, or what a term of the second substitution mentions. -/
theorem Reads.of_compose (h : (σ.compose τ).Reads x y) :
    (∃ z, σ.Reads x z ∧ y ∈ (τ.value z).vars) ∨ σ.find? x = none ∧ τ.Reads x y := by
  obtain ⟨t, ht, hy⟩ := h
  rw [find?_compose] at ht
  cases hf : σ.find? x with
  | none => exact Or.inr ⟨rfl, t, by simpa [hf] using ht, hy⟩
  | some u =>
    obtain rfl : τ.apply u = t := by simpa [hf] using ht
    obtain ⟨z, hz, hy⟩ := Term.mem_vars_subst.mp hy
    exact Or.inl ⟨z, ⟨u, hf, hz⟩, hy⟩

/-! ## Section 2: When the composition is sequential -/

/-- The value of a variable under `σ` first and `τ` after it. -/
def sequel (σ τ : Substitution) (x : Ident) : Term :=
  τ.apply (σ.value x)

theorem apply_apply_eq_subst (σ τ : Substitution) (t : Term) :
    τ.apply (σ.apply t) = t.subst (sequel σ τ) :=
  Term.subst_subst σ.value τ.value t

/-- Applying both substitutions again, or the first one once more, changes nothing where a term of
    one of them mentions a variable. -/
structure Compatible (σ τ : Substitution) : Prop where
  first : ∀ x y, σ.Reads x y → τ.apply (σ.apply (τ.value y)) = τ.apply (σ.value y)
  second : ∀ x y, σ.find? x = none → τ.Reads x y → τ.apply (σ.value y) = τ.value y

/-- Substitutions are compatible exactly if sequential values satisfy the bindings of the
    composition. -/
theorem compatible_iff_solves (hσ : σ.Acyclic) (hτ : τ.Acyclic) :
    Compatible σ τ ↔ (σ.compose τ).Solves (sequel σ τ) := by
  have hfirst : ∀ x t, σ.find? x = some t → (sequel σ τ x = (τ.apply t).subst (sequel σ τ) ↔
      ∀ y ∈ t.vars, τ.apply (σ.apply (τ.value y)) = τ.apply (σ.value y)) := by
    intro x t hx
    rw [sequel, hσ.value_of_bound hx, apply_apply_eq_subst, apply, Term.subst_subst,
      Term.subst_eq_subst_iff]
    simp only [apply_apply_eq_subst]
    exact forall₂_congr fun y _ => eq_comm
  have hsecond : ∀ x t, σ.find? x = none → τ.find? x = some t →
      (sequel σ τ x = t.subst (sequel σ τ) ↔ ∀ y ∈ t.vars, τ.apply (σ.value y) = τ.value y) := by
    intro x t hx ht
    rw [sequel, value_of_unbound hx, apply_var, hτ.value_of_bound ht, apply,
      Term.subst_eq_subst_iff]
    exact forall₂_congr fun y _ => eq_comm
  constructor
  · intro h x t ht
    rw [find?_compose] at ht
    cases hf : σ.find? x with
    | none =>
      have ht : τ.find? x = some t := by simpa [hf] using ht
      exact (hsecond x t hf ht).mpr fun y hy => h.second x y hf ⟨t, ht, hy⟩
    | some u =>
      obtain rfl : τ.apply u = t := by simpa [hf] using ht
      exact (hfirst x u hf).mpr fun y hy => h.first x y ⟨u, hf, hy⟩
  · intro h
    refine ⟨fun x y hxy => ?_, fun x y hx hxy => ?_⟩
    · obtain ⟨t, ht, hy⟩ := hxy
      exact (hfirst x t ht).mp (h x _ (by simp [find?_compose, ht])) y hy
    · obtain ⟨t, ht, hy⟩ := hxy
      exact (hsecond x t hx ht).mp (h x t (by simp [find?_compose, hx, ht])) y hy

/-- If no chain of bindings of the composition closes, it is sequential exactly if the substitutions
    are compatible. -/
theorem Acyclic.apply_compose_iff (hσ : σ.Acyclic) (hτ : τ.Acyclic)
    (hκ : (σ.compose τ).Acyclic) :
    (∀ t, (σ.compose τ).apply t = τ.apply (σ.apply t)) ↔ Compatible σ τ := by
  rw [compatible_iff_solves hσ hτ]
  constructor
  · intro h
    have hvalue : (σ.compose τ).value = sequel σ τ := funext fun x => h (.var x)
    rw [← hvalue]
    exact hκ.solves_value
  · intro h t
    rw [apply_apply_eq_subst, ← h.subst_apply hκ t]
    -- the variables that are left are bound by neither
    refine (Term.subst_eq_self fun y hy => ?_).symm
    have hy := hκ.unbound_of_mem_apply hy
    rw [find?_compose, Option.or_eq_none_iff, Option.map_eq_none_iff] at hy
    rw [sequel, value_of_unbound hy.1, apply_var, value_of_unbound hy.2]

/-! ## Section 3: Substitutions that do not interfere -/

/-- The terms of `σ` mention no variable that is bound by both, and those of `τ` none that is bound
    by `σ`. -/
def Apart (σ τ : Substitution) : Prop :=
  (∀ b ∈ σ.bindings, ∀ y ∈ b.2.vars, σ.find? y = none ∨ τ.find? y = none) ∧
    ∀ b ∈ τ.bindings, ∀ y ∈ b.2.vars, σ.find? y = none

instance (σ τ : Substitution) : Decidable (Apart σ τ) :=
  inferInstanceAs (Decidable (_ ∧ _))

namespace Apart

theorem first (h : Apart σ τ) (hxy : σ.Reads x y) : σ.find? y = none ∨ τ.find? y = none := by
  obtain ⟨t, ht, hy⟩ := hxy
  exact h.1 _ (mem_bindings_of_find? ht) y hy

theorem second (h : Apart σ τ) (hxy : τ.Reads x y) : σ.find? y = none := by
  obtain ⟨t, ht, hy⟩ := hxy
  exact h.2 _ (mem_bindings_of_find? ht) y hy

private theorem unbound_of_mem_value (h : Apart σ τ) (hτ : τ.Acyclic) (hx : σ.find? x = none)
    (hy : y ∈ (τ.value x).vars) : σ.find? y = none := by
  rcases (hτ.meets_of_mem_value hy).cases_tail with rfl | ⟨z, -, hzy⟩
  · exact hx
  · exact h.second hzy

private theorem compatible (h : Apart σ τ) (hτ : τ.Acyclic) : Compatible σ τ where
  first x y hxy := by
    -- the variable is left to `τ`, and then `σ` has nothing to replace; or it is left to `σ`
    rcases h.first hxy with hy | hy
    · have hfix : σ.apply (τ.value y) = τ.value y :=
        Term.subst_eq_self fun z hz => value_of_unbound (h.unbound_of_mem_value hτ hy hz)
      rw [hfix, value_of_unbound hy, ← apply_var, hτ.apply_apply]
    · rw [value_of_unbound hy, apply_var]
  second x y _ hxy := by rw [value_of_unbound (h.second hxy), apply_var]

private theorem acyclic_compose (h : Apart σ τ) (hσ : σ.Acyclic) (hτ : τ.Acyclic) :
    (σ.compose τ).Acyclic := by
  -- chains run through the bindings of `σ` first and stay among those of `τ` then
  refine acyclic_of_rank
    (fun x => if σ.find? x = none then τ.rank x else τ.size + 1 + σ.rank x) fun x y hxy => ?_
  rcases hxy.of_compose with ⟨z, hxz, hy⟩ | ⟨hx, hxy⟩
  · have hx : σ.find? x ≠ none := by
      obtain ⟨t, ht, -⟩ := hxz
      simp [ht]
    by_cases hy' : σ.find? y = none
    · have hle := τ.rank_le_size y
      simp only [hy', hx, if_true, if_false]
      omega
    · -- a variable that a term of `τ` mentions would not be bound by `σ`
      obtain rfl : y = z := by
        rcases (hτ.meets_of_mem_value hy).cases_tail with heq | ⟨w, -, hwy⟩
        · exact heq
        · exact absurd (h.second hwy) hy'
      have hlt := hσ.rank_lt hxz
      simp only [hy', hx, if_false]
      omega
  · simpa [hx, h.second hxy] using hτ.rank_lt hxy

end Apart

end Substitution

variable {σ τ : Substitution}

/-- For substitutions without cycles, the composition is sequential if they are apart.  More
    generally, a composition without cycles is sequential exactly if they are compatible. -/
theorem composition_sequential (hσ : σ.Acyclic) (hτ : τ.Acyclic) :
    (σ.Apart τ →
      (σ.compose τ).Acyclic ∧ ∀ t, (σ.compose τ).apply t = τ.apply (σ.apply t)) ∧
    ((σ.compose τ).Acyclic →
      ((∀ t, (σ.compose τ).apply t = τ.apply (σ.apply t)) ↔ σ.Compatible τ)) := by
  refine ⟨fun h => ?_, hσ.apply_compose_iff hτ⟩
  have hκ := h.acyclic_compose hσ hτ
  exact ⟨hκ, (hσ.apply_compose_iff hτ hκ).mpr (h.compatible hτ)⟩

/-- `W` is bound to `X` and `X` to `f(Y)`, and then `Y` to `a` and `Z` to `b`: the terms of the
    second substitution are ground, and those of the first mention nothing that both bind. -/
theorem composition_sequential_chain :
    let f := fun t => Term.app (.num 0) [t]
    let w := Ident.num 1
    let x := Ident.num 2
    let y := Ident.num 3
    let σ := (Substitution.empty.insert w (.var x)).insert x (f (.var y))
    let τ := (Substitution.empty.insert y (.const (.num 4))).insert (.num 5) (.const (.num 6))
    σ.Compatible τ ∧ ∀ t, (σ.compose τ).apply t = τ.apply (σ.apply t) := by
  intro f w x y σ τ
  have hσ : σ.Acyclic :=
    (Substitution.acyclic_empty.insert (by decide) (by decide)).insert (by decide) (by decide)
  have hτ : τ.Acyclic :=
    (Substitution.acyclic_empty.insert (by decide) (by decide)).insert (by decide) (by decide)
  obtain ⟨hapart, hcompatible⟩ := composition_sequential hσ hτ
  obtain ⟨hκ, hsequential⟩ := hapart (by decide)
  exact ⟨(hcompatible hκ).mp hsequential, hsequential⟩

/-- `X` is bound to `Y` and `Y` to `a`, and then `Y` to `b`: the composition binds `X` to `b`,
    although the first substitution makes `a` of it. -/
theorem composition_skips_chain :
    let x := Ident.num 0
    let y := Ident.num 1
    let a := Term.const (.num 2)
    let b := Term.const (.num 3)
    let σ := (Substitution.empty.insert x (.var y)).insert y a
    let τ := Substitution.empty.insert y b
    σ.Acyclic ∧ τ.Acyclic ∧ (σ.compose τ).apply (.var x) = b ∧
      τ.apply (σ.apply (.var x)) = a ∧ a ≠ b := by
  intro x y a b σ τ
  refine ⟨?_, ?_, by decide, by decide, by decide⟩
  · exact (Substitution.acyclic_empty.insert (by decide) (by decide)).insert (by decide) (by decide)
  · exact Substitution.acyclic_empty.insert (by decide) (by decide)

end Clausal
