import Clausal.Proofs.Semantics
import Clausal.Proofs.Substitution

/-!
# Substitution below quantifiers

The truth of a formula to which a substitution is applied should be that of the formula itself, with
the values of its free variables under the substitution in place of their own.  Below a quantifier
the binding of the quantified variable is hidden, and the bindings of other variables are followed
without it; bound variables are not renamed.  So a free variable from which bindings lead to the
quantified one goes wrong: the chain ends there, at a variable that means something else.

If no bindings lead from a free variable to a quantifier above it, a hidden binding is never missed
and a quantifier never captures anything.

## Main definitions

- `Substitution.isFreeFor`: bindings lead from no free variable to a quantifier above it

## Main statements

- `Substitution.Acyclic.value_erase`: a binding that is not met may be dropped
- `substitution_lemma`
-/

namespace Clausal

universe u

namespace Substitution

variable {σ : Substitution} {x y z : Ident}

/-! ## Section 1: Hidden bindings -/

theorem find?_erase (σ : Substitution) (x y : Ident) :
    (σ.erase x).find? y = if y = x then none else σ.find? y := by
  have hlookup : ∀ bs : List (Ident × Term),
      (bs.filter (·.1 ≠ x)).lookup y = if y = x then none else bs.lookup y := by
    intro bs
    induction bs with
    | nil => simp
    | cons b bs ih =>
      obtain ⟨z, t⟩ := b
      by_cases hz : z = x
      · subst hz
        by_cases hy : y = z
        · subst hy
          simpa using ih
        · simpa [hy, beq_false_of_ne hy, List.lookup_cons] using ih
      · by_cases hy : y = z
        · simp [hy, hz]
        · simpa [hz, beq_false_of_ne hy, List.lookup_cons] using ih
  exact hlookup σ.bindings

private theorem Reads.of_erase (h : (σ.erase x).Reads y z) : σ.Reads y z := by
  obtain ⟨t, ht, hz⟩ := h
  rw [find?_erase] at ht
  split at ht
  next => cases ht
  next => exact ⟨t, ht, hz⟩

namespace Acyclic

theorem erase (hσ : σ.Acyclic) (x : Ident) : (σ.erase x).Acyclic :=
  fun y hy => hσ y (Relation.TransGen.mono (fun _ _ => Reads.of_erase) _ _ hy)

/-- A binding that is not met when bindings are followed may be dropped. -/
theorem value_erase (hσ : σ.Acyclic) (h : ¬ Relation.ReflTransGen σ.Reads y x) :
    (σ.erase x).value y = σ.value y := by
  induction y using hσ.induction with
  | _ y ih =>
    have hyx : y ≠ x := by
      rintro rfl
      exact h .refl
    have hfind : (σ.erase x).find? y = σ.find? y := by rw [find?_erase, if_neg hyx]
    cases hf : σ.find? y with
    | none => rw [value_of_unbound hf, value_of_unbound (hfind.trans hf)]
    | some t =>
      rw [hσ.value_of_bound hf, (hσ.erase x).value_of_bound (hfind.trans hf)]
      refine Term.subst_congr fun z hz => ih z ⟨t, hf, hz⟩ fun hzx => h ?_
      exact .head ⟨t, hf, hz⟩ hzx

end Acyclic

/-! ## Section 2: Quantifiers that capture nothing -/

/-- Whether bindings lead from no free variable of a quantified formula to the quantified variable,
    whose own binding is hidden further in. -/
def isFreeFor (σ : Substitution) : Formula → Bool
  | .atom _ => true
  | .not f => σ.isFreeFor f
  | .and f g | .or f g | .imp f g | .iff f g => σ.isFreeFor f && σ.isFreeFor g
  | .all x f | .ex x f =>
    ((f.freeVars.filter (· ≠ x)).all fun y => !σ.reaches x (.var y)) && (σ.erase x).isFreeFor f

/-- What it takes to apply a substitution below a quantifier. -/
theorem Acyclic.isFreeFor_quantified (hσ : σ.Acyclic) {f : Formula}
    (h : ((f.freeVars.filter (· ≠ x)).all (fun y => !σ.reaches x (.var y)) &&
      (σ.erase x).isFreeFor f) = true) :
    (∀ y ∈ f.freeVars, y ≠ x → ¬ Relation.ReflTransGen σ.Reads y x) ∧
      (σ.erase x).isFreeFor f = true := by
  obtain ⟨hfree, hf⟩ := Bool.and_eq_true_iff.mp h
  refine ⟨fun y hy hyx hmeets => ?_, hf⟩
  have hnot := List.all_eq_true.mp hfree y (List.mem_filter.mpr ⟨hy, by simpa using hyx⟩)
  have hreach : σ.reaches x (.var y) = true := hσ.reaches_iff.mpr ⟨y, by simp [Term.vars], hmeets⟩
  rw [hreach] at hnot
  cases hnot

end Substitution

namespace Interpretation

variable {D : Type u} (I : Interpretation D) {σ : Substitution} {x : Ident}

/-- Below a quantifier, the variables have the values that the substitution gives them above it. -/
theorem eval_value_erase (hσ : σ.Acyclic) {y : Ident}
    (h : y ≠ x → ¬ Relation.ReflTransGen σ.Reads y x) (v : Ident → D) (d : D) :
    I.eval (Function.update v x d) ((σ.erase x).value y) =
      Function.update (fun z => I.eval v (σ.value z)) x d y := by
  by_cases hyx : y = x
  · subst hyx
    have hunbound : (σ.erase y).find? y = none := by rw [Substitution.find?_erase, if_pos rfl]
    rw [Substitution.value_of_unbound hunbound, eval_var, Function.update_self,
      Function.update_self]
  · rw [hσ.value_erase (h hyx), Function.update_of_ne hyx]
    -- the quantified variable does not occur in the value
    refine I.eval_congr fun z hz => Function.update_of_ne ?_ d v
    rintro rfl
    exact h hyx (hσ.meets_of_mem_value hz)

/-- If nothing is captured, a substitution may be applied to a formula or to the values of its
    variables. -/
theorem holds_applyFormula (hσ : σ.Acyclic) {f : Formula} (hf : σ.isFreeFor f = true)
    (v : Ident → D) :
    I.Holds v (σ.applyFormula f) ↔ I.Holds (fun x => I.eval v (σ.value x)) f := by
  have parts {p q : Bool} : (p && q) = true → p = true ∧ q = true := Bool.and_eq_true_iff.mp
  induction f generalizing σ v with
  | atom a => exact I.holdsAtom_subst v σ.value a
  | not f ih => exact not_congr (ih hσ hf v)
  | and f g ihf ihg => exact and_congr (ihf hσ (parts hf).1 v) (ihg hσ (parts hf).2 v)
  | or f g ihf ihg => exact or_congr (ihf hσ (parts hf).1 v) (ihg hσ (parts hf).2 v)
  | imp f g ihf ihg => exact imp_congr (ihf hσ (parts hf).1 v) (ihg hσ (parts hf).2 v)
  | iff f g ihf ihg => exact iff_congr (ihf hσ (parts hf).1 v) (ihg hσ (parts hf).2 v)
  | all x f ih =>
    obtain ⟨hx, hf⟩ := hσ.isFreeFor_quantified hf
    -- the formula below is about the substitution without `x`; its variables have the same values
    refine forall_congr' fun d => (ih (hσ.erase x) hf _).trans (I.holds_congr fun y hy => ?_)
    exact I.eval_value_erase hσ (hx y hy) v d
  | ex x f ih =>
    obtain ⟨hx, hf⟩ := hσ.isFreeFor_quantified hf
    refine exists_congr fun d => (ih (hσ.erase x) hf _).trans (I.holds_congr fun y hy => ?_)
    exact I.eval_value_erase hσ (hx y hy) v d

end Interpretation

/-- A substitution without cycles that is free for a formula may be applied to it, or its free
    variables may be given the values that the substitution has for them: the formula is true in the
    one case exactly if it is in the other. -/
theorem substitution_lemma {D : Type u} (I : Interpretation D) {σ : Substitution} (hσ : σ.Acyclic)
    {f : Formula} (hf : σ.isFreeFor f = true) (v w : Ident → D)
    (hw : ∀ x ∈ f.freeVars, w x = I.eval v (σ.apply (.var x))) :
    I.Holds v (σ.applyFormula f) ↔ I.Holds w f :=
  (I.holds_applyFormula hσ hf v).trans (I.holds_congr fun x hx => (hw x hx).symm)

/-- `X` is bound to `Y`, `Y` to `Z` and `Z` to `f(U)`.  In `(?[X]: p(X, Y)) & q(X)` the first `X`
    stays and the second one becomes `f(U)`, as `Y` does. -/
theorem substitution_lemma_hidden :
    let x := Ident.num 0
    let y := Ident.num 1
    let z := Ident.num 2
    let σ := ((Substitution.empty.insert x (.var y)).insert y (.var z)).insert z
      (.app (.num 3) [.var (.num 4)])
    let f := Formula.and (.ex x (.atom (.pred (.num 5) [.var x, .var y])))
      (.atom (.pred (.num 6) [.var x]))
    let I : Interpretation Bool :=
      { const := fun _ => false
        func := fun _ ds => ds.isEmpty
        pred := fun p ds => ds = if p = .num 5 then [true, false] else [false]
        eq := fun a b => a = b }
    I.Holds (fun _ => true) (σ.applyFormula f) := by
  intro x y z σ f I
  have hσ : σ.Acyclic := ((Substitution.acyclic_empty.insert (by decide) (by decide)).insert
    (by decide) (by decide)).insert (by decide) (by decide)
  refine (substitution_lemma I hσ (by decide) _ _ fun _ _ => rfl).mpr ⟨⟨true, ?_⟩, ?_⟩
  · rfl
  · rfl

/-- `Y` is bound to `X` and `X` to `a`, so the value of `Y` is `a`; but in `![X]: p(Y)` the chain
    ends at `X`, and the quantifier captures it. -/
theorem substitution_captures :
    let x := Ident.num 0
    let y := Ident.num 1
    let σ := (Substitution.empty.insert y (.var x)).insert x (.const (.num 2))
    let f := Formula.all x (.atom (.pred (.num 3) [.var y]))
    let I : Interpretation Bool :=
      { const := fun _ => true
        func := fun _ _ => true
        pred := fun _ ds => ds = [true]
        eq := fun a b => a = b }
    let v := fun _ : Ident => false
    σ.Acyclic ∧ ¬ (I.Holds v (σ.applyFormula f) ↔
      I.Holds (fun u => I.eval v (σ.apply (.var u))) f) := by
  intro x y σ f I v
  refine ⟨?_, fun h => ?_⟩
  · exact (Substitution.acyclic_empty.insert (by decide) (by decide)).insert (by decide) (by decide)
  · have htrue : I.Holds (fun u => I.eval v (σ.apply (.var u))) f := fun _ => rfl
    have hfalse : [false] = [true] := h.mpr htrue false
    cases hfalse

end Clausal
