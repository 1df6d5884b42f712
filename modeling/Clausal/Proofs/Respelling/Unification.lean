import Clausal.Proofs.Respelling.Expression
import Clausal.Proofs.Substitution

/-!
# Unification under respelling

Unification looks at names only to compare them with each other.  With other names it succeeds in the
same cases, and what it finds is what it found before, with other names.

## Main definitions

- `Substitution.respell`

## Main statements

- `Substitution.find?_respell`, `Substitution.respell_insert`, `Substitution.respell_apply`
- `Atom.unify_respell`, `Literal.unify_respell`
-/

namespace Clausal

variable (ρ : Respelling)

/-! ## Section 1: Substitutions -/

namespace Substitution

/-- A substitution with other names, for the variables and in their terms. -/
def respell (σ : Substitution) : Substitution where
  bindings := σ.bindings.map fun b => (ρ.var b.1, b.2.respell ρ)
  nodup := by
    rw [List.map_map, Function.comp_def, ← Function.comp_def ρ.var, ← List.map_map]
    exact σ.nodup.map ρ.var_injective

/-- A substitution is its list of bindings. -/
theorem eq_of_bindings_eq {σ τ : Substitution} (h : σ.bindings = τ.bindings) : σ = τ := by
  cases σ
  cases τ
  cases h
  rfl

@[simp]
theorem respell_empty : empty.respell ρ = empty := rfl

@[simp]
theorem size_respell (σ : Substitution) : (σ.respell ρ).size = σ.size := by
  simp [size, respell]

/-- The bindings keep their number of symbols. -/
@[simp]
theorem symbols_respell (σ : Substitution) : (σ.respell ρ).symbols = σ.symbols := by
  have hterms : (σ.respell ρ).bindings.map Prod.snd =
      (σ.bindings.map Prod.snd).map (Term.respell ρ) := by
    simp [respell, Function.comp_def]
  rw [symbols, hterms, Term.symbolsList_respell, symbols]

/-- A variable is bound to the respelled term. -/
@[simp]
theorem find?_respell (σ : Substitution) (x : Ident) :
    (σ.respell ρ).find? (ρ.var x) = (σ.find? x).map (Term.respell ρ) :=
  ρ.keepsEq_var.lookup_map (Term.respell ρ) σ.bindings x

/-- A binding may be made before or after the respelling. -/
theorem respell_insert (σ : Substitution) (x : Ident) (t : Term) :
    (σ.insert x t).respell ρ = (σ.respell ρ).insert (ρ.var x) (t.respell ρ) := by
  have hkeys : ρ.var x ∈ (σ.respell ρ).bindings.map Prod.fst ↔
      x ∈ σ.bindings.map Prod.fst := by
    simp [respell]
  apply eq_of_bindings_eq
  by_cases hx : x ∈ σ.bindings.map Prod.fst
  · -- a bound variable keeps its place
    rw [insert, dif_pos hx, insert, dif_pos (hkeys.mpr hx)]
    simp only [respell, mapTerms, List.map_map, Function.comp_def, Respelling.var_inj]
    refine List.map_congr_left fun b _ => ?_
    split <;> rfl
  · rw [insert, dif_neg hx, insert, dif_neg (mt hkeys.mp hx)]
    simp [respell]

private theorem respell_follow (σ : Substitution) (n : Nat) (t : Term) :
    (σ.follow n t).respell ρ = (σ.respell ρ).follow n (t.respell ρ) := by
  induction n generalizing t with
  | zero => rfl
  | succ n ih =>
    refine Term.respell_subst ρ fun x _ => ?_
    rw [find?_respell]
    cases σ.find? x with
    | none => simp
    | some u => exact ih u

/-- The value of a variable is respelled with it. -/
theorem respell_value (σ : Substitution) (x : Ident) :
    (σ.value x).respell ρ = (σ.respell ρ).value (ρ.var x) := by
  rw [value, respell_follow, value, size_respell, Term.respell_var]

theorem respell_apply (σ : Substitution) (t : Term) :
    (σ.apply t).respell ρ = (σ.respell ρ).apply (t.respell ρ) :=
  Term.respell_subst ρ fun x _ => σ.respell_value ρ x

/-- What a substitution makes of a literal is respelled with both. -/
theorem respell_applyLiteral (σ : Substitution) (l : Literal) :
    (σ.applyLiteral l).respell ρ = (σ.respell ρ).applyLiteral (l.respell ρ) :=
  Literal.respell_subst ρ fun x _ => σ.respell_value ρ x

private theorem respell_walkFor (σ : Substitution) (n : Nat) (t : Term) :
    (σ.walkFor n t).respell ρ = (σ.respell ρ).walkFor n (t.respell ρ) := by
  induction n generalizing t with
  | zero => simp [walkFor]
  | succ n ih =>
    cases t with
    | var x =>
      rw [Term.respell_var, walkFor, walkFor, find?_respell]
      cases σ.find? x with
      | none => simp
      | some u => exact ih u
    | const c => simp [walkFor]
    | app f ts => simp [walkFor]

/-- Chains of variables are followed equally far. -/
private theorem walk_respell (σ : Substitution) (t : Term) :
    (σ.respell ρ).walk (t.respell ρ) = (σ.walk t).respell ρ := by
  rw [walk, size_respell, walk, respell_walkFor]

/-- A variable is refused a term in both spellings or in none. -/
private theorem bindValue?_respell (σ : Substitution) (x : Ident) (t : Term) :
    (σ.respell ρ).bindValue? (ρ.var x) (t.respell ρ) = (σ.bindValue? x t).map (respell ρ) := by
  simp only [bindValue?, ← respell_apply, Term.occurs_respell, ← respell_insert]
  split <;> rfl

end Substitution

/-! ## Section 2: Unification -/

/-- Arguments unify alike if terms do. -/
theorem unifyArgs_respell {step : Substitution → Term → Term → Option Substitution}
    (hstep : ∀ σ s t, step (σ.respell ρ) (s.respell ρ) (t.respell ρ) =
      (step σ s t).map (Substitution.respell ρ)) (σ : Substitution) (as bs : List Term) :
    unifyArgs step (σ.respell ρ) (as.map (Term.respell ρ)) (bs.map (Term.respell ρ)) =
      (unifyArgs step σ as bs).map (Substitution.respell ρ) := by
  induction as generalizing σ bs with
  | nil => simp [unifyArgs]
  | cons a as ih =>
    cases bs with
    | nil => simp [unifyArgs]
    | cons b bs =>
      rw [List.map_cons, List.map_cons, unifyArgs, unifyArgs, hstep]
      cases step σ a b with
      | none => rfl
      | some τ => exact ih τ bs

/-- Terms unify alike in both spellings, as far as the search is followed. -/
private theorem unifyTerm_respell (n : Nat) (σ : Substitution) (s t : Term) :
    unifyTerm n (σ.respell ρ) (s.respell ρ) (t.respell ρ) =
      (unifyTerm n σ s t).map (Substitution.respell ρ) := by
  induction n generalizing σ s t with
  | zero => rfl
  | succ n ih =>
    have hargs := unifyArgs_respell ρ ih
    rw [unifyTerm, unifyTerm]
    simp only [Term.respell_inj, Substitution.walk_respell, Term.isVar_respell]
    split
    next => rfl
    next =>
      -- one case for each pair of outermost symbols
      cases σ.walk s with
      | var x =>
        simp only [Term.respell_var, Term.respell_eq_var]
        split
        next => rfl
        next => exact σ.bindValue?_respell ρ x _
      | const c =>
        cases σ.walk t with
        | var y => simpa using σ.bindValue?_respell ρ y (.const c)
        | const d =>
          simp only [Term.respell_const, Respelling.symbol_inj]
          split <;> rfl
        | app g bs => simp
      | app f as =>
        cases σ.walk t with
        | var y => simpa using σ.bindValue?_respell ρ y (.app f as)
        | const d => simp
        | app g bs =>
          simp only [Term.respell_app, Respelling.symbol_inj, List.length_map]
          split
          next => split <;> exact hargs σ _ _
          next => rfl

private theorem unifyList_respell (σ : Substitution) (as bs : List Term) :
    unifyList (σ.respell ρ) (as.map (Term.respell ρ)) (bs.map (Term.respell ρ)) =
      (unifyList σ as bs).map (Substitution.respell ρ) := by
  -- the bound on the search counts symbols, and these are as many as before
  have hdepth : unifyDepth (σ.respell ρ) (as.map (Term.respell ρ)) (bs.map (Term.respell ρ)) =
      unifyDepth σ as bs := by
    simp [unifyDepth]
  rw [unifyList, hdepth]
  exact unifyArgs_respell ρ (unifyTerm_respell ρ _) σ as bs

/-- Atoms unify whatever their names are. -/
theorem Atom.unify_respell (σ : Substitution) (a b : Atom) :
    (a.respell ρ).unify (σ.respell ρ) (b.respell ρ) =
      (a.unify σ b).map (Substitution.respell ρ) := by
  simp only [unify, symbol_respell, args_respell, isEq_respell, Respelling.symbol_inj,
    List.length_map, ← List.map_reverse, unifyList_respell]
  split
  next =>
    cases unifyList σ a.args b.args with
    | some τ => rfl
    | none =>
      -- only then are the sides of an equation tried in the other order
      dsimp only [Option.map_none]
      split <;> rfl
  next => rfl

/-- Literals unify alike in both spellings. -/
theorem Literal.unify_respell (σ : Substitution) (l m : Literal) :
    (l.respell ρ).unify (σ.respell ρ) (m.respell ρ) =
      (l.unify σ m).map (Substitution.respell ρ) := by
  simp only [unify, positive_respell, atom_respell, Atom.unify_respell]
  split <;> rfl

end Clausal
