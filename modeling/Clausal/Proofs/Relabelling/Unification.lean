import Clausal.Matching
import Clausal.Proofs.Relabelling.Expression
import Clausal.Proofs.Respelling.Unification

/-!
# Unification and matching under relabelling

Unification and matching look at names only to compare them with each other.  With other labels they
succeed in the same cases, and what they find is what they found before, with other labels.

## Main definitions

- `Substitution.relabel`

## Main statements

- `Substitution.find?_relabel`, `Substitution.relabel_insert`, `Substitution.relabel_applyAtom`
- `Atom.unify_relabel`, `Atom.match?_relabel`
-/

namespace Clausal

variable (π : Relabelling)

/-! ## Section 1: Substitutions -/

namespace Substitution

/-- A substitution with other labels, for the variables and in their terms. -/
def relabel (σ : Substitution) : Substitution where
  bindings := σ.bindings.map fun b => (b.1.relabel π, b.2.relabel π)
  nodup := by
    rw [List.map_map, Function.comp_def, ← Function.comp_def (Ident.relabel π), ← List.map_map]
    exact σ.nodup.map (Ident.relabel_injective π)

theorem relabel_eq_respell : relabel π = respell π.respelling := by
  funext σ
  apply eq_of_bindings_eq
  simp only [relabel, respell, Term.relabel_eq_respell, Relabelling.respelling]

@[simp]
theorem relabel_empty : empty.relabel π = empty := rfl

@[simp]
theorem find?_relabel (σ : Substitution) (x : Ident) :
    (σ.relabel π).find? (x.relabel π) = (σ.find? x).map (Term.relabel π) := by
  rw [relabel_eq_respell, Term.relabel_eq_respell]
  exact σ.find?_respell π.respelling x

theorem relabel_insert (σ : Substitution) (x : Ident) (t : Term) :
    (σ.insert x t).relabel π = (σ.relabel π).insert (x.relabel π) (t.relabel π) := by
  rw [relabel_eq_respell, Term.relabel_eq_respell]
  exact σ.respell_insert π.respelling x t

private theorem relabel_value (σ : Substitution) (x : Ident) :
    (σ.value x).relabel π = (σ.relabel π).value (x.relabel π) := by
  rw [relabel_eq_respell, Term.relabel_eq_respell]
  exact σ.respell_value π.respelling x

theorem relabel_applyAtom (σ : Substitution) (a : Atom) :
    (σ.applyAtom a).relabel π = (σ.relabel π).applyAtom (a.relabel π) :=
  Atom.relabel_subst π fun x _ => σ.relabel_value π x

end Substitution

/-! ## Section 2: Unification -/

/-- Atoms unify whatever their labels are. -/
theorem Atom.unify_relabel (σ : Substitution) (a b : Atom) :
    (a.relabel π).unify (σ.relabel π) (b.relabel π) =
      (a.unify σ b).map (Substitution.relabel π) := by
  rw [relabel_eq_respell, Substitution.relabel_eq_respell]
  exact a.unify_respell π.respelling σ b

@[simp]
theorem Atom.isSome_unify_relabel (a b : Atom) :
    ((a.relabel π).unify .empty (b.relabel π)).isSome = (a.unify .empty b).isSome := by
  have h := a.unify_relabel π .empty b
  rw [Substitution.relabel_empty] at h
  rw [h, Option.isSome_map]

/-! ## Section 3: Matching -/

theorem Term.matchList?_relabel {as : List Term}
    (has : ∀ a ∈ as, ∀ σ t, Term.match? (σ.relabel π) (a.relabel π) (t.relabel π) =
      (Term.match? σ a t).map (Substitution.relabel π)) (σ : Substitution) (bs : List Term) :
    Term.matchList? (σ.relabel π) (as.map (Term.relabel π)) (bs.map (Term.relabel π)) =
      (Term.matchList? σ as bs).map (Substitution.relabel π) := by
  induction as generalizing σ bs with
  | nil => simp [matchList?]
  | cons a as ih =>
    obtain ⟨ha, has⟩ := List.forall_mem_cons.mp has
    cases bs with
    | nil => simp [matchList?]
    | cons b bs =>
      rw [List.map_cons, List.map_cons, matchList?, matchList?, ha]
      cases Term.match? σ a b with
      | none => rfl
      | some τ => exact ih has τ bs

private theorem Term.match?_relabel (σ : Substitution) (s t : Term) :
    Term.match? (σ.relabel π) (s.relabel π) (t.relabel π) =
      (Term.match? σ s t).map (Substitution.relabel π) := by
  induction s using Term.induction generalizing σ t with
  | var x =>
    rw [relabel_var, match?, match?, Substitution.find?_relabel]
    cases σ.find? x with
    | none => simp [Substitution.relabel_insert]
    | some u =>
      simp only [Option.map_some, relabel_inj]
      split <;> rfl
  | const c =>
    rw [relabel_const, match?, match?]
    simp only [relabel_eq_const]
    split <;> rfl
  | app f as ih =>
    cases t with
    | var y | const y => simp [match?]
    | app g bs =>
      rw [relabel_app, relabel_app, match?, match?]
      simp only [Ident.relabel_inj, List.length_map]
      split
      next => exact matchList?_relabel π ih σ bs
      next => rfl

/-- Atoms are matched whatever their labels are. -/
theorem Atom.match?_relabel (σ : Substitution) (a b : Atom) :
    (a.relabel π).match? (σ.relabel π) (b.relabel π) =
      (a.match? σ b).map (Substitution.relabel π) := by
  have hlist : ∀ (σ : Substitution) (bs : List Term),
      Term.matchList? (σ.relabel π) (a.args.map (Term.relabel π)) (bs.map (Term.relabel π)) =
        (Term.matchList? σ a.args bs).map (Substitution.relabel π) :=
    Term.matchList?_relabel π fun t _ σ => Term.match?_relabel π σ t
  simp only [match?, symbol_relabel, args_relabel, isEq_relabel, Ident.relabel_inj,
    List.length_map, ← List.map_reverse, hlist]
  split
  next =>
    cases Term.matchList? σ a.args b.args with
    | some τ => rfl
    | none =>
      dsimp only [Option.map_none]
      split <;> rfl
  next => rfl

@[simp]
theorem Atom.isSome_match?_relabel (a b : Atom) :
    ((a.relabel π).match? .empty (b.relabel π)).isSome = (a.match? .empty b).isSome := by
  have h := a.match?_relabel π .empty b
  rw [Substitution.relabel_empty] at h
  rw [h, Option.isSome_map]

end Clausal
