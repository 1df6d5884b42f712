import Clausal.Resolution.Resolvent
import Clausal.Proofs.Respelling.Unification

/-!
# Resolution under respelling

Factoring and resolution unify literals and compare them, and look at names for nothing else.  With
other names the same literals are resolved upon and merged.

## Main statements

- `factor_respell`, `isTautology_respell`
- `Clause.resolveOn_respell`, `Clause.resolveApart_respell`
-/

namespace Clausal

variable (ρ : Respelling)

/-! ## Section 1: Factoring -/

/-- The first two literals that unify stand in the same places. -/
private theorem firstUnifier?_respell (ls : List Literal) :
    firstUnifier? (ls.map (Literal.respell ρ)) =
      (firstUnifier? ls).map (Substitution.respell ρ) := by
  induction ls with
  | nil => rfl
  | cons l ls ih =>
    have hfind : (ls.map (Literal.respell ρ)).findSome? ((l.respell ρ).unify .empty) =
        (ls.findSome? (l.unify .empty)).map (Substitution.respell ρ) := by
      rw [List.findSome?_map, List.map_findSome?]
      exact congrArg (ls.findSome? ·) (funext fun m => l.unify_respell ρ .empty m)
    rw [List.map_cons, firstUnifier?, firstUnifier?, hfind, ih]
    cases ls.findSome? (l.unify .empty) <;> rfl

private theorem dedup_applyLiteral_respell (σ : Substitution) (ls : List Literal) :
    dedup ((ls.map (Literal.respell ρ)).map (σ.respell ρ).applyLiteral) =
      (dedup (ls.map σ.applyLiteral)).map (Literal.respell ρ) := by
  rw [← (Literal.keepsEq_respell ρ).dedup_map, List.map_map, List.map_map]
  exact congrArg dedup (List.map_congr_left fun l _ => (σ.respell_applyLiteral ρ l).symm)

/-- Each merging of two literals is the same in both spellings. -/
private theorem factorFor_respell (n : Nat) (ls : List Literal) :
    factorFor n (ls.map (Literal.respell ρ)) = (factorFor n ls).map (Literal.respell ρ) := by
  -- the same pair is merged first, and the rest is about the merged literals
  induction n generalizing ls with
  | zero => rfl
  | succ n ih =>
    rw [factorFor, factorFor, firstUnifier?_respell]
    cases firstUnifier? ls with
    | none => rfl
    | some σ =>
      dsimp only [Option.map_some]
      rw [dedup_applyLiteral_respell, ih]

theorem factor_respell (ls : List Literal) :
    factor (ls.map (Literal.respell ρ)) = (factor ls).map (Literal.respell ρ) := by
  rw [factor, List.length_map, (Literal.keepsEq_respell ρ).dedup_map, factorFor_respell, factor]

/-- Complementary literals stay complementary. -/
theorem isTautology_respell (ls : List Literal) :
    isTautology (ls.map (Literal.respell ρ)) = isTautology ls := by
  have hcomplements : ∀ l m : Literal,
      (l.respell ρ).complements (m.respell ρ) = l.complements m := fun l m =>
    congrArg (· && l.positive != m.positive) (Atom.keepsEq_respell ρ l.atom m.atom)
  induction ls with
  | nil => rfl
  | cons l ls ih =>
    rw [List.map_cons, isTautology, isTautology, ih, List.any_map]
    exact congrArg (· || isTautology ls) (congrArg ls.any (funext (hcomplements l)))

/-! ## Section 2: Resolvents -/

namespace Clause

private theorem without_respell (c : Clause) (l : Literal) :
    (c.respell ρ).without (l.respell ρ) = (c.without l).map (Literal.respell ρ) := by
  rw [without, literals_respell, List.filter_map]
  refine congrArg (List.map _) (List.filter_congr fun m _ => ?_)
  exact congrArg not (Literal.keepsEq_respell ρ m l)

/-- Two clauses resolve on two literals in one spelling as in the other. -/
theorem resolveOn_respell (c d : Clause) (l m : Literal) :
    (c.respell ρ).resolveOn (d.respell ρ) (l.respell ρ) (m.respell ρ) =
      (c.resolveOn d l m).map (Prod.map (Substitution.respell ρ) (respell ρ)) := by
  have hunify : (l.respell ρ).unify .empty (m.respell ρ).negate =
      (l.unify .empty m.negate).map (Substitution.respell ρ) :=
    l.unify_respell ρ .empty m.negate
  rw [resolveOn, hunify, resolveOn]
  cases l.unify .empty m.negate with
  | none => rfl
  | some σ =>
    have hfactor : factor (((c.respell ρ).without (l.respell ρ) ++
          (d.respell ρ).without (m.respell ρ)).map (σ.respell ρ).applyLiteral) =
        (factor ((c.without l ++ d.without m).map σ.applyLiteral)).map (Literal.respell ρ) := by
      rw [without_respell, without_respell, ← List.map_append, ← factor_respell, List.map_map,
        List.map_map]
      exact congrArg factor (List.map_congr_left fun k _ => (σ.respell_applyLiteral ρ k).symm)
    dsimp only [Option.map_some]
    -- a resolvent is dropped in both spellings or in none
    rw [hfactor, isTautology_respell, ← respell_ofList]
    split <;> rfl

/-- Respelled clauses have the respelled resolvents, in the same order. -/
theorem resolveApart_respell (c d : Clause) :
    (c.respell ρ).resolveApart (d.respell ρ) =
      (c.resolveApart d).map (Prod.map (Substitution.respell ρ) (respell ρ)) := by
  simp only [resolveApart, literals_respell, List.flatMap_map, List.filterMap_map,
    Function.comp_def, resolveOn_respell, List.map_flatMap, List.map_filterMap]

end Clause

end Clausal
