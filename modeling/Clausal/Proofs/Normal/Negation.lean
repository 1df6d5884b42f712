import Clausal.Normal.Negation
import Clausal.Proofs.Semantics

/-!
# Meaning of negation normal form

Neither the elimination of implications and equivalences nor the descent of negations changes what
a formula says, and what comes out has negations on atoms only.

The descent can be put as rules for the formulas that a negation stands before.  They go on with
negations that are no parts of the formula they started from, so it is a weight that drops.

## Main definitions

- `Formula.IsNnf`: the shape of the result
- `Formula.pushNegations`: the rules

## Main statements

- `Interpretation.holds_eliminate`, `Interpretation.holds_nnfAs`
- `Formula.isNnf_nnfAs`
- `Formula.pushNegations_eq`: the rules lead to the same result
- `negation_normal_routes`
-/

namespace Clausal

universe u

/-! ## Section 1: Truth -/

namespace Interpretation

variable {D : Type u} (I : Interpretation D)

theorem holds_eliminate (v : Ident → D) (f : Formula) : I.Holds v f.eliminate ↔ I.Holds v f := by
  induction f generalizing v with
  | atom a => exact Iff.rfl
  | not f ih => exact not_congr (ih v)
  | and f g ihf ihg => exact and_congr (ihf v) (ihg v)
  | or f g ihf ihg => exact or_congr (ihf v) (ihg v)
  | imp f g ihf ihg =>
    simp only [Formula.eliminate, Holds, ihf, ihg]
    exact imp_iff_not_or.symm
  | iff f g ihf ihg =>
    simp only [Formula.eliminate, Holds, ihf, ihg]
    by_cases hf : I.Holds v f <;> by_cases hg : I.Holds v g <;> simp [hf, hg]
  | all x f ih => exact forall_congr' fun d => ih _
  | ex x f ih => exact exists_congr fun d => ih _

/-- The sign says whether the normal form is that of the formula or of its negation. -/
theorem holds_nnfAs (b : Bool) (v : Ident → D) (f : Formula) :
    I.Holds v (f.nnfAs b) ↔ (I.Holds v f ↔ b = true) := by
  induction f generalizing b v with
  | atom a => cases b <;> simp [Formula.nnfAs, Holds]
  | not f ih => cases b <;> simp [Formula.nnfAs, Holds, ih]
  | and f g ihf ihg =>
    cases b <;> simp [Formula.nnfAs, Holds, ihf, ihg, imp_iff_not_or]
  | or f g ihf ihg => cases b <;> simp [Formula.nnfAs, Holds, ihf, ihg]
  | imp f g ihf ihg => cases b <;> simp [Formula.nnfAs, Holds, ihf, ihg, imp_iff_not_or]
  | iff f g ihf ihg =>
    by_cases hf : I.Holds v f <;> by_cases hg : I.Holds v g <;> cases b <;>
      simp [Formula.nnfAs, Holds, ihf, ihg, hf, hg]
  | all x f ih => cases b <;> simp [Formula.nnfAs, Holds, ih]
  | ex x f ih => cases b <;> simp [Formula.nnfAs, Holds, ih]

end Interpretation

/-! ## Section 2: Shape -/

namespace Formula

/-- Negations stand on atoms only, and there are no implications and equivalences. -/
def IsNnf : Formula → Prop
  | .atom _ => True
  | .not (.atom _) => True
  | .not _ => False
  | .and f g | .or f g => f.IsNnf ∧ g.IsNnf
  | .imp _ _ | .iff _ _ => False
  | .all _ f | .ex _ f => f.IsNnf

theorem isNnf_nnfAs (b : Bool) (f : Formula) : (f.nnfAs b).IsNnf := by
  induction f generalizing b with
  | atom a => cases b <;> trivial
  | not f ih => cases b <;> exact ih _
  | and f g ihf ihg => cases b <;> exact ⟨ihf _, ihg _⟩
  | or f g ihf ihg => cases b <;> exact ⟨ihf _, ihg _⟩
  | imp f g ihf ihg => cases b <;> exact ⟨ihf _, ihg _⟩
  | iff f g ihf ihg =>
    cases b with
    | false => exact ⟨⟨ihf _, ihg _⟩, ⟨ihf _, ihg _⟩⟩
    | true => exact ⟨⟨ihf _, ihg _⟩, ⟨ihg _, ihf _⟩⟩
  | all x f ih => cases b <;> exact ih _
  | ex x f ih => cases b <;> exact ih _

/-! ## Section 3: Rules for negated formulas -/

/-- The number of negations and quantifiers, and twice the number of other connectives. -/
def weight : Formula → Nat
  | .atom _ => 0
  | .not f | .all _ f | .ex _ f => f.weight + 1
  | .and f g | .or f g | .imp f g | .iff f g => f.weight + g.weight + 2

/-- Move negations inwards by rules, one for each kind of formula and for the negation of each kind.
    What is to be negated in a result gets a negation that is moved on. -/
def pushNegations : Formula → Formula
  | .atom a => .atom a
  | .and f g => .and f.pushNegations g.pushNegations
  | .or f g => .or f.pushNegations g.pushNegations
  -- here the negations are new, not parts of the formula
  | .imp f g => .or (pushNegations (.not f)) g.pushNegations
  | .iff f g =>
    .and (.or (pushNegations (.not f)) g.pushNegations)
      (.or (pushNegations (.not g)) f.pushNegations)
  | .all x f => .all x f.pushNegations
  | .ex x f => .ex x f.pushNegations
  -- negations, by what they stand before
  | .not (.atom a) => .not (.atom a)
  | .not (.not f) => f.pushNegations
  | .not (.and f g) => .or (pushNegations (.not f)) (pushNegations (.not g))
  | .not (.or f g) => .and (pushNegations (.not f)) (pushNegations (.not g))
  | .not (.imp f g) => .and f.pushNegations (pushNegations (.not g))
  | .not (.iff f g) =>
    .and (.or f.pushNegations g.pushNegations)
      (.or (pushNegations (.not f)) (pushNegations (.not g)))
  | .not (.all x f) => .ex x (pushNegations (.not f))
  | .not (.ex x f) => .all x (pushNegations (.not f))
termination_by f => f.weight
decreasing_by all_goals simp only [weight]; omega

/-- The rules end with the normal form, for a formula and for its negation. -/
theorem pushNegations_eq (f : Formula) :
    f.pushNegations = f.nnfAs true ∧ (Formula.not f).pushNegations = f.nnfAs false := by
  induction f with
  | atom a => simp only [pushNegations, nnfAs, and_self]
  | not f ih =>
    -- the two halves change places, and the second one is the rule for double negations
    rw [ih.2, pushNegations, ih.1]
    exact ⟨rfl, rfl⟩
  | and f g ihf ihg | or f g ihf ihg | imp f g ihf ihg | iff f g ihf ihg =>
    simp only [pushNegations, nnfAs, ihf, ihg, and_self]
  | all x f ih | ex x f ih => simp only [pushNegations, nnfAs, ih, and_self]

end Formula

/-- Two ways lead to negation normal form: negations are moved inwards in the formula as it is, or
    after implications and equivalences have been eliminated.  Both ways come to an end.  Both results
    have negations on atoms only and no implications and equivalences, and both are true exactly where
    the formula is. -/
theorem negation_normal_routes (f : Formula) :
    (f.pushNegations = f.nnf ∧ f.eliminate.pushNegations = f.eliminate.nnf) ∧
      (f.nnf.IsNnf ∧ f.eliminate.nnf.IsNnf) ∧
      ∀ (D : Type u) (I : Interpretation D) (v : Ident → D),
        (I.Holds v f.nnf ↔ I.Holds v f) ∧ (I.Holds v f.eliminate.nnf ↔ I.Holds v f) := by
  have hnnf {D : Type u} (I : Interpretation D) (v : Ident → D) (g : Formula) :
      I.Holds v g.nnf ↔ I.Holds v g := by
    simpa [Formula.nnf] using I.holds_nnfAs true v g
  refine ⟨⟨f.pushNegations_eq.1, f.eliminate.pushNegations_eq.1⟩,
    ⟨f.isNnf_nnfAs true, f.eliminate.isNnf_nnfAs true⟩, fun D I v => ⟨hnnf I v f, ?_⟩⟩
  exact (hnnf I v f.eliminate).trans (I.holds_eliminate v f)

/-- The two ways differ at a negated equivalence: `(p | q) & (~p | ~q)` and `(p & ~q) | (q & ~p)`. -/
example :
    let p := Formula.atom (.pred (.num 0) [])
    let q := Formula.atom (.pred (.num 1) [])
    let f := Formula.not (.iff p q)
    f.nnf = .and (.or p q) (.or (.not p) (.not q)) ∧
      f.eliminate.nnf = .or (.and p (.not q)) (.and q (.not p)) :=
  ⟨rfl, rfl⟩

end Clausal
