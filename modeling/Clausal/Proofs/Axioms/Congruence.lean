import Mathlib.Data.List.Forall2
import Mathlib.Logic.Function.Basic
import Clausal.Axioms.Equality
import Clausal.Proofs.Semantics

/-!
# What the axioms of equality say

An interpretation satisfies the first axioms if it reads equations by an equivalence relation, and
the axiom of a symbol if the symbol does not tell equals apart.  The axiom of a symbol is about as
many variables on each side as the symbol has arguments, and these are all different, so they may
have any values.

## Main statements

- `Interpretation.models_equalityAxioms`: equality is an equivalence relation
- `Interpretation.models_predicateCongruence`, `Interpretation.models_functionCongruence`: equals
  may take each other's place
-/

namespace Clausal

universe u

/-! ## Section 1: The variables of an axiom -/

/-- A number is known by its digits. -/
theorem toString_injective {i j : Nat} (h : toString i = toString j) : i = j := by
  have hdigits : ∀ n : Nat, (toString n).toList = Nat.toDigits 10 n := by
    intro n
    show n.repr.toList = Nat.toDigits 10 n
    rw [Nat.repr_eq_ofList_toDigits, String.toList_ofList]
  have hread : ∀ n : Nat, Nat.ofDigitChars 10 (toString n).toList 0 = n := by
    intro n
    rw [hdigits, Nat.ofDigitChars_toDigits (by decide) (by decide)]
  rw [← hread i, h, hread j]

private theorem leftVar_injective : Function.Injective leftVar := by
  intro i j h
  have hname : "l" ++ toString i = "l" ++ toString j := Ident.name.inj h
  exact toString_injective ((String.append_right_inj "l").mp hname)

private theorem rightVar_injective : Function.Injective rightVar := by
  intro i j h
  have hname : "r" ++ toString i = "r" ++ toString j := Ident.name.inj h
  exact toString_injective ((String.append_right_inj "r").mp hname)

private theorem leftVar_ne_rightVar (i j : Nat) : leftVar i ≠ rightVar j := by
  intro h
  have hname : "l" ++ toString i = "r" ++ toString j := Ident.name.inj h
  have hlist := congrArg String.toList hname
  rw [String.toList_append, String.toList_append] at hlist
  exact absurd (List.cons.inj hlist).1 (by decide)

/-- The variables of an axiom take any values. -/
theorem exists_arguments {D : Type u} [Nonempty D] (as bs : List D) (h : as.length = bs.length) :
    ∃ v : Ident → D, ((List.range as.length).map fun i => v (leftVar i)) = as ∧
      ((List.range as.length).map fun i => v (rightVar i)) = bs := by
  obtain ⟨d⟩ := ‹Nonempty D›
  let w : Ident → D := Function.extend rightVar (fun i => bs.getD i d) fun _ => d
  let v : Ident → D := Function.extend leftVar (fun i => as.getD i d) w
  have hleft : ∀ i, v (leftVar i) = as.getD i d := fun i => leftVar_injective.extend_apply _ _ i
  have hright : ∀ i, v (rightVar i) = bs.getD i d := by
    intro i
    have hnot : ¬ ∃ j, leftVar j = rightVar i := by
      rintro ⟨j, hj⟩
      exact leftVar_ne_rightVar j i hj
    exact (Function.extend_apply' _ _ _ hnot).trans (rightVar_injective.extend_apply _ _ i)
  refine ⟨v, List.ext_getElem (by simp) fun i hi hi' => ?_,
    List.ext_getElem (by simp [h]) fun i hi hi' => ?_⟩
  · simp [hleft, List.getD_eq_getElem?_getD, hi']
  · simp [hright, List.getD_eq_getElem?_getD, hi']

/-! ## Section 2: What the axioms say -/

namespace Interpretation

variable {D : Type u} {I : Interpretation D}

/-- A quantifier for all values adds nothing to a formula that is stated. -/
theorem models_all {x : Ident} {f : Formula} : I.Models (.all x f) ↔ I.Models f := by
  constructor
  · intro h v
    have hv := h v (v x)
    rwa [Function.update_eq_self] at hv
  · exact fun h v d => h _

theorem models_equalityAxioms : (∀ f ∈ equalityAxioms, I.Models f) ↔ Equivalence I.eq := by
  simp only [equalityAxioms, List.forall_mem_cons, models_all]
  constructor
  · rintro ⟨hrefl, hsymm, htrans, -⟩
    refine ⟨fun a => hrefl fun _ => a, fun {a b} hab => ?_, fun {a b c} hab hbc => ?_⟩
    · have h := hsymm fun i => if i = .name "x" then a else b
      simpa [Holds, varsEqual, HoldsAtom, hab] using h
    · have h := htrans fun i => if i = .name "x" then a else if i = .name "y" then b else c
      simpa [Holds, varsEqual, HoldsAtom, hab, hbc] using h
  · intro h
    refine ⟨fun v => h.refl _, fun v => ?_, fun v => ?_, by simp⟩
    · exact fun hxy => h.symm hxy
    · exact fun hxyz => h.trans hxyz.1 hxyz.2

private theorem models_forAllArguments (n : Nat) (f : Formula) :
    I.Models (forAllArguments n f) ↔ I.Models f := by
  unfold forAllArguments
  induction List.range n with
  | nil => exact Iff.rfl
  | cons i is ih => rw [List.foldr_cons, models_all, models_all, ih]

private theorem holds_argumentsEqual (v : Ident → D) (k : Nat) :
    I.Holds v (argumentsEqual k) ↔ ∀ i ≤ k, I.eq (v (leftVar i)) (v (rightVar i)) := by
  induction k with
  | zero => simp [argumentsEqual, varsEqual, Holds, HoldsAtom]
  | succ k ih =>
    constructor
    · rintro ⟨hlast, hall⟩ i hi
      rcases Nat.le_succ_iff.mp hi with hi | rfl
      · exact ih.mp hall i hi
      · exact hlast
    · intro h
      exact ⟨h (k + 1) (Nat.le_refl _), ih.mpr fun i hi => h i (Nat.le_succ_of_le hi)⟩

/-- The axiom of a symbol is about any equal arguments on the two sides. -/
theorem models_congruence {n : Nat} (hn : 0 < n) {consequent : List Term → List Term → Formula}
    {P : List D → List D → Prop}
    (hP : ∀ v left right, I.Holds v (consequent left right) ↔
      P (left.map (I.eval v)) (right.map (I.eval v))) :
    I.Models (congruence n consequent) ↔
      ∀ as bs, as.length = n → List.Forall₂ I.eq as bs → P as bs := by
  have hargs : ∀ (v : Ident → D) (x : Nat → Ident),
      ((List.range n).map fun i => Term.var (x i)).map (I.eval v) =
        (List.range n).map fun i => v (x i) := by
    intro v x
    rw [List.map_map]
    rfl
  have heq : ∀ v, I.Holds v (argumentsEqual (n - 1)) ↔
      List.Forall₂ I.eq ((List.range n).map fun i => v (leftVar i))
        ((List.range n).map fun i => v (rightVar i)) := by
    intro v
    rw [holds_argumentsEqual, List.forall₂_map_left_iff, List.forall₂_map_right_iff,
      List.forall₂_same]
    simp only [List.mem_range, Nat.le_sub_one_iff_lt hn]
  rw [congruence, models_forAllArguments]
  constructor
  · rintro h as bs rfl hrel
    have : Nonempty D := ⟨as[0]⟩
    obtain ⟨v, hleft, hright⟩ := exists_arguments as bs hrel.length_eq
    have hv := h v ((heq v).mpr (by rwa [hleft, hright]))
    rwa [hP, hargs, hargs, hleft, hright] at hv
  · intro h v hequal
    rw [hP, hargs, hargs]
    exact h _ _ (by simp) ((heq v).mp hequal)

/-- A predicate symbol does not tell equal arguments apart. -/
def RespectsPred (I : Interpretation D) (p : Ident) (n : Nat) : Prop :=
  ∀ as bs, as.length = n → List.Forall₂ I.eq as bs → (I.pred p as ↔ I.pred p bs)

/-- A function symbol has equal values for equal arguments. -/
def RespectsFunc (I : Interpretation D) (f : Ident) (n : Nat) : Prop :=
  ∀ as bs, as.length = n → List.Forall₂ I.eq as bs → I.eq (I.func f as) (I.func f bs)

theorem models_predicateCongruence {p : Ident} {n : Nat} (hn : 0 < n) :
    I.Models (predicateCongruence p n) ↔ I.RespectsPred p n :=
  models_congruence hn fun _ _ _ => Iff.rfl

theorem models_functionCongruence {f : Ident} {n : Nat} (hn : 0 < n) :
    I.Models (functionCongruence f n) ↔ I.RespectsFunc f n := by
  apply models_congruence hn
  intro v left right
  simp only [Holds, HoldsAtom, eval_app]

end Interpretation

end Clausal
