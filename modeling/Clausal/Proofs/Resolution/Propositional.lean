import Mathlib.Data.Set.Finite.Lemmas
import Mathlib.Order.WellFounded
import Mathlib.SetTheory.Cardinal.Order

/-!
# Sets of propositional clauses closed under resolution

A propositional literal is an element of a type of atoms with a sign, a clause is a finite set of
literals.  If a set of clauses without the empty one contains, for any two clauses that can be
resolved, a part of their resolvent, unless that is true anyway, then some valuation makes all of the
clauses true.

The valuation is made along a well-order of the atoms.  An atom becomes true only if it has to: if
some clause claims it and has nothing else to rely on, because its other literals are about smaller
atoms and false.  A clause that is false under this valuation could be resolved on its greatest atom
with the clause that made the atom true, and would leave a smaller false one.

## Main definitions

- `Propositional.Literal`, `Propositional.Valuation`
- `Propositional.resolvent`, `Propositional.Saturated`
- `Propositional.least`: the valuation

## Main statements

- `Propositional.exists_valuation`
-/

namespace Clausal.Propositional

universe u

/-- An atom with its sign. -/
abbrev Literal (α : Type u) := α × Bool

/-- Which atoms are true. -/
abbrev Valuation (α : Type u) := α → Prop

variable {α : Type u}

/-- A literal is true under a valuation. -/
def IsTrue (v : Valuation α) (l : Literal α) : Prop :=
  v l.1 ↔ l.2 = true

/-- What is left of two clauses that are resolved on an atom. -/
def resolvent (a : α) (C D : Set (Literal α)) : Set (Literal α) :=
  C \ {(a, true)} ∪ D \ {(a, false)}

/-- Some atom stands in a clause with both signs. -/
def Tautology (C : Set (Literal α)) : Prop :=
  ∃ a, (a, true) ∈ C ∧ (a, false) ∈ C

/-- Every resolvent is true anyway or has a part among the clauses. -/
def Saturated (N : Set (Set (Literal α))) : Prop :=
  ∀ C ∈ N, ∀ D ∈ N, ∀ a, (a, true) ∈ C → (a, false) ∈ D →
    Tautology (resolvent a C D) ∨ ∃ E ∈ N, E ⊆ resolvent a C D

/-- In a false clause an atom has one sign. -/
theorem eq_of_fst_eq {v : Valuation α} {l k : Literal α} (hl : ¬ IsTrue v l) (hk : ¬ IsTrue v k)
    (h : l.1 = k.1) : l = k := by
  obtain ⟨a, b⟩ := l
  obtain ⟨a', c⟩ := k
  obtain rfl : a = a' := h
  cases b <;> cases c <;> simp_all [IsTrue]

/-! ## Section 1: The valuation -/

section Least

variable [LinearOrder α] [WellFoundedLT α] (N : Set (Set (Literal α)))

/-- The clause `C` claims the atom `a`: its other literals are about smaller atoms and false. -/
def Claims (v : Valuation α) (a : α) (C : Set (Literal α)) : Prop :=
  (a, true) ∈ C ∧ ∀ l ∈ C, l ≠ (a, true) → l.1 < a ∧ ¬ IsTrue v l

/-- The valuation in which an atom is true if some clause claims it.  Whether it does depends on
    smaller atoms only. -/
def least : Valuation α :=
  WellFounded.fix (wellFounded_lt (α := α)) fun a v =>
    ∃ C ∈ N, (a, true) ∈ C ∧
      ∀ l ∈ C, l ≠ (a, true) → ∃ h : l.1 < a, ¬ (v l.1 h ↔ l.2 = true)

private theorem least_iff (a : α) : least N a ↔ ∃ C ∈ N, Claims (least N) a C := by
  unfold least
  rw [WellFounded.fix_eq]
  simp only [Claims, IsTrue, exists_prop]

variable {N}

/-- No clause of a saturated set is false under the valuation. -/
theorem exists_isTrue_least (hfin : ∀ C ∈ N, C.Finite) (hempty : ∅ ∉ N) (hsat : Saturated N)
    {C : Set (Literal α)} (hC : C ∈ N) : ∃ l ∈ C, IsTrue (least N) l := by
  by_contra hfalse
  simp only [not_exists, not_and] at hfalse
  have hne : C.Nonempty := Set.nonempty_iff_ne_empty.mpr fun h => hempty (h ▸ hC)
  obtain ⟨⟨a, b⟩, hl, hmax⟩ := Set.exists_max_image C Prod.fst (hfin C hC) hne
  -- the greatest atom of a false clause decreases
  induction a using WellFoundedLT.induction generalizing C b with
  | _ a ih =>
  have hsmaller : ∀ k ∈ C, k ≠ (a, b) → k.1 < a := fun k hk hkl =>
    lt_of_le_of_ne (hmax k hk) fun h => hkl (eq_of_fst_eq (hfalse k hk) (hfalse _ hl) h)
  cases b with
  | true =>
    -- the clause itself claims the atom
    have hclaims : Claims (least N) a C :=
      ⟨hl, fun k hk hkl => ⟨hsmaller k hk hkl, hfalse k hk⟩⟩
    exact hfalse _ hl (iff_of_true ((least_iff N a).mpr ⟨C, hC, hclaims⟩) rfl)
  | false =>
    have ha : least N a := by simpa [IsTrue] using hfalse _ hl
    obtain ⟨D, hD, haD, hrest⟩ := (least_iff N a).mp ha
    have hres : ∀ k ∈ resolvent a D C, k.1 < a ∧ ¬ IsTrue (least N) k := by
      rintro k (⟨hk, hka⟩ | ⟨hk, hka⟩)
      · exact hrest k hk hka
      · exact ⟨hsmaller k hk hka, hfalse k hk⟩
    rcases hsat D hD C hC a haD hl with ⟨c, hpos, hneg⟩ | ⟨E, hE, hsub⟩
    · have heq := eq_of_fst_eq (hres _ hpos).2 (hres _ hneg).2 rfl
      cases heq
    · have hEne : E.Nonempty := Set.nonempty_iff_ne_empty.mpr fun h => hempty (h ▸ hE)
      obtain ⟨⟨c, d⟩, hcd, hEmax⟩ := Set.exists_max_image E Prod.fst (hfin E hE) hEne
      have hEfalse : ∀ k ∈ E, ¬ IsTrue (least N) k := fun k hk => (hres k (hsub hk)).2
      exact ih c (hres _ (hsub hcd)).1 hE hEfalse hEne d hcd hEmax

end Least

/-! ## Section 2: Satisfiability -/

/-- A saturated set of finite clauses without the empty one has a valuation under which all of them
    are true. -/
theorem exists_valuation {N : Set (Set (Literal α))} (hfin : ∀ C ∈ N, C.Finite) (hempty : ∅ ∉ N)
    (hsat : Saturated N) : ∃ v : Valuation α, ∀ C ∈ N, ∃ l ∈ C, IsTrue v l := by
  obtain ⟨_, _⟩ := exists_wellFoundedLT (α := α)
  exact ⟨least N, fun C hC => exists_isTrue_least hfin hempty hsat hC⟩

end Clausal.Propositional
