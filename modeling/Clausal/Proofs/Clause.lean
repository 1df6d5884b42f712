import Clausal.Apart
import Clausal.Clause
import Clausal.Proofs.Semantics
import Mathlib.Data.List.Basic

/-!
# Clauses and their variables

Equality of clauses is an equivalence, and a copy of a clause with fresh variables can be given
values without regard to those of other variables.

## Main definitions

- `Clause.Below`: the variables of a clause were handed out before a serial

## Main statements

- `Clause.beq_iff`: equal clauses have equal literals
- `exists_valuation_of_copy`: values for a copy beside values for older variables
-/

namespace Clausal

/-! ## Section 1: Clauses as sets of literals -/

theorem Clause.beq_iff {c d : Clause} : (c == d) = true ↔
    (∀ l ∈ c.literals, ∃ m ∈ d.literals, (l == m) = true) ∧
      ∀ m ∈ d.literals, ∃ l ∈ c.literals, (m == l) = true := by
  change c.same d = true ↔ _
  simp only [same, contains, Bool.and_eq_true, List.all_eq_true, List.contains_iff_exists_mem_beq]

instance : EquivBEq Clause where
  rfl := Clause.beq_iff.mpr ⟨fun l hl => ⟨l, hl, BEq.rfl⟩, fun l hl => ⟨l, hl, BEq.rfl⟩⟩
  symm h := Clause.beq_iff.mpr (Clause.beq_iff.mp h).symm
  trans hcd hde := by
    obtain ⟨hcd, hdc⟩ := Clause.beq_iff.mp hcd
    obtain ⟨hde, hed⟩ := Clause.beq_iff.mp hde
    refine Clause.beq_iff.mpr ⟨fun l hl => ?_, fun l hl => ?_⟩
    · obtain ⟨m, hm, hlm⟩ := hcd l hl
      obtain ⟨k, hk, hmk⟩ := hde m hm
      exact ⟨k, hk, BEq.trans hlm hmk⟩
    · obtain ⟨m, hm, hlm⟩ := hed l hl
      obtain ⟨k, hk, hmk⟩ := hdc m hm
      exact ⟨k, hk, BEq.trans hlm hmk⟩

/-! ## Section 2: Variables -/

theorem Clause.mem_vars {c : Clause} {x : Ident} : x ∈ c.vars ↔ ∃ l ∈ c.literals, x ∈ l.vars := by
  have h := exists_mem_dedup (p := (x = ·)) (fun a b hab hxb => hxb.trans (eq_of_beq hab).symm)
    (c.literals.flatMap Literal.vars)
  simpa [vars] using h

/-- The variables of a clause have been handed out before the serial `n`, as far as they are fresh
    names. -/
def Clause.Below (n : Nat) (c : Clause) : Prop :=
  ∀ x ∈ c.vars, x.Below n

theorem Clause.Below.mono {n m : Nat} {c : Clause} (h : c.Below n) (hnm : n ≤ m) : c.Below m :=
  fun x hx => (h x hx).mono hnm

/-! ## Section 3: Copies with fresh variables -/

section Copies

variable {s : Names} {xs : List Ident} {x y : Ident}

theorem below_freshVariable (hx : x ∈ xs) : (freshVariable s xs x).Below (s.next + xs.length) := by
  have hlt : s.next + xs.idxOf x < s.next + xs.length :=
    Nat.add_lt_add_left (List.idxOf_lt_length_of_mem hx) _
  cases x <;> exact hlt

theorem not_below_freshVariable (s : Names) (xs : List Ident) (x : Ident) :
    ¬ (freshVariable s xs x).Below s.next := by
  have hle : ¬ s.next + xs.idxOf x < s.next := Nat.not_lt.mpr (Nat.le_add_right _ _)
  cases x <;> exact hle

private theorem serial_eq_of_renewed {n m : Nat} (h : x.renewed n = y.renewed m) : n = m := by
  cases x <;> cases y <;> exact (Ident.standard.inj h).1

theorem freshVariable_inj (hx : x ∈ xs) (h : freshVariable s xs x = freshVariable s xs y) :
    x = y :=
  (List.idxOf_inj hx).mp (Nat.add_left_cancel (serial_eq_of_renewed h))

/-- The variables of a copy take any values beside the values of variables that are older. -/
theorem exists_valuation_of_copy {D : Type*} (s : Names) (xs : List Ident) (v w : Ident → D) :
    ∃ u : Ident → D, (∀ y, y.Below s.next → u y = v y) ∧
      ∀ x ∈ xs, u (freshVariable s xs x) = w x := by
  classical
  refine ⟨fun y => if h : ∃ x ∈ xs, freshVariable s xs x = y then w h.choose else v y, ?_, ?_⟩
  · intro y hy
    refine dif_neg fun h => ?_
    obtain ⟨x, -, rfl⟩ := h
    exact not_below_freshVariable s xs x hy
  · intro x hx
    have h : ∃ z ∈ xs, freshVariable s xs z = freshVariable s xs x := ⟨x, hx, rfl⟩
    exact (dif_pos h).trans (congrArg w (freshVariable_inj h.choose_spec.1 h.choose_spec.2))

theorem Clause.Below.renameApart {c : Clause} (s : Names) :
    (c.renameApart s).1.Below (c.renameApart s).2.next := by
  intro y hy
  obtain ⟨l, hl, hy⟩ := mem_vars.mp hy
  obtain ⟨k, hk, rfl⟩ := List.mem_map.mp (mem_of_mem_dedup hl)
  obtain ⟨x, hx, hy⟩ := Atom.mem_vars_subst.mp hy
  obtain rfl : y = freshVariable s c.vars x := by simpa [Term.vars] using hy
  exact below_freshVariable (mem_vars.mpr ⟨k, hk, hx⟩)

end Copies

end Clausal
