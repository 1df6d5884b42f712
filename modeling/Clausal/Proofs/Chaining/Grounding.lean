import Clausal.Proofs.Chaining.Steps

/-!
# Range restriction

A definite clause is range restricted if every variable of its head occurs in its body; a fact is,
if it has no variables.  Such a clause passes on what its body is given: once the variables of the
body have values without variables, so have those of the head.

Unifying a head with a goal gives the two the same arguments.  Their order may differ where an
equation is involved, so all that is said here is about arguments in any order.

## Main definitions

- `Atom.Alike`: the same symbol and the same arguments, in any order
- `DefiniteClause.RangeRestricted`

## Main statements

- `Atom.alike_of_unify`: what a unifier does to the two atoms, under all its solutions
- `DefiniteClause.RangeRestricted.vars_head_eq_nil`: where the body is ground, so is the head
-/

namespace Clausal

namespace Atom

variable {a b c : Atom} {θ : Ident → Term} {σ τ : Substitution}

/-! ## Section 1: Arguments in any order -/

/-- Two atoms have the same symbol and the same arguments, in any order. -/
def Alike (a b : Atom) : Prop :=
  a.symbol = b.symbol ∧ a.args.Perm b.args

theorem Alike.symm (h : a.Alike b) : b.Alike a :=
  ⟨h.1.symm, h.2.symm⟩

theorem Alike.trans (hab : a.Alike b) (hbc : b.Alike c) : a.Alike c :=
  ⟨hab.1.trans hbc.1, hab.2.trans hbc.2⟩

theorem alike_of_beq (h : (a == b) = true) : a.Alike b := by
  rcases beq_iff.mp h with rfl | ⟨l, r, rfl, rfl⟩
  · exact ⟨rfl, .refl _⟩
  · exact ⟨rfl, .swap _ _ _⟩

theorem Alike.mem_vars_iff (h : a.Alike b) {x : Ident} : x ∈ a.vars ↔ x ∈ b.vars := by
  simp only [vars, List.mem_flatMap, h.2.mem_iff]

theorem Alike.vars_eq_nil (h : a.Alike b) (hb : b.vars = []) : a.vars = [] := by
  refine List.eq_nil_iff_forall_not_mem.mpr fun x hx => ?_
  rw [h.mem_vars_iff, hb] at hx
  exact absurd hx List.not_mem_nil

/-- A unifier extends the bindings that it was found under, and each of its solutions makes the two
    atoms alike. -/
theorem alike_of_unify (hσ : σ.Acyclic) (h : a.unify σ b = some τ) :
    τ.Acyclic ∧ ∀ θ, τ.Solves θ → σ.Solves θ ∧ (a.subst θ).Alike (b.subst θ) := by
  obtain ⟨hsymbol, hlen, ts, hts, hrun⟩ := unification_of_unify h
  refine ⟨hrun.acyclic hσ, fun θ hθ => ?_⟩
  obtain ⟨hold, heq⟩ := (hrun.solves_iff hσ θ).mp hθ
  have hperm : ts.Perm b.args := by
    rcases hts with rfl | ⟨-, rfl⟩
    · exact .refl _
    · exact List.reverse_perm _
  have hargs := (map_subst_eq_iff (hlen.trans hperm.length_eq.symm) θ).mpr heq
  refine ⟨hold, by simpa using hsymbol, ?_⟩
  rw [args_subst, args_subst, hargs]
  exact hperm.map _

end Atom

/-! ## Section 2: Range restriction -/

namespace DefiniteClause

variable {d : DefiniteClause} {θ : Ident → Term}

/-- Every variable of the head occurs in the body. -/
def RangeRestricted (d : DefiniteClause) : Prop :=
  ∀ x ∈ d.head.vars, ∃ b ∈ d.body, x ∈ b.vars

instance (d : DefiniteClause) : Decidable d.RangeRestricted :=
  inferInstanceAs (Decidable (∀ x ∈ d.head.vars, ∃ b ∈ d.body, x ∈ b.vars))

theorem RangeRestricted.subst (h : d.RangeRestricted) (θ : Ident → Term) :
    (d.subst θ).RangeRestricted := by
  intro y hy
  rw [head_subst] at hy
  obtain ⟨x, hx, hy⟩ := Atom.mem_vars_subst.mp hy
  obtain ⟨b, hb, hxb⟩ := h x hx
  obtain ⟨a, ha, hba⟩ := exists_mem_body_subst θ hb
  exact ⟨a, ha, (Atom.alike_of_beq hba).mem_vars_iff.mp (Atom.mem_vars_subst.mpr ⟨x, hxb, hy⟩)⟩

/-- Where the body is ground, so is the head. -/
theorem RangeRestricted.vars_head_eq_nil (h : d.RangeRestricted)
    (hbody : ∀ b ∈ d.body, (b.subst θ).vars = []) : (d.head.subst θ).vars = [] := by
  refine List.eq_nil_iff_forall_not_mem.mpr fun y hy => ?_
  obtain ⟨x, hx, hy⟩ := Atom.mem_vars_subst.mp hy
  obtain ⟨b, hb, hxb⟩ := h x hx
  have hmem : y ∈ (b.subst θ).vars := Atom.mem_vars_subst.mpr ⟨x, hxb, hy⟩
  rw [hbody b hb] at hmem
  exact absurd hmem List.not_mem_nil

end DefiniteClause

end Clausal
