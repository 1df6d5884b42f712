import Clausal.Proofs.Respelling.Resolution
import Clausal.Proofs.Subsumption.Variants

/-!
# Resolution up to renaming

The variables of a clause may be renamed, one for one, before it is resolved with another clause.
Nothing but names changes: the same pairs of literals have resolvents, in the same order, and the new
resolvents are the old ones with their variables renamed.

Before two clauses with common variables are resolved, the second is copied.  So whatever names its
variables had, what is resolved with the first clause is a copy whose variables are apart from those
of the first clause.  Two such copies are turned into each other by a permutation of the names that
leaves the first clause alone, and resolution commutes with permutations of names.

## Main definitions

- `Respelling.ofPerm`: a permutation of names, for variables only
- `Clause.Copied`: copies apart from a clause

## Main statements

- `Clause.exists_copied_apartFrom`: what is resolved is a copy
- `Clause.Copied.exists_perm`: two copies are turned into each other
- `resolution_up_to_renaming`: the resolvents of a clause and a renamed one
-/

namespace Clausal

/-! ## Section 1: Permutations of variables -/

/-- A permutation of names, for variables only. -/
def Respelling.ofPerm (π : Equiv.Perm Ident) : Respelling where
  var := π
  symbol := id
  var_injective := π.injective
  symbol_injective := Function.injective_id
  symbol_equality := rfl

section OfPerm

variable (π : Equiv.Perm Ident)

@[simp]
theorem Respelling.var_ofPerm (x : Ident) : (ofPerm π).var x = π x := rfl

@[simp]
theorem Respelling.symbol_ofPerm (p : Ident) : (ofPerm π).symbol p = p := rfl

theorem Term.respell_ofPerm (t : Term) : t.respell (.ofPerm π) = t.subst fun x => .var (π x) := by
  induction t using Term.induction with
  | var x => simp [subst]
  | const c => simp [subst]
  | app f ts ih =>
    rw [respell_app, subst_app, List.map_congr_left ih]
    rfl

theorem Literal.respell_ofPerm (l : Literal) :
    l.respell (.ofPerm π) = l.subst fun x => .var (π x) := by
  obtain ⟨positive, atom⟩ := l
  cases atom <;>
    simp [respell, subst, Atom.respell, Atom.subst, Term.respell_ofPerm]

theorem Clause.respell_ofPerm (c : Clause) :
    c.respell (.ofPerm π) = c.subst fun x => .var (π x) := by
  have hliterals : c.literals.map (Literal.respell (.ofPerm π)) =
      c.literals.map (Literal.subst fun x => .var (π x)) :=
    List.map_congr_left fun l _ => l.respell_ofPerm π
  have hdistinct : Distinct (c.literals.map (Literal.subst fun x => .var (π x))) :=
    hliterals ▸ (c.respell (.ofPerm π)).distinct
  simp only [respell, subst, ofList, hliterals, dedup_eq_self hdistinct]

end OfPerm

/-! ## Section 2: Copies apart from a clause -/

namespace Clause

variable {c d e e' : Clause} {f f' : Ident → Ident}

/-- The clause `e` is `d` with its variables renamed one for one, and no variable of `c` is among
    the new ones. -/
structure Copied (c d : Clause) (f : Ident → Ident) (e : Clause) : Prop where
  eq_subst : e = d.subst fun x => .var (f x)
  injOn : Set.InjOn f {x | x ∈ d.vars}
  apart : ∀ x ∈ d.vars, f x ∉ c.vars

theorem subst_congr {θ η : Ident → Term} (h : ∀ x ∈ d.vars, θ x = η x) : d.subst θ = d.subst η := by
  rw [subst, subst]
  congr 1
  refine List.map_congr_left fun l hl => ?_
  exact Literal.subst_congr fun x hx => h x (mem_vars.mpr ⟨l, hl, hx⟩)

theorem subst_var (d : Clause) : d.subst .var = d := by
  have hliterals : d.literals.map (Literal.subst .var) = d.literals :=
    (List.map_congr_left fun l _ => l.subst_var).trans (List.map_id _)
  simp only [subst, ofList, hliterals, dedup_eq_self d.distinct]

/-- A renaming can be done by a permutation of all names. -/
theorem exists_perm_of_injOn (hf : Set.InjOn f {x | x ∈ d.vars}) :
    ∃ π : Equiv.Perm Ident, (∀ x ∈ d.vars, π x = f x) ∧
      d.subst (fun x => .var (f x)) = d.respell (.ofPerm π) := by
  obtain ⟨π, hπ⟩ := Clausal.exists_perm_of_injOn hf
  refine ⟨π, hπ, ?_⟩
  rw [respell_ofPerm]
  exact subst_congr fun x hx => congrArg Term.var (hπ x hx).symm

/-- Variables are replaced after a renaming as they are without it. -/
theorem subst_renamed (hf : Set.InjOn f {x | x ∈ d.vars}) (θ : Ident → Term) :
    (d.subst fun x => .var (f x)).subst θ = d.subst fun x => θ (f x) := by
  obtain ⟨π, hπ, hd⟩ := exists_perm_of_injOn hf
  have hliterals : ∀ l ∈ d.literals, (l.respell (.ofPerm π)).subst θ = l.subst fun x => θ (f x) := by
    intro l hl
    rw [Literal.respell_ofPerm, Literal.subst_subst]
    refine Literal.subst_congr fun x hx => ?_
    rw [Term.subst, hπ x (mem_vars.mpr ⟨l, hl, hx⟩)]
  rw [hd, subst, subst, literals_respell, List.map_map]
  exact congrArg (ofList · d.form) (List.map_congr_left hliterals)

theorem exists_copied_apartFrom {s : Names} (hc : c.Below s.next) (d : Clause) :
    ∃ f, Copied c d f (c.apartFrom s d).1 := by
  unfold apartFrom
  split
  next =>
    -- a fresh variable is younger than all variables of the first clause
    refine ⟨freshVariable s d.vars, rfl, fun x hx y _ hxy => freshVariable_inj hx hxy, ?_⟩
    exact fun x _ hmem => not_below_freshVariable s d.vars x (hc _ hmem)
  next hshares =>
    refine ⟨id, d.subst_var.symm, Function.injective_id.injOn, fun x hx hmem => hshares ?_⟩
    exact List.any_eq_true.mpr ⟨x, hmem, List.contains_iff_mem.mpr hx⟩

/-- A copy of a renamed clause is a copy of the clause. -/
theorem Copied.of_renamed {r : Ident → Ident} (hr : Set.InjOn r {x | x ∈ d.vars})
    (h : Copied c (d.subst fun x => .var (r x)) f e) : Copied c d (f ∘ r) e := by
  obtain ⟨π, hπ, hd⟩ := exists_perm_of_injOn hr
  have hvars : ∀ x ∈ d.vars, r x ∈ (d.subst fun x => .var (r x)).vars := by
    intro x hx
    rw [hd, vars_respell, ← hπ x hx]
    exact List.mem_map_of_mem hx
  exact ⟨h.eq_subst.trans (subst_renamed hr _), h.injOn.comp hr hvars,
    fun x hx => h.apart _ (hvars x hx)⟩

/-- Two copies are turned into each other by a permutation of names that leaves the names of the
    clause alone from which they are apart. -/
theorem Copied.exists_perm (h : Copied c d f e) (h' : Copied c d f' e') :
    ∃ π : Equiv.Perm Ident, (∀ x ∈ c.vars, π x = x) ∧ e' = e.respell (.ofPerm π) := by
  obtain ⟨π₁, hπ₁⟩ := Clausal.exists_perm_of_injOn h.injOn
  obtain ⟨π₂, hπ₂⟩ := Clausal.exists_perm_of_injOn h'.injOn
  let g : Ident → Ident := fun y => if y ∈ c.vars then y else π₂ (π₁.symm y)
  have hkeep : ∀ y ∈ c.vars, g y = y := fun y hy => if_pos hy
  have hcopy : ∀ x ∈ d.vars, g (f x) = f' x := by
    intro x hx
    have hsymm : π₁.symm (f x) = x := (Equiv.symm_apply_eq π₁).mpr (hπ₁ x hx).symm
    rw [← hπ₂ x hx]
    exact (if_neg (h.apart x hx)).trans (congrArg π₂ hsymm)
  have hg : Set.InjOn g {y | y ∈ c.vars ++ d.vars.map f} := by
    -- what is apart from the clause stays apart from it
    have hne : ∀ y ∈ c.vars, ∀ z ∈ c.vars ++ d.vars.map f, z ∉ c.vars → g y ≠ g z := by
      intro y hy z hz hzc heq
      obtain ⟨x, hx, rfl⟩ := List.mem_map.mp ((List.mem_append.mp hz).resolve_left hzc)
      rw [hkeep y hy, hcopy x hx] at heq
      exact h'.apart x hx (heq ▸ hy)
    intro y hy z hz heq
    by_cases hyc : y ∈ c.vars <;> by_cases hzc : z ∈ c.vars
    · rwa [hkeep y hyc, hkeep z hzc] at heq
    · exact absurd heq (hne y hyc z hz hzc)
    · exact absurd heq.symm (hne z hzc y hy hyc)
    · have heq : π₂ (π₁.symm y) = π₂ (π₁.symm z) := by simpa [g, hyc, hzc] using heq
      exact π₁.symm.injective (π₂.injective heq)
  obtain ⟨π, hπ⟩ := Clausal.exists_perm_of_injOn hg
  refine ⟨π, fun x hx => (hπ x (List.mem_append_left _ hx)).trans (hkeep x hx), ?_⟩
  have hπcopy : ∀ x ∈ d.vars, π (f x) = f' x := fun x hx =>
    (hπ _ (List.mem_append_right _ (List.mem_map_of_mem hx))).trans (hcopy x hx)
  rw [h'.eq_subst, respell_ofPerm, h.eq_subst, subst_renamed h.injOn]
  exact subst_congr fun x hx => congrArg Term.var (hπcopy x hx).symm

end Clause

/-! ## Section 3: Resolvents -/

/-- Whatever the variables of the second of two clauses are called, resolution comes to the same
    resolvents in the same order, up to one permutation of the names of the variables, which leaves
    those of the first clause alone.  It does not matter whether the clauses have variables in
    common. -/
theorem resolution_up_to_renaming (s s' : Names) (c d : Clause) (r : Ident → Ident)
    (hr : Set.InjOn r {x | x ∈ d.vars}) (hs : c.Below s.next) (hs' : c.Below s'.next) :
    ∃ π : Equiv.Perm Ident, (∀ x ∈ c.vars, π x = x) ∧
      (c.resolve s' (d.subst fun x => .var (r x))).1.map Resolution.resolvent =
        (c.resolve s d).1.map fun a => a.resolvent.subst fun x => .var (π x) := by
  obtain ⟨f, hf⟩ := Clause.exists_copied_apartFrom hs d
  obtain ⟨f', hf'⟩ := Clause.exists_copied_apartFrom hs' (d.subst fun x => .var (r x))
  obtain ⟨π, hπ, hcopy⟩ := hf.exists_perm (hf'.of_renamed hr)
  refine ⟨π, hπ, ?_⟩
  have hc : c = c.respell (.ofPerm π) := by
    rw [Clause.respell_ofPerm, Clause.subst_congr fun x hx => congrArg Term.var (hπ x hx)]
    exact c.subst_var.symm
  have hresolve := c.resolveApart_respell (.ofPerm π) (c.apartFrom s d).1
  rw [← hc, ← hcopy] at hresolve
  simp only [Clause.resolve, hresolve, List.map_map]
  exact List.map_congr_left fun a _ => Clause.respell_ofPerm π a.2

/-- `p(X) | q(X)` and `¬p(Y) | ¬q(Z) | p(Z)` have no variable in common, but if `Y` is called `X` then
    they have.  Either way there are two resolvents, and they are the same up to names. -/
theorem resolution_up_to_renaming_shared :
    let c := Clause.ofList [⟨true, .pred (.num 0) [.var (.num 5)]⟩,
      ⟨true, .pred (.num 1) [.var (.num 5)]⟩]
    let d := Clause.ofList [⟨false, .pred (.num 0) [.var (.num 6)]⟩,
      ⟨false, .pred (.num 1) [.var (.num 7)]⟩, ⟨true, .pred (.num 0) [.var (.num 7)]⟩]
    let r : Ident → Ident := Equiv.swap (.num 5) (.num 6)
    let d' := d.subst fun x => .var (r x)
    Set.InjOn r {x | x ∈ d.vars} ∧ c.Below 0 ∧ c.sharesVars d = false ∧ c.sharesVars d' = true ∧
      (c.resolve {} d).1.length = 2 ∧
      ∃ π : Equiv.Perm Ident, (∀ x ∈ c.vars, π x = x) ∧
        (c.resolve {} d').1.map Resolution.resolvent =
          (c.resolve {} d).1.map fun a => a.resolvent.subst fun x => .var (π x) := by
  intro c d r d'
  have hr : Set.InjOn r {x | x ∈ d.vars} := (Equiv.swap _ _).injective.injOn
  have hc : c.Below 0 := by
    show ∀ x ∈ c.vars, x.Below 0
    decide
  exact ⟨hr, hc, by decide, by decide, by decide +kernel,
    resolution_up_to_renaming {} {} c d r hr hc hc⟩

end Clausal
