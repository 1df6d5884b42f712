import Clausal.Proofs.Semantics
import Clausal.Proofs.Unification
import Clausal.Resolution.Resolvent

/-!
# What resolvents say

A resolvent is an image of what is left of its parents: the unifier and the mergers of factoring
make up one replacement, every literal is the image of one that was left, and every literal that was
left has its image in the resolvent.  So a resolvent is true wherever its parents are.

## Main definitions

- `IsImage`: literals that are the image of others under a replacement
- `Clause.Proper`: equality has its name to itself in a clause
- `Clause.rest`: what is left of two clauses that are resolved on two literals

## Main statements

- `exists_isImage_factor`: factoring is one replacement
- `Clause.mem_resolve`: the resolutions of two clauses
- `Interpretation.modelsClause_of_mem_resolve`: resolvents of true clauses are true
-/

namespace Clausal

universe u

/-! ## Section 1: Images of literals -/

/-- The literals `ks` are the image of `ls` under a replacement, up to equality. -/
structure IsImage (θ : Ident → Term) (ls ks : List Literal) : Prop where
  into : ∀ k ∈ ks, ∃ l ∈ ls, k = l.subst θ
  onto : ∀ l ∈ ls, ∃ k ∈ ks, (l.subst θ == k) = true

namespace IsImage

variable {θ τ : Ident → Term} {ls ks js : List Literal}

theorem refl (ls : List Literal) : IsImage .var ls ls where
  into k hk := ⟨k, hk, k.subst_var.symm⟩
  onto l hl := ⟨l, hl, by rw [l.subst_var]; exact BEq.rfl⟩

theorem map (θ : Ident → Term) (ls : List Literal) : IsImage θ ls (ls.map (Literal.subst θ)) where
  into k hk := by
    obtain ⟨l, hl, rfl⟩ := List.mem_map.mp hk
    exact ⟨l, hl, rfl⟩
  onto l hl := ⟨l.subst θ, List.mem_map_of_mem hl, BEq.rfl⟩

theorem dedup (h : IsImage θ ls ks) : IsImage θ ls (dedup ks) where
  into k hk := h.into k (mem_of_mem_dedup hk)
  onto l hl := by
    obtain ⟨k, hk, hlk⟩ := h.onto l hl
    obtain ⟨k', hk', hkk'⟩ := exists_beq_mem_dedup hk
    exact ⟨k', hk', BEq.trans hlk hkk'⟩

theorem trans (h : IsImage θ ls ks) (h' : IsImage τ ks js) :
    IsImage (fun x => (θ x).subst τ) ls js where
  into j hj := by
    obtain ⟨k, hk, rfl⟩ := h'.into j hj
    obtain ⟨l, hl, rfl⟩ := h.into k hk
    exact ⟨l, hl, l.subst_subst θ τ⟩
  onto l hl := by
    obtain ⟨k, hk, hlk⟩ := h.onto l hl
    obtain ⟨j, hj, hkj⟩ := h'.onto k hk
    refine ⟨j, hj, ?_⟩
    rw [← Literal.subst_subst]
    exact BEq.trans (Literal.beq_subst hlk τ) hkj

theorem holdsSome_iff {D : Type u} {I : Interpretation D} (hI : I.SymmetricEq)
    (h : IsImage θ ls ks) (v : Ident → D) :
    I.HoldsSome v ks ↔ I.HoldsSome (fun x => I.eval v (θ x)) ls := by
  constructor
  · rintro ⟨k, hk, hv⟩
    obtain ⟨l, hl, rfl⟩ := h.into k hk
    exact ⟨l, hl, (I.holdsLiteral_subst v θ l).mp hv⟩
  · rintro ⟨l, hl, hv⟩
    obtain ⟨k, hk, hlk⟩ := h.onto l hl
    exact ⟨k, hk, (I.holdsLiteral_of_beq hI v hlk).mp ((I.holdsLiteral_subst v θ l).mpr hv)⟩

end IsImage

theorem Clause.isImage_subst (θ : Ident → Term) (c : Clause) :
    IsImage θ c.literals (c.subst θ).literals :=
  (IsImage.map θ c.literals).dedup

theorem exists_isImage_factorFor (n : Nat) (ls : List Literal) :
    ∃ θ, IsImage θ ls (factorFor n ls) := by
  induction n generalizing ls with
  | zero => exact ⟨.var, .refl ls⟩
  | succ n ih =>
    unfold factorFor
    split
    next => exact ⟨.var, .refl ls⟩
    next σ _ =>
      -- first the unifier, then the replacement that the later mergers make up
      obtain ⟨θ, hθ⟩ := ih (Clausal.dedup (ls.map σ.applyLiteral))
      exact ⟨_, (IsImage.map σ.value ls).dedup.trans hθ⟩

/-- Factoring is one replacement. -/
theorem exists_isImage_factor (ls : List Literal) : ∃ θ, IsImage θ ls (factor ls) := by
  obtain ⟨θ, hθ⟩ := exists_isImage_factorFor ls.length (dedup ls)
  exact ⟨_, (IsImage.refl ls).dedup.trans hθ⟩

/-! ## Section 2: Resolutions -/

namespace Clause

/-- What is left of two clauses that are resolved on two literals. -/
def rest (c d : Clause) (l m : Literal) : List Literal :=
  c.without l ++ d.without m

theorem mem_without {c : Clause} {l k : Literal} :
    k ∈ c.without l ↔ k ∈ c.literals ∧ (k == l) = false := by
  simp [without]

theorem resolveOn_eq_some {c d : Clause} {l m : Literal} {σ : Substitution} {e : Clause} :
    c.resolveOn d l m = some (σ, e) ↔ l.unify .empty m.negate = some σ ∧
      isTautology (factor ((c.rest d l m).map (Literal.subst σ.value))) = false ∧
      e = ofList (factor ((c.rest d l m).map (Literal.subst σ.value))) := by
  unfold resolveOn
  split
  next h => simp [h]
  next τ h =>
    rw [h, Option.some.injEq]
    constructor
    · intro he
      dsimp only at he
      split at he
      next => cases he
      next htaut =>
        obtain ⟨rfl, rfl⟩ := Prod.mk.inj (Option.some.inj he)
        exact ⟨rfl, Bool.eq_false_iff.mpr htaut, rfl⟩
    · rintro ⟨rfl, htaut, rfl⟩
      exact if_neg (Bool.eq_false_iff.mp htaut)

/-- The resolutions of two clauses: one for every two literals that unify after a change of sign,
    unless what is left is true anyway. -/
theorem mem_resolve {s : Names} {c d : Clause} {r : Resolution} :
    r ∈ (c.resolve s d).1 ↔ ∃ l ∈ c.literals, ∃ m ∈ (c.apartFrom s d).1.literals,
      c.resolveOn (c.apartFrom s d).1 l m = some (r.unifier, r.resolvent) ∧
        r.first = c ∧ r.second = d := by
  simp only [resolve, resolveApart, List.mem_map, List.mem_flatMap, List.mem_filterMap]
  constructor
  · rintro ⟨e, ⟨l, hl, m, hm, he⟩, rfl⟩
    exact ⟨l, hl, m, hm, he, rfl, rfl⟩
  · rintro ⟨l, hl, m, hm, he, rfl, rfl⟩
    exact ⟨_, ⟨l, hl, m, hm, he⟩, rfl⟩

/-- The copy of the second clause that is used is an image of it. -/
theorem exists_isImage_apartFrom (s : Names) (c d : Clause) :
    ∃ θ, IsImage θ d.literals (c.apartFrom s d).1.literals := by
  unfold apartFrom
  split
  next => exact ⟨_, d.isImage_subst _⟩
  next => exact ⟨.var, .refl _⟩

/-! ## Section 3: Equality has its name to itself -/

/-- No ordinary predicate of a clause has the name of equality. -/
def Proper (c : Clause) : Prop :=
  ∀ l ∈ c.literals, l.atom.Proper

instance (c : Clause) : Decidable c.Proper :=
  inferInstanceAs (Decidable (∀ l ∈ c.literals, l.atom.Proper))

end Clause

theorem IsImage.proper {θ : Ident → Term} {ls ks : List Literal} (h : IsImage θ ls ks)
    (hls : ∀ l ∈ ls, l.atom.Proper) : ∀ k ∈ ks, k.atom.Proper := by
  intro k hk
  obtain ⟨l, hl, rfl⟩ := h.into k hk
  exact (Atom.proper_subst θ l.atom).mpr (hls l hl)

/-- The literals of a resolvent are the image of what is left of the clauses. -/
theorem Clause.exists_isImage_of_resolveOn {c d e : Clause} {l m : Literal} {σ : Substitution}
    (h : c.resolveOn d l m = some (σ, e)) :
    ∃ θ, IsImage (fun x => (σ.value x).subst θ) (c.rest d l m) e.literals := by
  obtain ⟨-, -, rfl⟩ := resolveOn_eq_some.mp h
  obtain ⟨θ, hθ⟩ := exists_isImage_factor ((c.rest d l m).map (Literal.subst σ.value))
  exact ⟨θ, ((IsImage.map σ.value _).trans hθ).dedup⟩

theorem Clause.Proper.resolve {s : Names} {c d : Clause} {r : Resolution} (hc : c.Proper)
    (hd : d.Proper) (h : r ∈ (c.resolve s d).1) : r.resolvent.Proper := by
  obtain ⟨l, -, m, -, he, -, -⟩ := mem_resolve.mp h
  obtain ⟨ρ, hρ⟩ := exists_isImage_apartFrom s c d
  obtain ⟨θ, hθ⟩ := exists_isImage_of_resolveOn he
  refine hθ.proper fun k hk => ?_
  rcases List.mem_append.mp hk with hk | hk
  · exact hc k (mem_without.mp hk).1
  · exact hρ.proper hd k (mem_without.mp hk).1

/-! ## Section 4: Truth of resolvents -/

namespace Interpretation

variable {D : Type u} {I : Interpretation D}

/-- Where two clauses are true and the literals that are resolved on deny each other, one of the
    other literals is true. -/
theorem holdsSome_rest (hI : I.SymmetricEq) {v : Ident → D} {c d : Clause} {l m : Literal}
    (hc : I.HoldsClause v c) (hd : I.HoldsClause v d)
    (hlm : I.HoldsLiteral v l ↔ ¬ I.HoldsLiteral v m) : I.HoldsSome v (c.rest d l m) := by
  obtain ⟨k, hk, hkv⟩ := hc
  cases hkl : k == l with
  | false =>
    exact ⟨k, List.mem_append_left _ (Clause.mem_without.mpr ⟨hk, hkl⟩), hkv⟩
  | true =>
    -- the literal of the first clause is the true one, so that of the second is not
    have hm : ¬ I.HoldsLiteral v m := hlm.mp ((holdsLiteral_of_beq hI v hkl).mp hkv)
    obtain ⟨j, hj, hjv⟩ := hd
    cases hjm : j == m with
    | false =>
      exact ⟨j, List.mem_append_right _ (Clause.mem_without.mpr ⟨hj, hjm⟩), hjv⟩
    | true => exact absurd ((holdsLiteral_of_beq hI v hjm).mp hjv) hm

private theorem modelsClause_of_resolveOn (hI : I.SymmetricEq) {c d e : Clause} {l m : Literal}
    {σ : Substitution} (hl : l.atom.Proper) (hm : m.atom.Proper) (hc : I.ModelsClause c)
    (hd : I.ModelsClause d) (h : c.resolveOn d l m = some (σ, e)) : I.ModelsClause e := by
  obtain ⟨θ, hθ⟩ := Clause.exists_isImage_of_resolveOn h
  obtain ⟨hσ, -, -⟩ := Clause.resolveOn_eq_some.mp h
  intro v
  refine (hθ.holdsSome_iff hI v).mpr (holdsSome_rest hI (hc _) (hd _) ?_)
  have hbeq : (l.subst σ.value == m.negate.subst σ.value) = true :=
    Literal.beq_subst_of_unify Substitution.acyclic_empty hl hm hσ
  have hiff := holdsLiteral_of_beq hI v (Literal.beq_subst hbeq θ)
  rwa [Literal.subst_subst, Literal.subst_subst, I.holdsLiteral_subst, I.holdsLiteral_subst,
    holdsLiteral_negate] at hiff

private theorem modelsClause_of_isImage (hI : I.SymmetricEq) {θ : Ident → Term} {c d : Clause}
    (h : IsImage θ c.literals d.literals) (hc : I.ModelsClause c) : I.ModelsClause d :=
  fun v => (h.holdsSome_iff hI v).mpr (hc _)

/-- Resolvents of clauses that are true under every valuation are so too. -/
theorem modelsClause_of_mem_resolve (hI : I.SymmetricEq) {s : Names} {c d : Clause}
    {r : Resolution} (hc : c.Proper) (hd : d.Proper) (hIc : I.ModelsClause c)
    (hId : I.ModelsClause d) (h : r ∈ (c.resolve s d).1) : I.ModelsClause r.resolvent := by
  obtain ⟨l, hl, m, hm, he, -, -⟩ := Clause.mem_resolve.mp h
  obtain ⟨ρ, hρ⟩ := Clause.exists_isImage_apartFrom s c d
  exact modelsClause_of_resolveOn hI (hc l hl) (hρ.proper hd m hm) hIc
    (modelsClause_of_isImage hI hρ hId) he

end Interpretation

end Clausal
