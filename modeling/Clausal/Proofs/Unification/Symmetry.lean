import Clausal.Proofs.MostGeneral

/-!
# The order of what is unified

The two arguments of unification are treated differently at every level: a variable of the first is
bound in preference to one of the second, so runs with the arguments exchanged have different
bindings on the way.  Whether they succeed does not depend on that, since it depends on the common
solutions only, and the bindings they end with have the same solutions.

There is one exception.  The first of two atoms decides whether the sides of the second are also
tried the other way round, and an equation may meet an ordinary atom that uses the name of equality.
If the equation comes first, both orders are tried; if it comes second, only the given one is.

## Main definitions

- `Expression.Confusable`: an equation meets an ordinary atom with the name of equality
- `Expression.Unifies`: unification succeeds

## Main statements

- `Atom.exists_unify_iff`: what has to be solvable for two atoms to unify
- `Atom.exists_unify_iff_mirror`: what an equation in the first place adds
- `Atom.solves_iff_of_unify`: unifiers of exchanged atoms have the same solutions
- `unifiability_symmetric`
-/

namespace Clausal

/-! ## Section 1: Lists of terms -/

/-- Of two lists, either may be turned round. -/
theorem map_subst_turn {θ : Ident → Term} {as bs : List Term}
    (h : as.map (Term.subst θ) = bs.reverse.map (Term.subst θ)) :
    bs.map (Term.subst θ) = as.reverse.map (Term.subst θ) := by
  rw [List.map_reverse] at h
  rw [List.map_reverse, h, List.reverse_reverse]

section

variable {σ τ υ : Substitution} {as bs : List Term}

theorem exists_unifyList_iff (hσ : σ.Acyclic) (hlen : as.length = bs.length) :
    (∃ τ, unifyList σ as bs = some τ) ↔
      ∃ θ, σ.Solves θ ∧ as.map (Term.subst θ) = bs.map (Term.subst θ) := by
  rw [← not_iff_not, ← Option.ne_none_iff_exists', not_not, unifyList_eq_none_iff hσ]
  simp only [map_subst_eq_iff hlen]

theorem solves_iff_of_unifyList (hσ : σ.Acyclic) (hlen : as.length = bs.length)
    (h : unifyList σ as bs = some τ) (θ : Ident → Term) :
    τ.Solves θ ↔ σ.Solves θ ∧ as.map (Term.subst θ) = bs.map (Term.subst θ) := by
  rw [((unification_of_unifyList h).mostGeneral hσ).solves_iff, map_subst_eq_iff hlen]

/-- Lists that unify also do so when they are exchanged. -/
theorem exists_unifyList_symm (hσ : σ.Acyclic) (hlen : as.length = bs.length)
    (h : unifyList σ as bs = some τ) : ∃ υ, unifyList σ bs as = some υ := by
  obtain ⟨θ, hθ, heq⟩ := (exists_unifyList_iff hσ hlen).mp ⟨τ, h⟩
  exact (exists_unifyList_iff hσ hlen.symm).mpr ⟨θ, hθ, heq.symm⟩

/-! ## Section 2: Atoms -/

namespace Atom

variable {a b : Atom}

/-- Two atoms unify in the given order of sides, or in the other one after the given one has
    failed. -/
theorem unify_eq_some : a.unify σ b = some τ ↔
    (a.symbol = b.symbol ∧ a.args.length = b.args.length) ∧
      (unifyList σ a.args b.args = some τ ∨ unifyList σ a.args b.args = none ∧ a.isEq = true ∧
        unifyList σ a.args b.args.reverse = some τ) := by
  unfold unify
  split
  next hab =>
    split
    next ρ hρ => simp [hab, hρ]
    next hnone => simp [hab, hnone]
  next hab => simp [hab]

/-- The common solutions of two atoms, in one of the orders of sides that are tried. -/
def CommonSolution (σ : Substitution) (a b : Atom) (θ : Ident → Term) : Prop :=
  σ.Solves θ ∧ (a.args.map (Term.subst θ) = b.args.map (Term.subst θ) ∨
    a.isEq = true ∧ a.args.map (Term.subst θ) = b.args.reverse.map (Term.subst θ))

/-- Two atoms unify exactly if they start alike and have a common solution. -/
theorem exists_unify_iff (hσ : σ.Acyclic) : (∃ τ, a.unify σ b = some τ) ↔
    (a.symbol = b.symbol ∧ a.args.length = b.args.length) ∧ ∃ θ, CommonSolution σ a b θ := by
  constructor
  · rintro ⟨τ, hτ⟩
    obtain ⟨hab, hτ⟩ := unify_eq_some.mp hτ
    have hlen : a.args.length = b.args.reverse.length := by rw [List.length_reverse, hab.2]
    refine ⟨hab, ?_⟩
    rcases hτ with hτ | ⟨-, heq, hτ⟩
    · obtain ⟨θ, hθ, hargs⟩ := (exists_unifyList_iff hσ hab.2).mp ⟨τ, hτ⟩
      exact ⟨θ, hθ, Or.inl hargs⟩
    · obtain ⟨θ, hθ, hargs⟩ := (exists_unifyList_iff hσ hlen).mp ⟨τ, hτ⟩
      exact ⟨θ, hθ, Or.inr ⟨heq, hargs⟩⟩
  · rintro ⟨hab, θ, hθ, hargs⟩
    have hlen : a.args.length = b.args.reverse.length := by rw [List.length_reverse, hab.2]
    cases hgiven : unifyList σ a.args b.args with
    | some τ => exact ⟨τ, unify_eq_some.mpr ⟨hab, Or.inl hgiven⟩⟩
    | none =>
      rcases hargs with hargs | ⟨heq, hargs⟩
      · -- a solution in the given order contradicts the failure
        obtain ⟨τ, hτ⟩ := (exists_unifyList_iff hσ hab.2).mpr ⟨θ, hθ, hargs⟩
        rw [hgiven] at hτ
        cases hτ
      · obtain ⟨τ, hτ⟩ := (exists_unifyList_iff hσ hlen).mpr ⟨θ, hθ, hargs⟩
        exact ⟨τ, unify_eq_some.mpr ⟨hab, Or.inr ⟨hgiven, heq, hτ⟩⟩⟩

theorem proper_of_isEq (ha : a.isEq = true) : a.Proper := by
  cases a with
  | pred p ts => cases ha
  | eq l r => trivial

/-- Atoms may be exchanged, unless an equation comes to stand behind an ordinary atom with the name
    of equality. -/
theorem exists_unify_symm (hσ : σ.Acyclic) (hb : a.isEq = true → b.Proper)
    (h : ∃ τ, a.unify σ b = some τ) : ∃ τ, b.unify σ a = some τ := by
  obtain ⟨⟨hsymbol, hlen⟩, θ, hθ, hargs⟩ := (exists_unify_iff hσ).mp h
  refine (exists_unify_iff hσ).mpr ⟨⟨hsymbol.symm, hlen.symm⟩, θ, hθ, ?_⟩
  rcases hargs with hargs | ⟨ha, hargs⟩
  · exact Or.inl hargs.symm
  · -- then `b` is an equation too, and the other order is tried for it as well
    have hkind := isEq_eq_of_proper (proper_of_isEq ha) (hb ha) hsymbol
    exact Or.inr ⟨hkind ▸ ha, map_subst_turn hargs⟩

/-- An equation unifies with an atom exactly if the atom unifies with the equation or with its
    mirror image. -/
theorem exists_unify_iff_mirror (hσ : σ.Acyclic) (ha : a.isEq = true) :
    (∃ τ, a.unify σ b = some τ) ↔
      (∃ τ, b.unify σ a = some τ) ∨ ∃ τ, b.unify σ a.mirror = some τ := by
  constructor
  · intro h
    obtain ⟨⟨hsymbol, hlen⟩, θ, hθ, hargs⟩ := (exists_unify_iff hσ).mp h
    rcases hargs with hargs | ⟨-, hargs⟩
    · left
      exact (exists_unify_iff hσ).mpr ⟨⟨hsymbol.symm, hlen.symm⟩, θ, hθ, Or.inl hargs.symm⟩
    · right
      refine (exists_unify_iff hσ).mpr ⟨⟨?_, ?_⟩, θ, hθ, Or.inl ?_⟩
      · rw [symbol_mirror, hsymbol]
      · rw [args_mirror ha, List.length_reverse, hlen]
      · rw [args_mirror ha]
        exact map_subst_turn hargs
  · rintro (h | h)
    · exact exists_unify_symm hσ (fun _ => proper_of_isEq ha) h
    · obtain ⟨⟨hsymbol, hlen⟩, θ, hθ, hargs⟩ := (exists_unify_iff hσ).mp h
      rw [symbol_mirror] at hsymbol
      rw [args_mirror ha] at hlen hargs
      rw [List.length_reverse] at hlen
      refine (exists_unify_iff hσ).mpr ⟨⟨hsymbol.symm, hlen.symm⟩, θ, hθ, ?_⟩
      rcases hargs with hargs | ⟨-, hargs⟩
      · exact Or.inr ⟨ha, map_subst_turn hargs⟩
      · -- turned round twice, the sides are in the given order
        rw [List.reverse_reverse] at hargs
        exact Or.inl hargs.symm

/-- Unifiers of exchanged atoms have the same solutions: an order of sides that fails does so both
    ways. -/
theorem solves_iff_of_unify (hσ : σ.Acyclic) (h : a.unify σ b = some τ)
    (h' : b.unify σ a = some υ) (θ : Ident → Term) : τ.Solves θ ↔ υ.Solves θ := by
  obtain ⟨⟨-, hlen⟩, h⟩ := unify_eq_some.mp h
  obtain ⟨-, h'⟩ := unify_eq_some.mp h'
  -- the mixed cases are impossible: one order of sides would succeed one way and fail the other way
  rcases h with h | ⟨hnone, -, h⟩
  · rcases h' with h' | ⟨hnone', -, -⟩
    · rw [solves_iff_of_unifyList hσ hlen h, solves_iff_of_unifyList hσ hlen.symm h']
      exact and_congr_right fun _ => eq_comm
    · obtain ⟨ρ, hρ⟩ := exists_unifyList_symm hσ hlen h
      rw [hnone'] at hρ
      cases hρ
  · rcases h' with h' | ⟨-, -, h'⟩
    · obtain ⟨ρ, hρ⟩ := exists_unifyList_symm hσ hlen.symm h'
      rw [hnone] at hρ
      cases hρ
    · have hlen₁ : a.args.length = b.args.reverse.length := by rw [List.length_reverse, hlen]
      have hlen₂ : b.args.length = a.args.reverse.length := by rw [List.length_reverse, hlen]
      rw [solves_iff_of_unifyList hσ hlen₁ h, solves_iff_of_unifyList hσ hlen₂ h']
      exact and_congr_right fun _ => ⟨map_subst_turn, map_subst_turn⟩

end Atom

end

/-! ## Section 3: Expressions of any kind -/

namespace Expression

/-- Whether an expression is an equation or the negation of one. -/
def isEquation : Expression → Bool
  | .term _ => false
  | .atom a => a.isEq
  | .literal l => l.atom.isEq

/-- One of two expressions is an equation, and the other one uses the name of equality for an
    ordinary predicate. -/
def Confusable (a b : Expression) : Prop :=
  a.isEquation = true ∧ ¬ b.Proper ∨ b.isEquation = true ∧ ¬ a.Proper

/-- Starting from the bindings `σ`, the two expressions unify. -/
def Unifies (σ : Substitution) (a b : Expression) : Prop :=
  ∃ β, (Bindings.ofSubstitution σ).unify a.node b.node = .ok (some β)

variable {σ τ υ : Substitution} {a b : Expression}

theorem unifies_iff : a.Unifies σ b ↔ ∃ τ, a.unify σ b = some τ := by
  unfold Unifies
  simp only [Bindings.unify_ofSubstitution, Except.ok.injEq, Option.map_eq_some_iff]
  constructor
  · rintro ⟨β, τ, hτ, -⟩
    exact ⟨τ, hτ⟩
  · rintro ⟨τ, hτ⟩
    exact ⟨_, τ, hτ, rfl⟩

/-- Literals unify exactly if they have the same sign and their atoms unify. -/
theorem unifies_literal {l m : Literal} : (Expression.literal l).Unifies σ (.literal m) ↔
    l.positive = m.positive ∧ ∃ τ, l.atom.unify σ m.atom = some τ := by
  simp only [unifies_iff, unify, Literal.unify_eq_some, exists_and_left]

private theorem Unifies.symm (hσ : σ.Acyclic) (hab : ¬ a.Confusable b) (h : a.Unifies σ b) :
    b.Unifies σ a := by
  have hb : a.isEquation = true → b.Proper := fun ha => by_contra fun hb => hab (Or.inl ⟨ha, hb⟩)
  cases a <;> cases b
  case term.term s t =>
    obtain ⟨τ, hτ⟩ := unifies_iff.mp h
    exact unifies_iff.mpr (exists_unifyList_symm hσ rfl hτ)
  case atom.atom a b =>
    exact unifies_iff.mpr (Atom.exists_unify_symm hσ hb (unifies_iff.mp h))
  case literal.literal l m =>
    obtain ⟨hsign, h⟩ := unifies_literal.mp h
    exact unifies_literal.mpr ⟨hsign.symm, Atom.exists_unify_symm hσ hb h⟩
  -- expressions of different kinds do not unify
  all_goals
    obtain ⟨τ, hτ⟩ := unifies_iff.mp h
    cases hτ

/-- An equation unifies with an expression exactly if the expression unifies with the equation or
    with its mirror image. -/
theorem unifies_iff_mirror (hσ : σ.Acyclic) (ha : a.isEquation = true) :
    a.Unifies σ b ↔ b.Unifies σ a ∨ b.Unifies σ a.mirror := by
  cases a <;> cases b
  case atom.atom a b =>
    simp only [unifies_iff]
    exact Atom.exists_unify_iff_mirror hσ ha
  case literal.literal l m =>
    rw [mirror, unifies_literal, unifies_literal, unifies_literal, ← and_or_left,
      Atom.exists_unify_iff_mirror hσ ha, eq_comm]
  case term.term | term.atom | term.literal => cases ha
  all_goals simp [unifies_iff, unify, mirror]

/-- Unifiers of exchanged expressions have the same solutions. -/
theorem solves_iff_of_unify (hσ : σ.Acyclic) (h : a.unify σ b = some τ)
    (h' : b.unify σ a = some υ) (θ : Ident → Term) : τ.Solves θ ↔ υ.Solves θ := by
  cases a <;> cases b
  case term.term s t =>
    have hlen : [s].length = [t].length := rfl
    rw [solves_iff_of_unifyList hσ hlen h, solves_iff_of_unifyList hσ hlen.symm h']
    exact and_congr_right fun _ => eq_comm
  case atom.atom a b => exact Atom.solves_iff_of_unify hσ h h' θ
  case literal.literal l m =>
    exact Atom.solves_iff_of_unify hσ (Literal.unify_eq_some.mp h).2
      (Literal.unify_eq_some.mp h').2 θ
  all_goals cases h

end Expression

/-- Whether two expressions unify does not depend on their order, unless one of them is an equation
    and the other one uses the name of equality for an ordinary predicate.  In any case, an equation
    in the first place unifies with exactly those expressions that unify with it or with its mirror
    image, and if both orders succeed, the unifiers have the same solutions. -/
theorem unifiability_symmetric {σ : Substitution} (hσ : σ.Acyclic) (a b : Expression) :
    (¬ a.Confusable b → (a.Unifies σ b ↔ b.Unifies σ a)) ∧
      (a.isEquation = true → (a.Unifies σ b ↔ b.Unifies σ a ∨ b.Unifies σ a.mirror)) ∧
      ∀ β γ, (Bindings.ofSubstitution σ).unify a.node b.node = .ok (some β) →
        (Bindings.ofSubstitution σ).unify b.node a.node = .ok (some γ) →
        ∃ τ υ, β = .ofSubstitution τ ∧ γ = .ofSubstitution υ ∧
          ∀ θ, τ.Solves θ ↔ υ.Solves θ := by
  refine ⟨fun hab => ⟨.symm hσ hab, .symm hσ fun h => hab h.symm⟩,
    Expression.unifies_iff_mirror hσ, fun β γ hβ hγ => ?_⟩
  rw [Bindings.unify_ofSubstitution, Except.ok.injEq, Option.map_eq_some_iff] at hβ hγ
  obtain ⟨τ, hτ, rfl⟩ := hβ
  obtain ⟨υ, hυ, rfl⟩ := hγ
  exact ⟨τ, υ, rfl, rfl, Expression.solves_iff_of_unify hσ hτ hυ⟩

/-- The literals `~ g(X) = f(Y)` and `~ f(f(Z)) = g(Z)`, with `Z` bound to `W`: they unify after the
    sides of one have been turned round, and `X` is bound to `W` in the one case and `W` to `X` in the
    other. -/
theorem unifiability_symmetric_turned :
    let f (t : Term) := Term.app (.num 0) [t]
    let g (t : Term) := Term.app (.num 1) [t]
    let X := Ident.num 2
    let Y := Ident.num 3
    let Z := Ident.num 4
    let σ := Substitution.empty.insert Z (.var (.num 5))
    let a := Expression.literal ⟨false, .eq (g (.var X)) (f (.var Y))⟩
    let b := Expression.literal ⟨false, .eq (f (f (.var Z))) (g (.var Z))⟩
    ¬ a.Confusable b ∧ a.Unifies σ b ∧ b.Unifies σ a := by
  intro f g X Y Z σ a b
  have hσ : σ.Acyclic := Substitution.acyclic_empty.insert (by decide) (by decide)
  have hab : ¬ a.Confusable b := by
    rintro (⟨-, h⟩ | ⟨-, h⟩)
    · exact h trivial
    · exact h trivial
  have hunify : (a.unify σ b).isSome = true := by decide
  have h : a.Unifies σ b := Expression.unifies_iff.mpr (Option.isSome_iff_exists.mp hunify)
  exact ⟨hab, h, ((unifiability_symmetric hσ a b).1 hab).mp h⟩

/-- The equation `d = c` unifies with the ordinary atom `=(c, d)`, but `=(c, d)` does not unify with
    the equation. -/
theorem unifiability_not_symmetric :
    let c := Term.const (.num 0)
    let d := Term.const (.num 1)
    let a := Expression.atom (.eq d c)
    let b := Expression.atom (.pred .equality [c, d])
    a.Unifies .empty b ∧ ¬ b.Unifies .empty a := by
  intro c d a b
  have hsome : (a.unify .empty b).isSome = true := by decide
  have hnone : b.unify .empty a = none := by decide
  refine ⟨Expression.unifies_iff.mpr (Option.isSome_iff_exists.mp hsome), fun h => ?_⟩
  obtain ⟨τ, hτ⟩ := Expression.unifies_iff.mp h
  rw [hnone] at hτ
  cases hτ

end Clausal
