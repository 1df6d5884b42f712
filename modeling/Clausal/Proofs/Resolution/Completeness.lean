import Clausal.Proofs.MostGeneral
import Clausal.Proofs.Resolution.Propositional
import Clausal.Proofs.Resolution.Saturation

/-!
# Completeness of resolution

If clauses are closed under resolution and the empty clause is not among them, then they are true in
an interpretation by terms.  The instances of the clauses are propositional clauses; a resolvent of
two instances contains an instance of a resolvent of the clauses, so the instances are saturated and
have a valuation.

This takes two things for granted that a search does not see to.  The literals of a clause that
become equal in an instance must be equal already, since the clauses of formulas are never factored.
And a resolvent is kept in its factored form only, so nothing may be lost by factoring.  Where one of
the two fails, a search may end without a contradiction although there is one.

## Main definitions

- `groundInstance`: an instance of literals as a propositional clause
- `Atom.Rigid`: atoms whose unifiers are most general in every order of their sides
- `Lossless`, `LosslessFactoring`: factoring loses nothing

## Main statements

- `exists_common_instance`: clauses renamed apart can be instantiated side by side
- `exists_part_of_resolvent`: the lifting lemma
- `exists_termModel`: clauses that are closed under resolution are true together
- `resolution_complete`
-/

namespace Clausal

/-! ## Section 1: Instances as propositional clauses -/

/-- The atoms that are equal to an atom. -/
def Atom.variants (a : Atom) : Set Atom :=
  {b | (a == b) = true}

theorem Atom.variants_eq_iff {a b : Atom} : a.variants = b.variants ↔ (a == b) = true := by
  constructor
  · intro h
    have hb : b ∈ a.variants := h ▸ (BEq.rfl : (b == b) = true)
    exact hb
  · intro h
    ext c
    exact ⟨fun hac => BEq.trans (BEq.symm h) hac, fun hbc => BEq.trans h hbc⟩

/-- An instance of a literal as a propositional literal. -/
def Literal.ground (θ : Ident → Term) (l : Literal) : Propositional.Literal (Set Atom) :=
  ((l.atom.subst θ).variants, l.positive)

theorem Literal.ground_eq_iff {θ τ : Ident → Term} {l m : Literal} :
    l.ground θ = m.ground τ ↔ (l.subst θ == m.subst τ) = true := by
  rw [ground, ground, Prod.mk.injEq, Atom.variants_eq_iff, beq_iff]
  rfl

theorem Literal.ground_congr {θ τ : Ident → Term} {l : Literal} (h : ∀ x ∈ l.vars, θ x = τ x) :
    l.ground θ = l.ground τ := by
  rw [ground, ground, Atom.subst_congr h]

theorem Literal.ground_subst (θ τ : Ident → Term) (l : Literal) :
    (l.subst τ).ground θ = l.ground fun x => (τ x).subst θ := by
  rw [ground, ground, atom_subst, Atom.subst_subst]
  rfl

/-- An instance of literals as a propositional clause. -/
def groundInstance (θ : Ident → Term) (ls : List Literal) :
    Set (Propositional.Literal (Set Atom)) :=
  {k | ∃ l ∈ ls, l.ground θ = k}

theorem finite_groundInstance (θ : Ident → Term) (ls : List Literal) :
    (groundInstance θ ls).Finite := by
  refine ((ls.map (Literal.ground θ)).finite_toSet).subset ?_
  rintro k ⟨l, hl, rfl⟩
  exact List.mem_map_of_mem hl

private theorem groundInstance_congr {θ τ : Ident → Term} {ls : List Literal}
    (h : ∀ l ∈ ls, l.ground θ = l.ground τ) : groundInstance θ ls = groundInstance τ ls := by
  ext k
  exact exists_congr fun l => and_congr_right fun hl => by rw [h l hl]

/-- Literals that have an instance among others have no more instances than these. -/
theorem groundInstance_subset {θ τ : Ident → Term} {ks ls : List Literal}
    (h : ∀ k ∈ ks, ∃ l ∈ ls, (k.subst τ == l) = true) :
    groundInstance (fun x => (τ x).subst θ) ks ⊆ groundInstance θ ls := by
  rintro _ ⟨k, hk, rfl⟩
  obtain ⟨l, hl, hkl⟩ := h k hk
  refine ⟨l, hl, ?_⟩
  rw [← Literal.ground_subst, Literal.ground_eq_iff]
  exact Literal.beq_subst (BEq.symm hkl) θ

theorem IsImage.groundInstance_eq {θ τ : Ident → Term} {ls ks : List Literal}
    (h : IsImage τ ls ks) :
    groundInstance θ ks = groundInstance (fun x => (τ x).subst θ) ls := by
  ext k
  constructor
  · rintro ⟨j, hj, rfl⟩
    obtain ⟨l, hl, rfl⟩ := h.into j hj
    exact ⟨l, hl, (Literal.ground_subst θ τ l).symm⟩
  · rintro ⟨l, hl, rfl⟩
    obtain ⟨j, hj, hlj⟩ := h.onto l hl
    refine ⟨j, hj, ?_⟩
    rw [← Literal.ground_subst, Literal.ground_eq_iff]
    exact Literal.beq_subst (BEq.symm hlj) θ

/-- A clause and a copy of another one that has no variable in common with it can be instantiated
    side by side. -/
theorem exists_common_instance {s : Names} {c : Clause} (hc : c.Below s.next) (d : Clause)
    (θ τ : Ident → Term) : ∃ u, groundInstance u c.literals = groundInstance θ c.literals ∧
      groundInstance u (c.apartFrom s d).1.literals = groundInstance τ d.literals := by
  unfold Clause.apartFrom
  split
  next =>
    obtain ⟨u, hold, hnew⟩ := exists_valuation_of_copy s d.vars θ τ
    refine ⟨u, groundInstance_congr fun l hl => Literal.ground_congr fun x hx => ?_, ?_⟩
    · exact hold x (hc x (Clause.mem_vars.mpr ⟨l, hl, hx⟩))
    · refine (d.isImage_subst _).groundInstance_eq.trans
        (groundInstance_congr fun l hl => Literal.ground_congr fun x hx => ?_)
      exact hnew x (Clause.mem_vars.mpr ⟨l, hl, hx⟩)
  next hshare =>
    classical
    refine ⟨fun x => if x ∈ c.vars then θ x else τ x,
      groundInstance_congr fun l hl => Literal.ground_congr fun x hx => ?_,
      groundInstance_congr fun l hl => Literal.ground_congr fun x hx => ?_⟩
    · exact if_pos (Clause.mem_vars.mpr ⟨l, hl, hx⟩)
    · refine if_neg fun hxc => hshare (List.any_eq_true.mpr ⟨x, hxc, ?_⟩)
      exact List.contains_iff_mem.mpr (Clause.mem_vars.mpr ⟨l, hl, hx⟩)

/-! ## Section 2: Literals that are merged -/

/-- An atom that is no equation, or an equation without variables: turning its sides round gives it
    no further unifiers. -/
structure Atom.Rigid (a : Atom) : Prop where
  proper : a.Proper
  vars : a.isEq = true → a.vars = []

theorem Atom.Rigid.subst {a : Atom} (h : a.Rigid) (θ : Ident → Term) : (a.subst θ).Rigid where
  proper := (a.proper_subst θ).mpr h.proper
  vars heq := by
    rw [isEq_subst] at heq
    rw [subst_of_vars_eq_nil (h.vars heq), h.vars heq]

/-- Rigid atoms that have a common instance in one order of their sides have all their common
    instances in that order. -/
theorem Atom.Rigid.subst_eq {a b c : Atom} (ha : a.Rigid) (hb : b.Rigid) (hc : c = b ∨ c = b.mirror)
    {θ τ : Ident → Term} (hτ : a.subst τ = c.subst τ) (h : (a.subst θ == b.subst θ) = true) :
    a.subst θ = c.subst θ := by
  have hkind : a.isEq = b.isEq := by
    rw [← a.isEq_subst θ, ← b.isEq_subst θ]
    rcases beq_iff.mp h with heq | ⟨l, r, hl, hr⟩
    · rw [heq]
    · rw [hl, hr]
      rfl
  cases heq : b.isEq with
  | false =>
    obtain rfl : c = b := hc.elim id fun hc => hc.trans (mirror_eq_self heq)
    rcases beq_iff_mirror.mp h with hac | hac
    · exact hac
    · rw [hac, mirror_eq_self (by rw [isEq_subst, heq])]
  | true =>
    -- without variables, both atoms are their own instances
    have hinst : ∀ ρ, c.subst ρ = c := by
      intro ρ
      rcases hc with rfl | rfl
      · exact subst_of_vars_eq_nil (hb.vars heq) ρ
      · rw [← mirror_subst, subst_of_vars_eq_nil (hb.vars heq)]
    have ha' := subst_of_vars_eq_nil (ha.vars (hkind.trans heq))
    rw [ha', hinst] at hτ
    rw [ha', hinst, hτ]

/-- A unifier of rigid literals is solved by whatever makes them equal. -/
theorem Literal.solves_of_unify {l m : Literal} (hl : l.atom.Rigid) (hm : m.atom.Rigid)
    {σ : Substitution} (hσ : l.unify .empty m = some σ) {θ : Ident → Term}
    (h : (l.subst θ == m.subst θ) = true) : σ.Acyclic ∧ σ.Solves θ := by
  obtain ⟨-, hσ⟩ := unify_eq_some.mp hσ
  obtain ⟨c, hc, hmg⟩ := Atom.exists_orientation_of_unify Substitution.acyclic_empty hl.proper
    hm.proper hσ
  refine ⟨hmg.acyclic, (hmg.solves_iff θ).mpr ⟨Substitution.solves_empty θ, ?_⟩⟩
  exact hl.subst_eq hm (hc.imp id And.left) hmg.value.2 (beq_iff.mp h).1

/-- No two literals of a clause become equal, unless they are equal already. -/
def Clause.Separate (c : Clause) : Prop :=
  ∀ k ∈ c.literals, ∀ l ∈ c.literals, ∀ θ : Ident → Term, (k.subst θ == l.subst θ) = true →
    (k == l) = true

theorem pairwise_of_firstUnifier? {ls : List Literal} (h : firstUnifier? ls = none) :
    ls.Pairwise fun l m => l.unify .empty m = none := by
  induction ls with
  | nil => exact .nil
  | cons l ls ih =>
    unfold firstUnifier? at h
    split at h
    next => cases h
    next hnone => exact .cons (List.findSome?_eq_none_iff.mp hnone) (ih h)

private theorem Clause.separate_of_firstUnifier? {c : Clause} (hc : c.Proper)
    (h : firstUnifier? c.literals = none) : c.Separate := by
  have hpair : c.literals.Pairwise fun k l => ∀ θ : Ident → Term,
      (k.subst θ == l.subst θ) = true → (k == l) = true := by
    refine (pairwise_of_firstUnifier? h).imp_of_mem fun hk hl hnone θ heq => ?_
    have hnot := (Literal.unify_eq_none_iff Substitution.acyclic_empty (hc _ hk) (hc _ hl)).mp hnone
    exact absurd ⟨θ, Substitution.solves_empty θ, heq⟩ hnot
  intro k hk l hl
  refine hpair.forall_of_forall_of_flip (fun l _ _ _ => BEq.rfl) ?_ hk hl
  exact hpair.imp fun h θ heq => BEq.symm (h θ (BEq.symm heq))

private theorem Clause.Separate.apartFrom {s : Names} {c d : Clause} (hd : d.Separate) :
    (c.apartFrom s d).1.Separate := by
  obtain ⟨ρ, hρ⟩ := exists_isImage_apartFrom s c d
  intro k hk l hl θ heq
  obtain ⟨k, hk', rfl⟩ := hρ.into k hk
  obtain ⟨l, hl', rfl⟩ := hρ.into l hl
  rw [Literal.subst_subst, Literal.subst_subst] at heq
  exact Literal.beq_subst (hd k hk' l hl' _ heq) ρ

/-- Factoring loses nothing: what it yields has an instance among the literals it was made of. -/
def Lossless (ls : List Literal) : Prop :=
  ∃ τ : Ident → Term, ∀ k ∈ factor ls, ∃ l ∈ ls, (k.subst τ == l) = true

/-- Factoring has no effect on what can be inferred: no two literals of a clause unify, and what is
    left of two clauses is not weakened when it is factored. -/
structure LosslessFactoring (cs : List Clause) : Prop where
  separate : ∀ c ∈ cs, firstUnifier? c.literals = none
  lossless : ∀ c ∈ cs, ∀ d ∈ cs, ∀ s : Names, ∀ l ∈ c.literals,
    ∀ m ∈ (c.apartFrom s d).1.literals, ∀ σ, l.unify .empty m.negate = some σ →
      Lossless ((c.rest (c.apartFrom s d).1 l m).map (Literal.subst σ.value))

/-! ## Section 3: Lifting -/

/-- Every literal of a clause is about a rigid atom. -/
def Clause.Rigid (c : Clause) : Prop :=
  ∀ l ∈ c.literals, l.atom.Rigid

theorem IsImage.rigid {θ : Ident → Term} {ls ks : List Literal} (h : IsImage θ ls ks)
    (hls : ∀ l ∈ ls, l.atom.Rigid) : ∀ k ∈ ks, k.atom.Rigid := by
  intro k hk
  obtain ⟨l, hl, rfl⟩ := h.into k hk
  exact (hls l hl).subst θ

private theorem Clause.inherited_rigid : Agenda.Inherited Clause.Rigid := by
  intro c d hc hd s r hr
  obtain ⟨l, -, m, -, he, -, -⟩ := mem_resolve.mp hr
  obtain ⟨ρ, hρ⟩ := exists_isImage_apartFrom s c d
  obtain ⟨θ, hθ⟩ := exists_isImage_of_resolveOn he
  refine hθ.rigid fun k hk => ?_
  rcases List.mem_append.mp hk with hk | hk
  · exact hc k (mem_without.mp hk).1
  · exact hρ.rigid hd k (mem_without.mp hk).1

private theorem tautology_of_isTautology {ls : List Literal} (h : isTautology ls = true)
    (θ : Ident → Term) : Propositional.Tautology (groundInstance θ ls) := by
  have hcompl : ∃ l ∈ ls, ∃ m ∈ ls, (l.atom == m.atom) = true ∧ l.positive ≠ m.positive := by
    induction ls with
    | nil => simp [isTautology] at h
    | cons l ls ih =>
      rcases Bool.or_eq_true_iff.mp h with h | h
      · obtain ⟨m, hm, hlm⟩ := List.any_eq_true.mp h
        simp only [Literal.complements, Bool.and_eq_true, bne_iff_ne] at hlm
        exact ⟨l, List.mem_cons_self, m, List.mem_cons_of_mem _ hm, hlm⟩
      · obtain ⟨k, hk, m, hm, hkm⟩ := ih h
        exact ⟨k, List.mem_cons_of_mem _ hk, m, List.mem_cons_of_mem _ hm, hkm⟩
  obtain ⟨l, hl, m, hm, hatom, hsign⟩ := hcompl
  have heq := Atom.variants_eq_iff.mpr (Atom.beq_subst hatom θ)
  refine ⟨(l.atom.subst θ).variants, ?_⟩
  cases hlp : l.positive with
  | true =>
    have hmp : m.positive = false := by simpa [hlp] using hsign
    exact ⟨⟨l, hl, by rw [Literal.ground, hlp]⟩, ⟨m, hm, by rw [Literal.ground, hmp, heq]⟩⟩
  | false =>
    have hmp : m.positive = true := by simpa [hlp] using hsign
    exact ⟨⟨m, hm, by rw [Literal.ground, hmp, heq]⟩, ⟨l, hl, by rw [Literal.ground, hlp]⟩⟩

/-- What is left of instances of two clauses that are resolved on an atom with the signs `b` and
    `!b`. -/
def groundRest (a : Set Atom) (b : Bool) (C D : Set (Propositional.Literal (Set Atom))) :
    Set (Propositional.Literal (Set Atom)) :=
  C \ {(a, b)} ∪ D \ {(a, !b)}

/-- Literals that are left over have their instances left over, since no other literal has the
    instance that is resolved on. -/
theorem groundInstance_rest_subset {c d : Clause} (hc : c.Separate) (hd : d.Separate)
    {l m : Literal} (hl : l ∈ c.literals) (hm : m ∈ d.literals) {θ : Ident → Term} {a : Set Atom}
    {b : Bool} (hla : l.ground θ = (a, b)) (hma : m.ground θ = (a, !b)) :
    groundInstance θ (c.rest d l m) ⊆
      groundRest a b (groundInstance θ c.literals) (groundInstance θ d.literals) := by
  rintro _ ⟨k, hk, rfl⟩
  rcases List.mem_append.mp hk with hk | hk
  · obtain ⟨hk, hkl⟩ := Clause.mem_without.mp hk
    refine Or.inl ⟨⟨k, hk, rfl⟩, fun heq => ?_⟩
    have hbeq := hc k hk l hl θ (Literal.ground_eq_iff.mp (heq.trans hla.symm))
    rw [hkl] at hbeq
    cases hbeq
  · obtain ⟨hk, hkm⟩ := Clause.mem_without.mp hk
    refine Or.inr ⟨⟨k, hk, rfl⟩, fun heq => ?_⟩
    have hbeq := hd k hk m hm θ (Literal.ground_eq_iff.mp (heq.trans hma.symm))
    rw [hkm] at hbeq
    cases hbeq

/-- The lifting lemma: what is left of two instances that can be resolved contains an instance of a
    resolvent, unless it is true anyway. -/
theorem exists_part_of_resolvent {c d : Clause} (hc : c.Rigid) (hd : d.Rigid) (hcs : c.Separate)
    (hds : d.Separate) (hless : ∀ l ∈ c.literals, ∀ m ∈ d.literals, ∀ σ,
      l.unify .empty m.negate = some σ → Lossless ((c.rest d l m).map (Literal.subst σ.value)))
    {θ : Ident → Term} {a : Set Atom} {b : Bool} (ha : (a, b) ∈ groundInstance θ c.literals)
    (ha' : (a, !b) ∈ groundInstance θ d.literals) :
    Propositional.Tautology
        (groundRest a b (groundInstance θ c.literals) (groundInstance θ d.literals)) ∨
      ∃ l ∈ c.literals, ∃ m ∈ d.literals, ∃ σ e, c.resolveOn d l m = some (σ, e) ∧
        ∃ τ, groundInstance τ e.literals ⊆
          groundRest a b (groundInstance θ c.literals) (groundInstance θ d.literals) := by
  obtain ⟨l, hl, hla⟩ := ha
  obtain ⟨m, hm, hma⟩ := ha'
  have hlm : (l.subst θ == m.negate.subst θ) = true := by
    rw [← Literal.ground_eq_iff, hla]
    obtain ⟨hatom, hsign⟩ := Prod.mk.inj hma
    rw [Literal.ground, Literal.negate, hatom, hsign, Bool.not_not]
  have hm' : m.negate.atom.Rigid := hd m hm
  -- the two literals unify, and the given instance is one of their most general instance
  obtain ⟨σ, hσ⟩ : ∃ σ, l.unify .empty m.negate = some σ := by
    refine Option.ne_none_iff_exists'.mp fun hnone => ?_
    have hnot := (Literal.unify_eq_none_iff Substitution.acyclic_empty (hc l hl).proper
      hm'.proper).mp hnone
    exact hnot ⟨θ, Substitution.solves_empty θ, hlm⟩
  obtain ⟨hacyclic, hsolves⟩ := Literal.solves_of_unify (hc l hl) hm' hσ hlm
  have hinst : groundInstance θ ((c.rest d l m).map (Literal.subst σ.value)) =
      groundInstance θ (c.rest d l m) := by
    rw [(IsImage.map σ.value _).groundInstance_eq]
    exact congrArg (groundInstance · _) (funext fun x => hsolves.subst_value hacyclic x)
  obtain ⟨τ, hτ⟩ := hless l hl m hm σ hσ
  have hpart := (groundInstance_subset (θ := θ) hτ).trans
    (hinst.subset.trans (groundInstance_rest_subset hcs hds hl hm hla hma))
  cases htaut : isTautology (factor ((c.rest d l m).map (Literal.subst σ.value))) with
  | true =>
    obtain ⟨a', hpos, hneg⟩ := tautology_of_isTautology htaut fun x => (τ x).subst θ
    exact Or.inl ⟨a', hpart hpos, hpart hneg⟩
  | false =>
    refine Or.inr ⟨l, hl, m, hm, σ, _, Clause.resolveOn_eq_some.mpr ⟨hσ, htaut, rfl⟩,
      fun x => (τ x).subst θ, fun k hk => hpart ?_⟩
    obtain ⟨j, hj, rfl⟩ := hk
    exact ⟨j, mem_of_mem_dedup hj, rfl⟩

/-! ## Section 4: A model of clauses that are closed under resolution -/

/-- All instances of clauses, as propositional clauses. -/
def groundInstances (cs : List Clause) : Set (Set (Propositional.Literal (Set Atom))) :=
  {C | ∃ c ∈ cs, ∃ θ, groundInstance θ c.literals = C}

/-- The first clause has been resolved with the second, and the resolvents are among the given
    clauses. -/
def ResolvedWithin (cs : List Clause) (c d : Clause) : Prop :=
  ∃ s : Names, c.Below s.next ∧ ∀ r ∈ (c.resolve s d).1, ∃ e ∈ cs, (r.resolvent == e) = true

private theorem exists_part_of_resolvedWithin {cs : List Clause} (hrigid : ∀ c ∈ cs, c.Rigid)
    (hfactor : LosslessFactoring cs) {c d : Clause} (hc : c ∈ cs) (hd : d ∈ cs)
    (h : ResolvedWithin cs c d) {θ τ : Ident → Term} {a : Set Atom} {b : Bool}
    (ha : (a, b) ∈ groundInstance θ c.literals) (ha' : (a, !b) ∈ groundInstance τ d.literals) :
    Propositional.Tautology
        (groundRest a b (groundInstance θ c.literals) (groundInstance τ d.literals)) ∨
      ∃ E ∈ groundInstances cs,
        E ⊆ groundRest a b (groundInstance θ c.literals) (groundInstance τ d.literals) := by
  obtain ⟨s, hbelow, hresolved⟩ := h
  obtain ⟨u, hu, hu'⟩ := exists_common_instance hbelow d θ τ
  have hseparate : ∀ e ∈ cs, e.Separate := fun e he =>
    Clause.separate_of_firstUnifier? (fun l hl => (hrigid e he l hl).proper) (hfactor.separate e he)
  obtain ⟨ρ, hρ⟩ := Clause.exists_isImage_apartFrom s c d
  rw [← hu] at ha ⊢
  rw [← hu'] at ha' ⊢
  refine (exists_part_of_resolvent (hrigid c hc) (hρ.rigid (hrigid d hd)) (hseparate c hc)
    (hseparate d hd).apartFrom (hfactor.lossless c hc d hd s) ha ha').imp id ?_
  rintro ⟨l, hl, m, hm, σ, e, he, ρ', hpart⟩
  obtain ⟨e', he', hbeq⟩ := hresolved ⟨c, d, σ, e⟩
    (Clause.mem_resolve.mpr ⟨l, hl, m, hm, he, rfl, rfl⟩)
  refine ⟨_, ⟨e', he', ρ', rfl⟩, ?_⟩
  rintro _ ⟨k, hk, rfl⟩
  obtain ⟨j, hj, hkj⟩ := (Clause.beq_iff.mp hbeq).2 k hk
  refine hpart ⟨j, hj, ?_⟩
  exact (Literal.ground_eq_iff.mpr (Literal.beq_subst hkj ρ')).symm

/-- The instances of clauses that are closed under resolution are saturated. -/
theorem saturated_groundInstances {cs : List Clause} (hrigid : ∀ c ∈ cs, c.Rigid)
    (hfactor : LosslessFactoring cs)
    (h : ∀ c ∈ cs, ∀ d ∈ cs, ResolvedWithin cs c d ∨ ResolvedWithin cs d c) :
    Propositional.Saturated (groundInstances cs) := by
  rintro _ ⟨c, hc, θ, rfl⟩ _ ⟨d, hd, τ, rfl⟩ a hpos hneg
  rcases h c hc d hd with h | h
  · exact exists_part_of_resolvedWithin (b := true) hrigid hfactor hc hd h hpos hneg
  · have hpart := exists_part_of_resolvedWithin (b := false) hrigid hfactor hd hc h hneg hpos
    rwa [groundRest, Set.union_comm] at hpart

/-- Clauses that are closed under resolution are true together in an interpretation by terms, if none
    of them is empty and factoring loses nothing. -/
theorem exists_termModel {cs : List Clause} (hrigid : ∀ c ∈ cs, c.Rigid)
    (hfactor : LosslessFactoring cs) (hempty : ∀ c ∈ cs, c.isEmpty = false)
    (h : ∀ c ∈ cs, ∀ d ∈ cs, ResolvedWithin cs c d ∨ ResolvedWithin cs d c) :
    ∃ M : Set Atom, (∀ a b, (a == b) = true → (a ∈ M ↔ b ∈ M)) ∧
      ∀ c ∈ cs, (termModel M).ModelsClause c := by
  obtain ⟨v, hv⟩ := Propositional.exists_valuation (N := groundInstances cs)
    (by rintro _ ⟨c, -, θ, rfl⟩; exact finite_groundInstance θ c.literals)
    (by
      rintro ⟨c, hc, θ, hnone⟩
      have hne := List.isEmpty_eq_false_iff.mp (hempty c hc)
      obtain ⟨l, hl⟩ := List.exists_mem_of_ne_nil _ hne
      exact Set.eq_empty_iff_forall_notMem.mp hnone _ ⟨l, hl, rfl⟩)
    (saturated_groundInstances hrigid hfactor h)
  refine ⟨{a | v a.variants}, fun a b hab => ?_, fun c hc θ => ?_⟩
  · show v a.variants ↔ v b.variants
    rw [Atom.variants_eq_iff.mpr hab]
  · obtain ⟨_, ⟨l, hl, rfl⟩, htrue⟩ := hv _ ⟨c, hc, θ, rfl⟩
    refine ⟨l, hl, ?_⟩
    rw [Interpretation.HoldsLiteral, holdsAtom_termModel]
    exact htrue

/-! ## Section 5: Searches that end -/

theorem termModel_symmetricEq {M : Set Atom} (hM : ∀ a b, (a == b) = true → (a ∈ M ↔ b ∈ M)) :
    (termModel M).SymmetricEq :=
  fun l r h => (hM (.eq l r) (.eq r l) (Atom.beq_iff.mpr (Or.inr ⟨l, r, rfl, rfl⟩))).mp h

/-- Formulas with rigid atoms have rigid clauses. -/
theorem rigid_clausesOf {s : Names} {fs : List Formula} (h : ∀ f ∈ fs, ∀ a ∈ f.atoms, a.Rigid) :
    ∀ c ∈ (clausesOf s fs).1, c.Rigid := by
  intro c hc l hl
  obtain ⟨f, hf, s', -, -, hc⟩ := Names.exists_of_mem_flatMap
    (fun s (f : Formula) => f.next_le_next_toCnf s) hc
  obtain ⟨a, ha, ⟨τ, hτ⟩, -, -⟩ :=
    Formula.mem_atoms_matrix (Formula.atom_mem_atoms_matrix hc hl)
  rw [hτ]
  exact (h f hf a ha).subst τ

/-- If a search that does all resolutions ends without a contradiction and factoring loses nothing,
    there is an interpretation by terms in which all that was told is true and the question has no
    true instance. -/
theorem exists_termModel_of_result_eq_false {strategy : Strategy}
    (haccepts : ∀ r, strategy.accepts r = true) {s : Names} {fs : List Formula} {query : Formula}
    (hrigid : ∀ f ∈ fs ++ [.not query], ∀ a ∈ f.atoms, a.Rigid) {n : Nat}
    (h : (searchAfter strategy s fs query n).1.result = some false)
    (hfactor : LosslessFactoring (searchAfter strategy s fs query n).1.agenda.clauses) :
    ∃ M : Set Atom, (∀ a b, (a == b) = true → (a ∈ M ↔ b ∈ M)) ∧
      ∀ f ∈ fs ++ [.not query], (termModel M).Models f := by
  rcases saturating_searchAfter Clause.inherited_rigid haccepts (rigid_clausesOf (s := s) hrigid) n
    with htrue | hsat
  · rw [h] at htrue
    cases htrue
  -- nothing is left to do, so all resolvents are known
  have hnil := hsat.ended h
  have hdone : ∀ c d, (searchAfter strategy s fs query n).1.agenda.Resolved c d →
      ResolvedWithin (searchAfter strategy s fs query n).1.agenda.clauses c d := by
    rintro c d ⟨s', hc, -, hr⟩
    refine ⟨s', hc, fun r hmem => (hr r hmem).resolve_left fun hpending => ?_⟩
    rw [hnil] at hpending
    exact List.not_mem_nil hpending
  obtain ⟨M, hM, hmodels⟩ := exists_termModel (fun c hc => (hsat.agenda.clauses c hc).2) hfactor
    hsat.nonempty fun c hc d hd => (hsat.agenda.resolved c hc d hd).imp (hdone c d) (hdone d c)
  have hsymm := termModel_symmetricEq hM
  refine ⟨M, hM, fun f hf => ?_⟩
  obtain ⟨s', -, -, hmem⟩ := Names.exists_supply (s := s)
    (f := fun s f => ((Formula.toCnf s f).1.clauses, (Formula.toCnf s f).2))
    (fun s f => f.next_le_next_toCnf s) hf
  refine (termModel M).models_of_toCnf hsymm (s := s') fun c hc v => ?_
  obtain ⟨e, he, hce⟩ := hsat.given c (hmem c hc)
  exact Interpretation.holdsClause_of_beq hsymm v (BEq.symm hce) (hmodels e he v)

/-- No atom of a formula is about equality. -/
def Formula.EqualityFree (f : Formula) : Prop :=
  ∀ a ∈ f.atoms, a.symbol ≠ .equality

instance (f : Formula) : Decidable f.EqualityFree :=
  inferInstanceAs (Decidable (∀ a ∈ f.atoms, a.symbol ≠ .equality))

private theorem Atom.rigid_of_symbol_ne {a : Atom} (h : a.symbol ≠ .equality) : a.Rigid := by
  cases a with
  | pred p ts => exact ⟨h, fun heq => Bool.noConfusion heq⟩
  | eq l r => exact absurd rfl h

/-- Completeness of resolution: if a search that does all resolutions ends without a contradiction
    and factoring loses nothing, then what was told does not entail the question. -/
theorem resolution_complete (strategy : Strategy) (haccepts : ∀ r, strategy.accepts r = true)
    (s : Names) (fs : List Formula) (query : Formula)
    (hfree : ∀ f ∈ query :: fs, f.EqualityFree) (n : Nat)
    (h : (searchAfter strategy s fs query n).1.result = some false)
    (hfactor : LosslessFactoring (searchAfter strategy s fs query n).1.agenda.clauses) :
    ∃ I : Interpretation Term, (∀ f ∈ fs, I.Models f) ∧ ¬ ∃ v, I.Holds v query := by
  rw [List.forall_mem_cons] at hfree
  have hrigid : ∀ f ∈ fs ++ [.not query], ∀ a ∈ f.atoms, a.Rigid := by
    rw [List.forall_mem_append, List.forall_mem_singleton]
    exact ⟨fun f hf a ha => Atom.rigid_of_symbol_ne (hfree.2 f hf a ha),
      fun a ha => Atom.rigid_of_symbol_ne (hfree.1 a ha)⟩
  obtain ⟨M, -, hmodels⟩ := exists_termModel_of_result_eq_false haccepts hrigid h hfactor
  rw [List.forall_mem_append, List.forall_mem_singleton] at hmodels
  exact ⟨termModel M, hmodels.1, fun ⟨v, hv⟩ => hmodels.2 v hv⟩

theorem lossless_of_length_le_one {ls : List Literal} (h : ls.length ≤ 1) : Lossless ls := by
  have hfactor : factor ls = ls := by
    match ls, h with
    | [], _ => rfl
    | [l], _ => rfl
  refine ⟨.var, fun k hk => ⟨k, hfactor ▸ hk, ?_⟩⟩
  rw [k.subst_var]
  exact BEq.rfl

/-- Nothing is lost where every resolution leaves at most one literal. -/
theorem losslessFactoring_of_size_le {cs : List Clause}
    (hseparate : ∀ c ∈ cs, firstUnifier? c.literals = none)
    (hsize : ∀ c ∈ cs, ∀ d ∈ cs, ∀ l ∈ c.literals, ∀ m ∈ d.literals,
      l.positive = !m.positive → l.atom.symbol = m.atom.symbol → c.size + d.size ≤ 3) :
    LosslessFactoring cs where
  separate := hseparate
  lossless c hc d hd s l hl m hm σ hσ := by
    have hshorter : ∀ (e : Clause) (k : Literal), k ∈ e.literals →
        (e.without k).length < e.literals.length := by
      intro e k hk
      exact List.length_filter_lt_length_iff_exists.mpr ⟨k, hk, by simp⟩
    have hcopy : (c.apartFrom s d).1.literals.length ≤ d.literals.length := by
      unfold Clause.apartFrom
      split
      next => exact (dedup_sublist _).length_le.trans_eq (List.length_map _)
      next => exact Nat.le_refl _
    obtain ⟨ρ, hρ⟩ := Clause.exists_isImage_apartFrom s c d
    obtain ⟨m', hm', rfl⟩ := hρ.into m hm
    obtain ⟨hsign, hunify⟩ := Literal.unify_eq_some.mp hσ
    obtain ⟨hsymbol, -, -⟩ := Atom.unification_of_unify hunify
    have hle := hsize c hc d hd l hl m' hm' hsign (hsymbol.trans (Atom.symbol_subst ρ m'.atom))
    refine lossless_of_length_le_one ?_
    rw [List.length_map, Clause.rest, List.length_append]
    have := hshorter c l hl
    have := hshorter _ _ hm
    simp only [Clause.size] at hle
    omega

/-- All that has one property has another one, and something has it. -/
def inclusion : List Formula :=
  [.imp (.atom (.pred (.num 1) [.var (.num 0)])) (.atom (.pred (.num 2) [.var (.num 0)])),
    .atom (.pred (.num 1) [.const (.num 3)])]

theorem resolution_complete_inclusion :
    (searchAfter (StrategyChoice.strategy {}) {} inclusion
        (.atom (.pred (.num 2) [.const (.num 4)])) 2).1.result = some false ∧
      ∃ I : Interpretation Term, (∀ f ∈ inclusion, I.Models f) ∧
        ¬ ∃ v, I.Holds v (.atom (.pred (.num 2) [.const (.num 4)])) := by
  have hresult : (searchAfter (StrategyChoice.strategy {}) {} inclusion
      (.atom (.pred (.num 2) [.const (.num 4)])) 2).1.result = some false := by decide +kernel
  refine ⟨hresult, resolution_complete (StrategyChoice.strategy {}) (fun _ => rfl) {} inclusion _
    (by decide) 2 hresult (losslessFactoring_of_size_le ?_ ?_)⟩
  · decide +kernel
  · decide +kernel

/-- Three links in a row make a chain, and there are three. -/
def threeLinks : List Formula :=
  [.imp (.and (.and (.atom (.pred (.num 4) [.var (.num 0), .var (.num 1)]))
      (.atom (.pred (.num 4) [.var (.num 1), .var (.num 2)])))
      (.atom (.pred (.num 4) [.var (.num 2), .var (.num 3)]))) (.atom (.pred (.num 5) [])),
    .atom (.pred (.num 4) [.const (.num 6), .const (.num 7)]),
    .atom (.pred (.num 4) [.const (.num 7), .const (.num 8)]),
    .atom (.pred (.num 4) [.const (.num 8), .const (.num 9)])]

/-- Where factoring does lose something, a search may end without a contradiction although there is
    one: two links that are left are merged to one, from a thing to itself. -/
theorem resolution_incomplete_threeLinks :
    (searchAfter (StrategyChoice.strategy {}) {} threeLinks (.atom (.pred (.num 5) [])) 17).1.result =
        some false ∧
      ∀ (D : Type) (I : Interpretation D), (∀ f ∈ threeLinks, I.Models f) →
        ∃ v, I.Holds v (.atom (.pred (.num 5) [])) := by
  refine ⟨by decide +kernel, fun D I h => ⟨I.const, ?_⟩⟩
  simp only [threeLinks, List.forall_mem_cons] at h
  obtain ⟨hrule, h67, h78, h89, -⟩ := h
  let v : Ident → D := fun x =>
    if x = .num 0 then I.const (.num 6)
    else if x = .num 1 then I.const (.num 7)
    else if x = .num 2 then I.const (.num 8)
    else I.const (.num 9)
  exact hrule v ⟨⟨h67 v, h78 v⟩, h89 v⟩

end Clausal
