import Clausal.Proofs.Resolution.Completeness
import Clausal.Proofs.Subsumption
import Clausal.Proofs.Unification.Termination

/-!
# Factored resolvents

Factoring goes over the pairs of literals from left to right.  It gives up when two of them deny each
other, and starts again when two of them unify, with the unifier applied to all literals and what has
become equal merged.  The relations of this file follow that loop without a bound on its rounds.  Two
literals that unify become equal, in one order of the sides or the other if they are equations, so
every round leaves fewer literals and the loop ends.  At its end no pair denies or unifies.

## Main definitions

- `Compares`, `Scans`, `Factors`: one literal against others, one round, and the whole loop
- `Clause.ResolvesOn`: resolution on two literals, calls of unification included

## Main statements

- `not_distinct_of_firstUnifier?`: a merger leaves fewer literals
- `firstUnifier?_factorFor`: at the end no two literals unify
- `exists_factors`, `Factors.eq`: the loop ends with what `factorFor` computes
- `resolution_step_factored`: what is to be said about a single resolution
-/

namespace Clausal

universe u

/-! ## Section 1: Mergers -/

variable {ls ks : List Literal} {l m : Literal} {σ : Substitution}

/-- The unifier that the first pair has makes two literals equal, also where they are equations that
    were unified with their sides exchanged. -/
theorem not_distinct_of_firstUnifier? (hls : ∀ l ∈ ls, l.atom.Proper)
    (h : firstUnifier? ls = some σ) : ¬ Distinct (ls.map σ.applyLiteral) := by
  induction ls with
  | nil => cases h
  | cons l ls ih =>
    obtain ⟨hl, hls⟩ := List.forall_mem_cons.mp hls
    intro hdistinct
    obtain ⟨hne, hrest⟩ := List.pairwise_cons.mp hdistinct
    unfold firstUnifier? at h
    split at h
    next τ hτ =>
      obtain rfl := Option.some.inj h
      obtain ⟨m, hm, hlm⟩ := List.exists_of_findSome?_eq_some hτ
      have hbeq := Literal.beq_subst_of_unify Substitution.acyclic_empty hl (hls m hm) hlm
      have hfalse := hne _ (List.mem_map_of_mem hm)
      exact absurd hbeq (Bool.eq_false_iff.mp hfalse)
    next => exact ih hls h hrest

theorem proper_dedup_map (hls : ∀ l ∈ ls, l.atom.Proper) (σ : Substitution) :
    ∀ l ∈ dedup (ls.map σ.applyLiteral), l.atom.Proper :=
  (IsImage.map σ.value ls).dedup.proper hls

theorem length_merged_lt (hls : ∀ l ∈ ls, l.atom.Proper) (h : firstUnifier? ls = some σ) :
    (dedup (ls.map σ.applyLiteral)).length < ls.length := by
  have hlt := length_dedup_lt (not_distinct_of_firstUnifier? hls h)
  rwa [List.length_map] at hlt

/-- As many mergers as there are literals suffice: after them no two literals unify. -/
theorem firstUnifier?_factorFor {n : Nat} (hls : ∀ l ∈ ls, l.atom.Proper) (hn : ls.length ≤ n) :
    firstUnifier? (factorFor n ls) = none := by
  induction n generalizing ls with
  | zero =>
    obtain rfl := List.length_eq_zero_iff.mp (Nat.le_zero.mp hn)
    rfl
  | succ n ih =>
    unfold factorFor
    split
    next h => exact h
    next σ hσ =>
      have hlt := length_merged_lt hls hσ
      exact ih (proper_dedup_map hls σ) (by omega)

/-! ## Section 2: Literals that deny each other -/

theorem Literal.complements_iff : l.complements m = true ↔
    (l.atom == m.atom) = true ∧ l.positive ≠ m.positive := by
  simp [complements]

private theorem Literal.complements_symm (h : l.complements m = true) : m.complements l = true := by
  obtain ⟨hatom, hsign⟩ := complements_iff.mp h
  exact complements_iff.mpr ⟨BEq.symm hatom, hsign.symm⟩

theorem isTautology_iff :
    isTautology ls = true ↔ ∃ l ∈ ls, ∃ m ∈ ls, l.complements m = true := by
  induction ls with
  | nil => simp [isTautology]
  | cons k ls ih =>
    rw [isTautology, Bool.or_eq_true, List.any_eq_true, ih]
    constructor
    · rintro (⟨m, hm, hkm⟩ | ⟨l, hl, m, hm, hlm⟩)
      · exact ⟨k, List.mem_cons_self, m, List.mem_cons_of_mem _ hm, hkm⟩
      · exact ⟨l, List.mem_cons_of_mem _ hl, m, List.mem_cons_of_mem _ hm, hlm⟩
    · rintro ⟨l, hl, m, hm, hlm⟩
      rcases List.mem_cons.mp hl with rfl | hl'
      · rcases List.mem_cons.mp hm with rfl | hm'
        · -- no literal denies itself
          exact absurd rfl (Literal.complements_iff.mp hlm).2
        · exact Or.inl ⟨m, hm', hlm⟩
      · rcases List.mem_cons.mp hm with rfl | hm'
        · exact Or.inl ⟨l, hl', Literal.complements_symm hlm⟩
        · exact Or.inr ⟨l, hl', m, hm', hlm⟩

/-- Literals that deny each other do so after every replacement, so the loop may look for them at any
    time. -/
theorem IsImage.isTautology {θ : Ident → Term} (h : IsImage θ ls ks)
    (htaut : Clausal.isTautology ls = true) : Clausal.isTautology ks = true := by
  obtain ⟨l, hl, m, hm, hlm⟩ := isTautology_iff.mp htaut
  obtain ⟨hatom, hsign⟩ := Literal.complements_iff.mp hlm
  obtain ⟨l', hl', hll'⟩ := h.onto l hl
  obtain ⟨m', hm', hmm'⟩ := h.onto m hm
  obtain ⟨hlatom, hlsign⟩ := Literal.beq_iff.mp hll'
  obtain ⟨hmatom, hmsign⟩ := Literal.beq_iff.mp hmm'
  have hatom' : (l'.atom == m'.atom) = true :=
    BEq.trans (BEq.symm hlatom) (BEq.trans (Atom.beq_subst hatom θ) hmatom)
  refine isTautology_iff.mpr ⟨l', hl', m', hm', Literal.complements_iff.mpr ⟨hatom', ?_⟩⟩
  rw [← hlsign, ← hmsign]
  exact hsign

/-! ## Section 3: The loop -/

/-- What a look at a pair of literals comes upon. -/
inductive Finding where
  /-- The two deny each other. -/
  | denial
  /-- The two unify. -/
  | merger (σ : Substitution)

/-- A literal is compared with others until something is found; calls of unification return. -/
inductive Compares (l : Literal) : List Literal → Option Finding → Prop
  | nil : Compares l [] none
  | denial {m : Literal} {ms : List Literal} (h : l.complements m = true) :
      Compares l (m :: ms) (some .denial)
  | merger {m : Literal} {ms : List Literal} {σ : Substitution} (h : l.complements m = false)
      (call : (Expression.literal l).Returns Substitution.Acyclic .empty (.literal m) (some σ)) :
      Compares l (m :: ms) (some (.merger σ))
  | next {m : Literal} {ms : List Literal} {f : Option Finding} (h : l.complements m = false)
      (call : (Expression.literal l).Returns Substitution.Acyclic .empty (.literal m) none)
      (rest : Compares l ms f) : Compares l (m :: ms) f

/-- One round of the loop: every literal is compared with the later ones until something is found. -/
inductive Scans : List Literal → Option Finding → Prop
  | nil : Scans [] none
  | found {l : Literal} {ls : List Literal} {f : Finding} (h : Compares l ls (some f)) :
      Scans (l :: ls) (some f)
  | next {l : Literal} {ls : List Literal} {f : Option Finding} (h : Compares l ls none)
      (rest : Scans ls f) : Scans (l :: ls) f

/-- The loop, round after round.  A denial ends it with nothing, a merger starts it again, and if
    nothing is found the literals are factored. -/
inductive Factors : List Literal → Option (List Literal) → Prop
  | done {ls : List Literal} (round : Scans ls none) : Factors ls (some ls)
  | denied {ls : List Literal} (round : Scans ls (some .denial)) : Factors ls none
  | merged {ls : List Literal} {σ : Substitution} {r : Option (List Literal)}
      (round : Scans ls (some (.merger σ))) (next : Factors (dedup (ls.map σ.applyLiteral)) r) :
      Factors ls r

/-- A literal is compared with others in finite time. -/
theorem exists_compares (l : Literal) (ms : List Literal) : ∃ f, Compares l ms f := by
  induction ms with
  | nil => exact ⟨none, .nil⟩
  | cons m ms ih =>
    cases hlm : l.complements m with
    | true => exact ⟨_, .denial hlm⟩
    | false =>
      obtain ⟨r, hr⟩ :=
        Expression.exists_returns Substitution.acyclic_empty (.literal l) (.literal m)
      cases r with
      | some σ => exact ⟨_, .merger hlm hr⟩
      | none =>
        obtain ⟨f, hf⟩ := ih
        exact ⟨f, .next hlm hr hf⟩

private theorem exists_scans (ls : List Literal) : ∃ f, Scans ls f := by
  induction ls with
  | nil => exact ⟨none, .nil⟩
  | cons l ls ih =>
    obtain ⟨f, hf⟩ := exists_compares l ls
    cases f with
    | some f => exact ⟨_, .found hf⟩
    | none =>
      obtain ⟨g, hg⟩ := ih
      exact ⟨g, .next hf hg⟩

/-- What is found when a literal is compared with others. -/
def Finding.FitsLiteral (l : Literal) (ms : List Literal) : Option Finding → Prop
  | none => ms.findSome? (l.unify .empty) = none ∧ ms.any l.complements = false
  | some .denial => ms.any l.complements = true
  | some (.merger σ) => ms.findSome? (l.unify .empty) = some σ

/-- What is found in a round. -/
def Finding.Fits (ls : List Literal) : Option Finding → Prop
  | none => firstUnifier? ls = none ∧ isTautology ls = false
  | some .denial => isTautology ls = true
  | some (.merger σ) => firstUnifier? ls = some σ

private theorem Compares.fits {ms : List Literal} {f : Option Finding} (h : Compares l ms f) :
    Finding.FitsLiteral l ms f := by
  induction h with
  | nil => exact ⟨rfl, rfl⟩
  | denial h => simp [Finding.FitsLiteral, h]
  | merger h call =>
    have hunify : some _ = l.unify .empty _ := call.eq_unify Substitution.acyclic_empty
    simp [Finding.FitsLiteral, ← hunify]
  | @next m ms f h call rest ih =>
    -- the pair has nothing to show, so what the others show is what is found
    have hunify : none = l.unify .empty m := call.eq_unify Substitution.acyclic_empty
    rcases f with _ | _ | σ <;>
      simpa [Finding.FitsLiteral, h, ← hunify] using ih

theorem Scans.fits {f : Option Finding} (h : Scans ls f) : Finding.Fits ls f := by
  induction h with
  | nil => exact ⟨rfl, rfl⟩
  | @found l ls f h =>
    have hfits := h.fits
    cases f with
    | denial => exact Bool.or_eq_true_iff.mpr (Or.inl hfits)
    | merger σ =>
      have hfind : ls.findSome? (l.unify .empty) = some σ := hfits
      simp [Finding.Fits, firstUnifier?, hfind]
  | @next l ls f h rest ih =>
    obtain ⟨hfind, hany⟩ : ls.findSome? (l.unify .empty) = none ∧ ls.any l.complements = false :=
      h.fits
    rcases f with _ | _ | σ <;>
      simpa [Finding.Fits, firstUnifier?, isTautology, hfind, hany] using ih

/-- The loop ends.  The measure is the number of literals. -/
theorem exists_factors (hls : ∀ l ∈ ls, l.atom.Proper) : ∃ r, Factors ls r := by
  induction hn : ls.length using Nat.strong_induction_on generalizing ls with
  | _ n ih =>
    obtain ⟨f, hf⟩ := exists_scans ls
    rcases f with _ | _ | σ
    · exact ⟨_, .done hf⟩
    · exact ⟨_, .denied hf⟩
    · have hlt := length_merged_lt hls hf.fits
      obtain ⟨r, hr⟩ := ih _ (hn ▸ hlt) (proper_dedup_map hls σ) rfl
      exact ⟨r, .merged hf hr⟩

/-- The loop gives up exactly if the factored literals deny each other, and otherwise ends with
    them. -/
theorem Factors.eq {r : Option (List Literal)} (h : Factors ls r)
    (hls : ∀ l ∈ ls, l.atom.Proper) {n : Nat} (hn : ls.length ≤ n) :
    r = if isTautology (factorFor n ls) then none else some (factorFor n ls) := by
  induction h generalizing n with
  | @done ls round =>
    obtain ⟨hnone, htaut⟩ : firstUnifier? ls = none ∧ isTautology ls = false := round.fits
    have hsame : factorFor n ls = ls := by cases n <;> simp [factorFor, hnone]
    rw [hsame, htaut]
    rfl
  | @denied ls round =>
    -- the two literals keep denying each other while others are merged
    obtain ⟨θ, hθ⟩ := exists_isImage_factorFor n ls
    rw [if_pos (hθ.isTautology round.fits)]
  | @merged ls σ r round next ih =>
    have hσ : firstUnifier? ls = some σ := round.fits
    have hlt := length_merged_lt hls hσ
    obtain ⟨k, rfl⟩ : ∃ k, n = k + 1 := ⟨n - 1, by omega⟩
    have hstep : factorFor (k + 1) ls = factorFor k (dedup (ls.map σ.applyLiteral)) := by
      rw [factorFor, hσ]
    rw [hstep]
    exact ih (proper_dedup_map hls σ) (by omega)

/-! ## Section 4: Resolution on two literals -/

namespace Clause

/-- Resolution of two clauses on two literals returns: unification does, and if it finds a unifier
    then factoring does. -/
inductive ResolvesOn (c d : Clause) (l m : Literal) : Option (Substitution × Clause) → Prop
  | apart (call : (Expression.literal l).Returns Substitution.Acyclic .empty (.literal m.negate)
      none) : ResolvesOn c d l m none
  | factored {σ : Substitution} {r : Option (List Literal)}
      (call : (Expression.literal l).Returns Substitution.Acyclic .empty (.literal m.negate)
        (some σ))
      (loop : Factors (dedup ((c.rest d l m).map σ.applyLiteral)) r) :
      ResolvesOn c d l m (r.map fun ls => (σ, ofList ls))

variable {c d e : Clause}

theorem proper_rest (hc : c.Proper) (hd : d.Proper) (l m : Literal) :
    ∀ k ∈ c.rest d l m, k.atom.Proper := by
  intro k hk
  rcases List.mem_append.mp hk with hk | hk
  · exact hc k (mem_without.mp hk).1
  · exact hd k (mem_without.mp hk).1

/-- Resolution on two literals returns, and what it returns is the resolvent. -/
theorem resolvesOn_iff (hc : c.Proper) (hd : d.Proper) (l m : Literal)
    (r : Option (Substitution × Clause)) :
    c.ResolvesOn d l m r ↔ r = c.resolveOn d l m := by
  have hproper : ∀ σ : Substitution, ∀ k ∈ dedup ((c.rest d l m).map σ.applyLiteral),
      k.atom.Proper := fun σ => proper_dedup_map (proper_rest hc hd l m) σ
  have hvalue : ∀ (σ : Substitution) (f : Option (List Literal)),
      Factors (dedup ((c.rest d l m).map σ.applyLiteral)) f →
      l.unify .empty m.negate = some σ →
      (f.map fun ls => (σ, ofList ls)) = c.resolveOn d l m := by
    intro σ f hf hσ
    have hf := hf.eq (hproper σ) (dedup_sublist _).length_le
    rw [hf, resolveOn, hσ]
    show _ = if isTautology (factor ((c.rest d l m).map σ.applyLiteral)) = true then _ else _
    unfold factor
    split <;> rfl
  constructor
  · rintro (call | ⟨call, loop⟩)
    · have hnone : none = l.unify .empty m.negate := call.eq_unify Substitution.acyclic_empty
      rw [resolveOn, ← hnone]
    · exact hvalue _ _ loop (call.eq_unify Substitution.acyclic_empty).symm
  · rintro rfl
    obtain ⟨u, hu⟩ :=
      Expression.exists_returns Substitution.acyclic_empty (.literal l) (.literal m.negate)
    have hunify : u = l.unify .empty m.negate := hu.eq_unify Substitution.acyclic_empty
    cases u with
    | none =>
      have hnone : c.resolveOn d l m = none := by rw [resolveOn, ← hunify]
      exact hnone ▸ .apart hu
    | some σ =>
      obtain ⟨f, hf⟩ := exists_factors (hproper σ)
      rw [← hvalue σ f hf hunify.symm]
      exact .factored hu hf

/-- No two literals of a resolvent unify. -/
theorem hasUnifiableLiterals_of_resolveOn (hc : c.Proper) (hd : d.Proper) {l m : Literal}
    {σ : Substitution} (h : c.resolveOn d l m = some (σ, e)) : e.hasUnifiableLiterals = false := by
  obtain ⟨-, -, rfl⟩ := resolveOn_eq_some.mp h
  have hnone : firstUnifier? (factor ((c.rest d l m).map (Literal.subst σ.value))) = none :=
    firstUnifier?_factorFor (proper_dedup_map (proper_rest hc hd l m) σ) (dedup_sublist _).length_le
  exact anyUnifiable_eq_false.mpr ((pairwise_of_firstUnifier? hnone).sublist (dedup_sublist _))

/-- Different literals of a clause without unifiable ones have no instance in common. -/
theorem unify_eq_none_of_ne (he : e.Proper) (h : e.hasUnifiableLiterals = false) {l m : Literal}
    (hl : l ∈ e.literals) (hm : m ∈ e.literals) (hne : l ≠ m) :
    l.unify .empty m = none ∧ ∀ θ, (l.subst θ == m.subst θ) = false := by
  have hsymm : Std.Symm fun l m : Literal => ∀ θ, (l.subst θ == m.subst θ) = false :=
    ⟨fun _ _ hlm θ => BEq.symm_false (hlm θ)⟩
  have hnever := ((hasUnifiableLiterals_eq_false he).mp h).forall hl hm hne
  refine ⟨(Literal.unify_eq_none_iff Substitution.acyclic_empty (he l hl) (he m hm)).mpr ?_, hnever⟩
  rintro ⟨θ, -, hθ⟩
  rw [hnever θ] at hθ
  cases hθ

/-- No two literals of a resolvent deny each other. -/
theorem complements_eq_false_of_resolveOn {l m : Literal} {σ : Substitution}
    (h : c.resolveOn d l m = some (σ, e)) {j k : Literal} (hj : j ∈ e.literals)
    (hk : k ∈ e.literals) : j.complements k = false := by
  obtain ⟨-, htaut, rfl⟩ := resolveOn_eq_some.mp h
  by_contra hjk
  have htrue := isTautology_iff.mpr
    ⟨j, mem_of_mem_dedup hj, k, mem_of_mem_dedup hk, Bool.not_eq_false _ ▸ hjk⟩
  rw [htaut] at htrue
  cases htrue

private theorem mem_vars_of_resolveOn {l m : Literal} {σ : Substitution} (hl : l ∈ c.literals)
    (hm : m ∈ d.literals) (h : c.resolveOn d l m = some (σ, e)) {x : Ident} (hx : x ∈ e.vars) :
    x ∈ c.vars ∨ x ∈ d.vars := by
  have hover : LiteralsOver (fun x => x ∈ c.vars ∨ x ∈ d.vars) e.literals :=
    literalsOver_of_resolveOn (fun k hk x hx => Or.inl (mem_vars.mpr ⟨k, hk, hx⟩))
      (fun k hk x hx => Or.inr (mem_vars.mpr ⟨k, hk, hx⟩)) hl hm h
  obtain ⟨k, hk, hxk⟩ := mem_vars.mp hx
  exact hover k hk x hxk

end Clause

/-- Every call of resolution on two literals returns, and what it returns is the value of
    `resolveOn`.  A resolvent is true wherever the two clauses are and `=` is symmetric, no two of
    its literals unify and none deny each other, and its variables are those of the first clause and
    of the copy of the second that was used. -/
theorem resolution_step_factored (s : Names) (c d : Clause) (hc : c.Proper) (hd : d.Proper) :
    (∀ l ∈ c.literals, ∀ m ∈ (c.apartFrom s d).1.literals, ∀ r,
      c.ResolvesOn (c.apartFrom s d).1 l m r ↔ r = c.resolveOn (c.apartFrom s d).1 l m) ∧
    ∀ r ∈ (c.resolve s d).1,
      (∀ (D : Type u) (I : Interpretation D), I.SymmetricEq → I.ModelsClause c →
        I.ModelsClause d → I.ModelsClause r.resolvent) ∧
      (∀ l ∈ r.resolvent.literals, ∀ m ∈ r.resolvent.literals, l ≠ m →
        l.unify .empty m = none ∧ ∀ θ, (l.subst θ == m.subst θ) = false) ∧
      (∀ l ∈ r.resolvent.literals, ∀ m ∈ r.resolvent.literals,
        ¬ ((l.atom == m.atom) = true ∧ l.positive ≠ m.positive)) ∧
      ∀ x ∈ r.resolvent.vars, x ∈ c.vars ∨ x ∈ (c.apartFrom s d).1.vars := by
  have hcopy : (c.apartFrom s d).1.Proper := by
    obtain ⟨θ, hθ⟩ := Clause.exists_isImage_apartFrom s c d
    exact hθ.proper hd
  refine ⟨fun l _ m _ r => Clause.resolvesOn_iff hc hcopy l m r, fun r hr => ?_⟩
  obtain ⟨l, hl, m, hm, he, -, -⟩ := Clause.mem_resolve.mp hr
  refine ⟨fun D I hI hIc hId => ?_, fun j hj k hk hne => ?_, fun j hj k hk hjk => ?_,
    fun x hx => Clause.mem_vars_of_resolveOn hl hm he hx⟩
  · exact I.modelsClause_of_mem_resolve hI hc hd hIc hId hr
  · exact Clause.unify_eq_none_of_ne (hc.resolve hd hr)
      (Clause.hasUnifiableLiterals_of_resolveOn hc hcopy he) hj hk hne
  · have hfalse := Clause.complements_eq_false_of_resolveOn he hj hk
    exact absurd (Literal.complements_iff.mpr hjk) (Bool.eq_false_iff.mp hfalse)

/-- From `p(X) | q(X) | f(Y) = a` and `¬p(X) | q(b) | a = f(Y)`, which share their variables, comes
    `q(b) | f(Y') = a`: the literals of `q` are merged, and so are the equations, the second of which
    is turned around. -/
theorem resolution_step_factored_turned :
    let fY : Ident → Term := fun y => .app (.num 2) [.var y]
    let c := Clause.ofList [⟨true, .pred (.num 0) [.var (.num 5)]⟩,
      ⟨true, .pred (.num 1) [.var (.num 5)]⟩, ⟨true, .eq (fY (.num 6)) (.const (.num 3))⟩]
    let d := Clause.ofList [⟨false, .pred (.num 0) [.var (.num 5)]⟩,
      ⟨true, .pred (.num 1) [.const (.num 4)]⟩, ⟨true, .eq (.const (.num 3)) (fY (.num 6))⟩]
    c.Proper ∧ d.Proper ∧ c.sharesVars d = true ∧
      ∃ r ∈ (c.resolve {} d).1,
        (r.resolvent == .ofList [⟨true, .pred (.num 1) [.const (.num 4)]⟩,
          ⟨true, .eq (fY (.standard 1 (.num 6) none)) (.const (.num 3))⟩]) = true ∧
        (∀ (D : Type) (I : Interpretation D), I.SymmetricEq → I.ModelsClause c →
          I.ModelsClause d → I.ModelsClause r.resolvent) ∧
        (∀ l ∈ r.resolvent.literals, ∀ m ∈ r.resolvent.literals, l ≠ m →
          l.unify .empty m = none) ∧
        ∀ x ∈ r.resolvent.vars, x ∈ c.vars ∨ x ∈ (c.apartFrom {} d).1.vars := by
  intro fY c d
  have hc : c.Proper := by decide
  have hd : d.Proper := by decide
  have hany : ((c.resolve {} d).1.any fun r =>
      r.resolvent == .ofList [⟨true, .pred (.num 1) [.const (.num 4)]⟩,
        ⟨true, .eq (fY (.standard 1 (.num 6) none)) (.const (.num 3))⟩]) = true := by decide +kernel
  obtain ⟨r, hr, hlits⟩ := List.any_eq_true.mp hany
  obtain ⟨hmodels, hunify, -, hvars⟩ := (resolution_step_factored {} c d hc hd).2 r hr
  exact ⟨hc, hd, by decide, r, hr, hlits, hmodels,
    fun l hl m hm hne => (hunify l hl m hm hne).1, hvars⟩

end Clausal
