import Clausal.Proofs.Chaining.Steps
import Clausal.Proofs.Matching

/-!
# Completeness of forward chaining

When a forward search ends with a negative answer, the instances of the facts that it has stored are
closed under the rules, and no instance of the goal is among them.  They make up an interpretation by
terms in which all clauses are true and the goal is not.

A round tries only rules with a body atom that unifies with a fact of the round before.  What any
other rule infers, it infers from facts that are older than that, and so it has inferred it already.

## Main definitions

- `Covers`, `Infers`: instances of facts, and what clauses infer from them at once
- `ClauseStore.ClosedBut`, `ClauseStore.Pending`: what may still be missing from a store
- `ForwardQuery.Saturating`: the invariant of a search that has not found the goal

## Main statements

- `ClauseStore.exists_mem_inferences`: the lifting lemma
- `ClauseStore.ClosedBut.pending`: rules that are left out of a round have nothing to add
- `ForwardQuery.Saturating.next`: a step keeps the invariant
- `forward_chaining_complete`
-/

namespace Clausal

/-! ## Section 1: Immediate consequences -/

/-- An atom is an instance of one of the given atoms. -/
def Covers (fs : List Atom) (a : Atom) : Prop :=
  ∃ f ∈ fs, ∃ θ, f.subst θ = a

/-- One of the given clauses infers an atom from instances of the given atoms. -/
def Infers (fs : List Atom) (ds : List DefiniteClause) (a : Atom) : Prop :=
  ∃ d ∈ ds, ∃ θ, (∀ b ∈ d.body, Covers fs (b.subst θ)) ∧ d.head.subst θ = a

private theorem Covers.subst {fs : List Atom} {a : Atom} (h : Covers fs a) (θ : Ident → Term) :
    Covers fs (a.subst θ) := by
  obtain ⟨f, hf, ρ, rfl⟩ := h
  exact ⟨f, hf, _, (Atom.subst_subst ρ θ f).symm⟩

theorem Covers.mono {fs gs : List Atom} {a : Atom} (h : Covers fs a) (hsub : ∀ f ∈ fs, f ∈ gs) :
    Covers gs a := by
  obtain ⟨f, hf, hinst⟩ := h
  exact ⟨f, hsub f hf, hinst⟩

theorem not_covers_nil (a : Atom) : ¬ Covers [] a := by
  intro h
  obtain ⟨f, hf, -⟩ := h
  exact List.not_mem_nil hf

private theorem Infers.mono {fs gs : List Atom} {ds : List DefiniteClause} {a : Atom}
    (h : Infers fs ds a) (hcovers : ∀ b, Covers fs b → Covers gs b) : Infers gs ds a := by
  obtain ⟨d, hd, θ, hbody, hhead⟩ := h
  exact ⟨d, hd, θ, fun b hb => hcovers _ (hbody b hb), hhead⟩

/-! ## Section 2: Clauses without equality -/

theorem Atom.proper_of_symbol_ne {a : Atom} (h : a.symbol ≠ .equality) : a.Proper := by
  cases a with
  | pred p ts => exact h
  | eq l r => trivial

theorem Atom.eq_of_beq {a b : Atom} (ha : a.symbol ≠ .equality) (h : (a == b) = true) : a = b := by
  rcases beq_iff.mp h with heq | ⟨l, r, rfl, -⟩
  · exact heq
  · exact absurd rfl ha

/-- Atoms without variables in common unify if they have a common instance. -/
theorem Atom.isSome_unify_of_apart {a b : Atom} (ha : a.symbol ≠ .equality)
    (hb : b.symbol ≠ .equality) (hapart : ∀ x ∈ b.vars, x ∉ a.vars) {θ ρ : Ident → Term}
    (h : a.subst θ = b.subst ρ) : (a.unify .empty b).isSome = true := by
  classical
  -- the values for both atoms are put together
  let υ : Ident → Term := fun x => if x ∈ a.vars then θ x else ρ x
  have hυ : a.subst υ = b.subst υ := by
    calc a.subst υ = a.subst θ := subst_congr fun x hx => if_pos hx
      _ = b.subst ρ := h
      _ = b.subst υ := subst_congr fun x hx => (if_neg (hapart x hx)).symm
  obtain ⟨τ, hτ, -⟩ := exists_unify Substitution.acyclic_empty (proper_of_symbol_ne ha)
    (proper_of_symbol_ne hb) (Substitution.solves_empty υ) hυ
  simp [hτ]

namespace DefiniteClause

/-- No atom of a definite clause is about equality. -/
def EqualityFree (d : DefiniteClause) : Prop :=
  ∀ l ∈ d.clause.literals, l.atom.symbol ≠ .equality

instance (d : DefiniteClause) : Decidable d.EqualityFree :=
  inferInstanceAs (Decidable (∀ l ∈ d.clause.literals, l.atom.symbol ≠ .equality))

namespace EqualityFree

variable {d e : DefiniteClause}

theorem head (h : d.EqualityFree) : d.head.symbol ≠ .equality :=
  h ⟨true, d.head⟩ (mem_literals.mpr rfl)

theorem body (h : d.EqualityFree) : ∀ a ∈ d.body, a.symbol ≠ .equality :=
  fun a ha => h ⟨false, a⟩ (mem_body.mp ha)

theorem renameApart (h : d.EqualityFree) (s : Names) : (d.renameApart s).1.EqualityFree := by
  intro l hl
  obtain ⟨k, hk, rfl⟩ := (d.clause.isImage_subst _).into l hl
  rw [Literal.atom_subst, Atom.symbol_subst]
  exact h k hk

theorem ofAtom {a : Atom} (ha : a.symbol ≠ .equality) : (ofAtom a).EqualityFree := by
  intro l hl
  obtain rfl : l = ⟨true, a⟩ := List.mem_singleton.mp hl
  exact ha

/-- Without equations, equal clauses have the same literals. -/
theorem mem_literals_iff (h : d.EqualityFree) (hde : (d == e) = true) {l : Literal} :
    l ∈ e.clause.literals ↔ l ∈ d.clause.literals := by
  have heq : ∀ k ∈ d.clause.literals, ∀ m, (k == m) = true → k = m := by
    rintro ⟨p, a⟩ hk ⟨q, b⟩ hkm
    obtain ⟨hab, hpq⟩ := Literal.beq_iff.mp hkm
    obtain rfl : a = b := Atom.eq_of_beq (h _ hk) hab
    obtain rfl : p = q := hpq
    rfl
  obtain ⟨hinto, honto⟩ := Clause.beq_iff.mp hde
  constructor
  · intro hl
    obtain ⟨k, hk, hlk⟩ := honto l hl
    rwa [← heq k hk l (BEq.symm hlk)]
  · intro hl
    obtain ⟨m, hm, hlm⟩ := hinto l hl
    rwa [heq l hl m hlm]

theorem head_eq (h : d.EqualityFree) (hde : (d == e) = true) : e.head = d.head :=
  mem_literals.mp ((h.mem_literals_iff hde).mp (mem_literals.mpr rfl))

theorem mem_body_iff (h : d.EqualityFree) (hde : (d == e) = true) {a : Atom} :
    a ∈ e.body ↔ a ∈ d.body := by
  rw [mem_body, mem_body, h.mem_literals_iff hde]

end EqualityFree

end DefiniteClause

/-! ## Section 3: Lifting -/

/-- The name was handed out between two serials. -/
def Ident.Between (n m : Nat) (x : Ident) : Prop :=
  ¬ x.Below n ∧ x.Below m

theorem Ident.Between.mono {n n' m m' : Nat} {x : Ident} (h : x.Between n m) (hn : n' ≤ n)
    (hm : m ≤ m') : x.Between n' m' :=
  ⟨fun hx => h.1 (hx.mono hn), h.2.mono hm⟩

namespace ClauseStore

variable {t : ClauseStore} {s : Names}

/-- A clause whose head has an instance in common with an atom is applied to it.  The common
    instance is one of the application, and under it the body of the copy is that of the clause. -/
theorem exists_application (ht : t.Keyed) {d : DefiniteClause} (hd : d ∈ t.toList)
    (hfree : d.EqualityFree) {a : Atom} (ha : a.symbol ≠ .equality)
    (hvars : ∀ x ∈ a.vars, x.Below s.next) {σ : Substitution} (hσ : σ.Acyclic)
    (hover : σ.Over (Ident.Below s.next)) {θ ρ : Ident → Term} (hθ : σ.Solves θ)
    (hρ : d.head.subst ρ = a.subst θ) :
    ∃ f ∈ (t.applications s a σ).1, f.unifier.Acyclic ∧
      f.unifier.Over (Ident.Below (t.applications s a σ).2.next) ∧
      ∃ υ, (∀ y, y.Below s.next → υ y = θ y) ∧ f.unifier.Solves υ ∧
        ∀ b ∈ f.clause.body, ∃ c ∈ d.body, b.subst υ = c.subst ρ := by
  have hsymbol : d.head.symbol = a.symbol := by simpa using congrArg Atom.symbol hρ
  obtain ⟨s', hle, hle', happ⟩ := exists_mem_applications ht hd hsymbol s σ
  -- the copy takes the instance, beside the values of the older variables
  obtain ⟨υ, hold, hhead, hbody, -⟩ := d.exists_instance_of_copy s' θ ρ
  have hold : ∀ y, y.Below s.next → υ y = θ y := fun y hy => hold y (hy.mono hle)
  have hgoal : a.subst υ = a.subst θ := Atom.subst_congr fun x hx => hold x (hvars x hx)
  obtain ⟨τ, hτ, hacyclic, hsolves⟩ := Atom.exists_unify hσ
    (Atom.proper_of_symbol_ne (hfree.renameApart s').head) (Atom.proper_of_symbol_ne ha)
    (hover.solves_congr hold hθ) (hhead.trans (hρ.trans hgoal.symm))
  have hlater : ∀ x : Ident, x.Below s.next → x.Below (t.applications s a σ).2.next :=
    fun x hx => hx.mono (t.next_le_next_applications s a σ)
  have hcopy : ∀ x ∈ (d.renameApart s').1.head.vars, x.Below (t.applications s a σ).2.next :=
    fun x hx => (DefiniteClause.mem_vars_renameApart (DefiniteClause.vars_head_subset hx)).2.mono hle'
  have hover' := Atom.over_of_unify hσ (hover.mono hlater) hcopy
    (fun x hx => hlater x (hvars x hx)) hτ
  exact ⟨_, happ τ hτ, hacyclic, hover'.2, υ, hold, hsolves, hbody⟩

/-- The same for facts, whose copies are facts. -/
theorem exists_factApplication (ht : t.Keyed) (hfree : ∀ d ∈ t.toList, d.EqualityFree) {a : Atom}
    (ha : a.symbol ≠ .equality) (hvars : ∀ x ∈ a.vars, x.Below s.next) {σ : Substitution}
    (hσ : σ.Acyclic) (hover : σ.Over (Ident.Below s.next)) {θ : Ident → Term} (hθ : σ.Solves θ)
    (hcovers : Covers t.facts (a.subst θ)) :
    ∃ f ∈ (t.applications s a σ).1, f.clause.isFact = true ∧ f.unifier.Acyclic ∧
      f.unifier.Over (Ident.Below (t.applications s a σ).2.next) ∧
      ∃ υ, (∀ y, y.Below s.next → υ y = θ y) ∧ f.unifier.Solves υ := by
  obtain ⟨g, hg, ρ, hρ⟩ := hcovers
  obtain ⟨d, hd, hfact, rfl⟩ := mem_facts.mp hg
  obtain ⟨f, hf, hacyclic, hover', υ, hold, hsolves, hbody⟩ :=
    exists_application ht hd (hfree d hd) ha hvars hσ hover hθ hρ
  refine ⟨f, hf, ?_, hacyclic, hover', υ, hold, hsolves⟩
  refine List.isEmpty_iff.mpr (List.eq_nil_iff_forall_not_mem.mpr fun b hb => ?_)
  obtain ⟨c, hc, -⟩ := hbody b hb
  simp [List.isEmpty_iff.mp hfact] at hc

/-- A body with instances among those of the facts is matched, and its instance is one of what is
    found. -/
theorem exists_mem_matchBody (ht : t.Keyed) (hfree : ∀ d ∈ t.toList, d.EqualityFree)
    {as : List Atom} (has : ∀ a ∈ as, a.symbol ≠ .equality ∧ ∀ x ∈ a.vars, x.Below s.next)
    {i : Inference} (hi : i.unifier.Acyclic) (hover : i.unifier.Over (Ident.Below s.next))
    {θ : Ident → Term} (hθ : i.unifier.Solves θ)
    (hcovers : ∀ a ∈ as, Covers t.facts (a.subst θ)) :
    ∃ j ∈ (t.matchBody as s i).1, j.rule = i.rule ∧ j.unifier.Acyclic ∧
      ∃ υ, (∀ y, y.Below s.next → υ y = θ y) ∧ j.unifier.Solves υ := by
  induction as generalizing s i θ with
  | nil => exact ⟨i, List.mem_singleton.mpr rfl, rfl, hi, θ, fun _ _ => rfl, hθ⟩
  | cons a as ih =>
    obtain ⟨⟨ha, hvars⟩, has⟩ := List.forall_mem_cons.mp has
    obtain ⟨hcover, hcovers⟩ := List.forall_mem_cons.mp hcovers
    obtain ⟨f, hf, hfact, hacyclic, hover', υ, hold, hsolves⟩ :=
      exists_factApplication ht hfree ha hvars hi hover hθ hcover
    -- the rest of the body is matched under a later supply and keeps its instance
    obtain ⟨s', hle, hmem⟩ := exists_mem_matchBody_cons as i hf hfact
    have hlater : ∀ x : Ident, x.Below s.next → x.Below s'.next :=
      fun x hx => hx.mono (Nat.le_trans (t.next_le_next_applications s a i.unifier) hle)
    have hrest : ∀ b ∈ as, Covers t.facts (b.subst υ) := by
      intro b hb
      rw [Atom.subst_congr fun x hx => hold x ((has b hb).2 x hx)]
      exact hcovers b hb
    obtain ⟨j, hj, hrule, hj', υ', hold', hsolves'⟩ := ih
      (i := ⟨i.rule, i.known ++ [f.clause.head], f.unifier⟩)
      (fun b hb => ⟨(has b hb).1, fun x hx => hlater x ((has b hb).2 x hx)⟩) hacyclic
      (hover'.mono fun x hx => hx.mono hle) hsolves hrest
    exact ⟨j, hmem j hj, hrule, hj', υ', fun y hy => (hold' y (hlater y hy)).trans (hold y hy),
      hsolves'⟩

/-- The lifting lemma: what a rule infers from instances of facts is an instance of what it infers
    from the facts. -/
theorem exists_mem_inferences (ht : t.Keyed) (hfree : ∀ d ∈ t.toList, d.EqualityFree)
    {r : DefiniteClause} (hr : r.EqualityFree) (hvars : r.clause.Below s.next)
    {θ : Ident → Term} (hcovers : ∀ b ∈ r.body, Covers t.facts (b.subst θ)) :
    ∃ j ∈ (t.inferences s r).1, ∃ υ, j.conclusion.subst υ = r.head.subst θ := by
  obtain ⟨j, hj, hrule, hacyclic, υ, hold, hsolves⟩ := exists_mem_matchBody ht hfree
    (fun b hb => ⟨hr.body b hb, fun x hx => hvars x (DefiniteClause.vars_body_subset hb hx)⟩)
    (i := { rule := r }) Substitution.acyclic_empty (Substitution.over_empty _)
    (Substitution.solves_empty θ) hcovers
  refine ⟨j, hj, υ, ?_⟩
  calc j.conclusion.subst υ = j.rule.head.subst υ := by
        unfold Inference.conclusion Substitution.applyAtom
        rw [Atom.subst_subst, funext (hsolves.subst_value hacyclic)]
    _ = r.head.subst υ := by rw [hrule]
    _ = r.head.subst θ := Atom.subst_congr fun x hx =>
        hold x (hvars x (DefiniteClause.vars_head_subset hx))

/-- The variables of a match are those of the rule and of copies of facts. -/
theorem over_of_mem_matchBody {n : Nat} (hn : n ≤ s.next) {as : List Atom}
    (has : ∀ a ∈ as, ∀ x ∈ a.vars, x.Between n s.next) {i j : Inference}
    (hi : i.unifier.Acyclic) (hover : i.unifier.Over (Ident.Between n s.next))
    (h : j ∈ (t.matchBody as s i).1) : j.rule = i.rule ∧ j.unifier.Acyclic ∧
      j.unifier.Over (Ident.Between n (t.matchBody as s i).2.next) := by
  induction as generalizing s i with
  | nil =>
    obtain rfl : j = i := List.mem_singleton.mp h
    exact ⟨rfl, hi, hover⟩
  | cons a as ih =>
    obtain ⟨ha, has⟩ := List.forall_mem_cons.mp has
    obtain ⟨f, hf, -, s₂, hle₂, hle₂', hj⟩ := of_mem_matchBody_cons h
    obtain ⟨d, -, s₁, hle, hle', hclause, hunify⟩ := of_mem_applications hf
    have hle₁ : s.next ≤ s₂.next :=
      Nat.le_trans (t.next_le_next_applications s a i.unifier) hle₂
    have hlater : ∀ x : Ident, x.Between n s.next → x.Between n s₂.next :=
      fun x hx => hx.mono (Nat.le_refl n) hle₁
    have hhead : ∀ x ∈ f.clause.head.vars, x.Between n s₂.next := by
      -- the variables of the copy are younger than the supply
      intro x hx
      have hx := DefiniteClause.vars_head_subset hx
      rw [hclause] at hx
      exact Ident.Between.mono (DefiniteClause.mem_vars_renameApart hx) (Nat.le_trans hn hle)
        (Nat.le_trans hle' hle₂)
    obtain ⟨hacyclic, hover₂⟩ := Atom.over_of_unify hi (hover.mono hlater) hhead
      (fun x hx => hlater x (ha x hx)) hunify
    obtain ⟨hrule, hj', hover'⟩ := ih (Nat.le_trans hn hle₁)
      (fun b hb x hx => hlater x (has b hb x hx)) hacyclic hover₂ hj
    exact ⟨hrule, hj', hover'.mono fun x hx => hx.mono (Nat.le_refl n) hle₂'⟩

/-- A conclusion has the symbol of the rule's head, and its variables are as young as the rule's. -/
theorem of_mem_inferences {n : Nat} (hn : n ≤ s.next) {r : DefiniteClause}
    (hr : ∀ x ∈ r.clause.vars, x.Between n s.next) {j : Inference}
    (h : j ∈ (t.inferences s r).1) : j.conclusion.symbol = r.head.symbol ∧
      ∀ x ∈ j.conclusion.vars, x.Between n (t.inferences s r).2.next := by
  obtain ⟨hrule, hacyclic, hover⟩ := over_of_mem_matchBody hn
    (fun a ha x hx => hr x (DefiniteClause.vars_body_subset ha hx)) Substitution.acyclic_empty
    (Substitution.over_empty _) h
  unfold Inference.conclusion Substitution.applyAtom
  rw [hrule]
  refine ⟨Atom.symbol_subst _ _, fun x hx => ?_⟩
  obtain ⟨y, hy, hx⟩ := Atom.mem_vars_subst.mp hx
  refine hover.value hacyclic ?_ x hx
  exact (hr y (DefiniteClause.vars_head_subset hy)).mono (Nat.le_refl n)
    (t.next_le_next_matchBody r.body s { rule := r })

end ClauseStore

/-! ## Section 4: What may still be missing -/

namespace ClauseStore

variable {t : ClauseStore} {new : List Atom} {left : List DefiniteClause}

/-- What the rules infer from the facts is there. -/
def Closed (t : ClauseStore) : Prop :=
  ∀ a, Infers t.facts t.rules a → Covers t.facts a

/-- What the rules infer from facts that are not new is there. -/
def ClosedBut (t : ClauseStore) (new : List Atom) : Prop :=
  ∃ old, (∀ a, Covers t.facts a → Covers old a ∨ Covers new a) ∧
    ∀ a, Infers old t.rules a → Covers t.facts a

/-- What the rules infer from the facts is there, or new, or inferred by the rules that are left. -/
def Pending (t : ClauseStore) (left : List DefiniteClause) (new : List Atom) : Prop :=
  ∀ a, Infers t.facts t.rules a → Covers t.facts a ∨ Covers new a ∨ Infers t.facts left a

private theorem ClosedBut.closed (h : t.ClosedBut []) : t.Closed := by
  obtain ⟨old, hcovers, hold⟩ := h
  intro a ha
  refine hold a (ha.mono fun b hb => ?_)
  exact (hcovers b hb).resolve_right (not_covers_nil b)

/-- At the beginning all facts are new: without them, no rule infers anything. -/
theorem closedBut_facts (t : ClauseStore) : t.ClosedBut t.facts := by
  refine ⟨[], fun a ha => Or.inr ha, ?_⟩
  rintro a ⟨d, hd, θ, hbody, -⟩
  have hnonempty : d.body ≠ [] := by
    simpa [DefiniteClause.isFact] using (mem_rules.mp hd).2
  obtain ⟨b, hb⟩ := List.exists_mem_of_ne_nil _ hnonempty
  exact absurd (hbody b hb) (not_covers_nil _)

/-- Rules that have nothing to do with the new facts have nothing to add. -/
theorem ClosedBut.pending (h : t.ClosedBut new) (hfree : ∀ d ∈ t.toList, d.EqualityFree)
    {s : Names} (hnew : ∀ f ∈ new, f.symbol ≠ .equality ∧ ∀ x ∈ f.vars, x.Below s.next) :
    t.Pending (relevantRules new s t.rules).1 [] := by
  obtain ⟨old, hcovers, hold⟩ := h
  rintro a ⟨d, hd, θ, hbody, rfl⟩
  have hdfree := hfree d (mem_rules.mp hd).1
  by_cases hmet : ∃ b ∈ d.body, Covers new (b.subst θ)
  · -- a copy of the rule is tried, and it infers the same
    obtain ⟨b, hb, f, hf, ρ, hρ⟩ := hmet
    obtain ⟨s', hle, hrelevant⟩ := exists_mem_relevantRules new s hd
    obtain ⟨υ, hyounger, hhead, hfrom, honto⟩ := d.exists_instance_of_copy s' ρ θ
    obtain ⟨c, hc, hbc⟩ := honto b hb
    have hcopy := hdfree.renameApart s'
    have hbc : b.subst θ = c.subst υ :=
      Atom.eq_of_beq (by rw [Atom.symbol_subst]; exact hdfree.body b hb) hbc
    have hcf : c.subst υ = f.subst υ := by
      rw [← hbc, ← hρ]
      exact Atom.subst_congr fun x hx => (hyounger x (((hnew f hf).2 x hx).mono hle)).symm
    obtain ⟨τ, hτ, -⟩ := Atom.exists_unify Substitution.acyclic_empty
      (Atom.proper_of_symbol_ne (hcopy.body c hc)) (Atom.proper_of_symbol_ne (hnew f hf).1)
      (Substitution.solves_empty υ) hcf
    refine Or.inr (Or.inr ⟨_, hrelevant c hc f hf (by simp [hτ]), υ, fun c' hc' => ?_, hhead⟩)
    obtain ⟨b', hb', heq⟩ := hfrom c' hc'
    rw [heq]
    exact hbody b' hb'
  · -- the rule was applied to the same instances before
    refine Or.inl (hold _ ⟨d, hd, θ, fun b hb => ?_, rfl⟩)
    exact (hcovers _ (hbody b hb)).resolve_right fun hb' => hmet ⟨b, hb, hb'⟩

theorem Pending.of_cons {r : DefiniteClause} (h : t.Pending (r :: left) new) {new' : List Atom}
    (hnew : ∀ f ∈ new, f ∈ new')
    (hr : ∀ a, Infers t.facts [r] a → Covers t.facts a ∨ Covers new' a) : t.Pending left new' := by
  intro a ha
  rcases h a ha with ha | ha | ⟨d, hd, hrest⟩
  · exact Or.inl ha
  · exact Or.inr (Or.inl (ha.mono hnew))
  · rcases List.mem_cons.mp hd with rfl | hd
    · exact (hr a ⟨d, List.mem_singleton.mpr rfl, hrest⟩).imp id Or.inl
    · exact Or.inr (Or.inr ⟨d, hd, hrest⟩)

/-- The facts after new ones have been stored. -/
theorem covers_facts_addAll (hnew : ∀ f ∈ new, f.symbol ≠ .equality) {a : Atom} :
    Covers (t.addAll (new.map .ofAtom)).facts a ↔ Covers t.facts a ∨ Covers new a := by
  constructor
  · rintro ⟨f, hf, hinst⟩
    obtain ⟨d, hd, hfact, rfl⟩ := mem_facts.mp hf
    rcases mem_addAll hd with hd | hd
    · exact Or.inl ⟨_, mem_facts.mpr ⟨d, hd, hfact, rfl⟩, hinst⟩
    · obtain ⟨g, hg, rfl⟩ := List.mem_map.mp hd
      exact Or.inr ⟨g, hg, hinst⟩
  · rintro (⟨f, hf, hinst⟩ | ⟨f, hf, hinst⟩)
    · obtain ⟨d, hd, hfact, rfl⟩ := mem_facts.mp hf
      exact ⟨_, mem_facts.mpr ⟨d, mem_addAll_of_mem hd, hfact, rfl⟩, hinst⟩
    · -- the fact itself or one that is equal to it
      obtain ⟨d, hd, hbeq⟩ := exists_mem_addAll (t := t) (List.mem_map_of_mem hf)
      have hfree := DefiniteClause.EqualityFree.ofAtom (hnew f hf)
      have hbody : d.body = [] := by
        refine List.eq_nil_iff_forall_not_mem.mpr fun b hb => ?_
        simpa using (hfree.mem_body_iff hbeq).mp hb
      refine ⟨d.head, mem_facts.mpr ⟨d, hd, by simp [DefiniteClause.isFact, hbody], rfl⟩, ?_⟩
      rw [hfree.head_eq hbeq]
      exact hinst

theorem mem_rules_of_addAll {d : DefiniteClause} (h : d ∈ (t.addAll (new.map .ofAtom)).rules) :
    d ∈ t.rules := by
  obtain ⟨hd, hrule⟩ := mem_rules.mp h
  rcases mem_addAll hd with hd | hd
  · exact mem_rules.mpr ⟨hd, hrule⟩
  · obtain ⟨f, -, rfl⟩ := List.mem_map.mp hd
    simp [DefiniteClause.isFact] at hrule

/-- At the end of a round all that is missing takes facts of this round. -/
theorem Pending.addAll (h : t.Pending [] new) (hnew : ∀ f ∈ new, f.symbol ≠ .equality) :
    (t.addAll (new.map .ofAtom)).ClosedBut new := by
  refine ⟨t.facts, fun a => (covers_facts_addAll hnew).mp, ?_⟩
  rintro a ⟨d, hd, hrest⟩
  rw [covers_facts_addAll hnew]
  rcases h a ⟨d, mem_rules_of_addAll hd, hrest⟩ with ha | ha | ⟨e, he, -⟩
  · exact Or.inl ha
  · exact Or.inr ha
  · exact absurd he List.not_mem_nil

private theorem covers_of_states (hfree : ∀ d ∈ t.toList, d.EqualityFree) {a : Atom}
    (h : t.states a = true) : Covers t.facts a := by
  obtain ⟨d, hd, hmatch⟩ := List.any_eq_true.mp h
  rw [Bool.and_eq_true] at hmatch
  have hd := mem_candidates hd
  exact ⟨d.head, mem_facts.mpr ⟨d, hd, hmatch.1, rfl⟩,
    Atom.exists_subst_of_match? (hfree d hd).head hmatch.2⟩

/-- A goal to which no fact can be applied has no instance among those of the facts. -/
theorem not_covers_of_factApplications (ht : t.Keyed) (hfree : ∀ d ∈ t.toList, d.EqualityFree)
    {goal : Atom} (hgoal : goal.symbol ≠ .equality) {s : Names}
    (hvars : ∀ x ∈ goal.vars, x.Below s.next)
    (h : (t.factApplications s goal .empty).1 = []) (θ : Ident → Term) :
    ¬ Covers t.facts (goal.subst θ) := by
  intro hcovers
  obtain ⟨f, hf, hfact, -⟩ := exists_factApplication ht hfree hgoal hvars
    Substitution.acyclic_empty (Substitution.over_empty _) (Substitution.solves_empty θ) hcovers
  have hmem := mem_factApplications.mpr ⟨hf, hfact⟩
  rw [h] at hmem
  exact List.not_mem_nil hmem

end ClauseStore

/-! ## Section 5: A search that does not find the goal -/

/-- Facts that are about to be stored: they have been handed out before the serial `m`, and the goal
    is not among their instances. -/
structure NewFacts (goal : Atom) (m : Nat) (new : List Atom) : Prop where
  free : ∀ f ∈ new, f.symbol ≠ .equality
  below : ∀ f ∈ new, ∀ x ∈ f.vars, x.Below m
  avoids : ∀ θ, ¬ Covers new (goal.subst θ)

/-- What is to be done makes up for what is missing.  Rules are copies that were made since the
    serial `n`. -/
def ForwardTask.Saturating (goal : Atom) (n m : Nat) (t : ClauseStore) : ForwardTask → Prop
  | .initial => False
  | .round new => (∀ f ∈ new, f.symbol ≠ .equality ∧ ∀ x ∈ f.vars, x.Below m) ∧ t.ClosedBut new
  | .rules left new => (∀ d ∈ left, d.EqualityFree ∧ ∀ x ∈ d.clause.vars, x.Between n m) ∧
      NewFacts goal m new ∧ t.Pending left new

namespace ForwardQuery

/-- A search for a goal that has all given clauses in its store, and no instance of the goal. -/
structure Searching (ds : List DefiniteClause) (goal : Atom) (n : Nat) (q : ForwardQuery)
    (s : Names) : Prop where
  asks : q.goal = goal
  supply : n ≤ s.next
  told : ∀ d ∈ ds, ∃ e ∈ q.store.toList, (d == e) = true
  keyed : q.store.Keyed
  free : ∀ d ∈ q.store.toList, d.EqualityFree
  avoids : ∀ θ, ¬ Covers q.store.facts (goal.subst θ)

/-- The invariant of a search that does not find the goal: it goes on as long as something may be
    missing. -/
structure Saturating (ds : List DefiniteClause) (goal : Atom) (n : Nat) (q : ForwardQuery)
    (s : Names) : Prop where
  searching : q.Searching ds goal n s
  answer : q.result = none ∧ q.task.Saturating goal n s.next q.store ∨
    q.result = some false ∧ q.store.Closed

variable {ds : List DefiniteClause} {goal : Atom} {n : Nat} {q : ForwardQuery} {s : Names}
  {new : List Atom} {left : List DefiniteClause}

/-- Only the goal, the store and the age of the supply matter. -/
theorem Searching.later (h : q.Searching ds goal n s) {q' : ForwardQuery} {s' : Names}
    (hgoal : q'.goal = q.goal) (hstore : q'.store = q.store) (hle : s.next ≤ s'.next) :
    q'.Searching ds goal n s' := by
  refine ⟨hgoal.trans h.asks, Nat.le_trans h.supply hle, ?_, ?_, ?_, ?_⟩
  all_goals rw [hstore]
  exacts [h.told, h.keyed, h.free, h.avoids]

theorem Searching.enterRound (h : q.Searching ds goal n s) (hresult : q.result = none)
    (hnew : ∀ f ∈ new, f.symbol ≠ .equality ∧ ∀ x ∈ f.vars, x.Below s.next)
    (hclosed : q.store.ClosedBut new) : (q.enterRound new).Saturating ds goal n s := by
  unfold ForwardQuery.enterRound
  split
  next hempty =>
    obtain rfl : new = [] := List.isEmpty_iff.mp hempty
    exact ⟨h.later rfl rfl (Nat.le_refl _), Or.inr ⟨rfl, hclosed.closed⟩⟩
  next => exact ⟨h.later rfl rfl (Nat.le_refl _), Or.inl ⟨hresult, hnew, hclosed⟩⟩

theorem Searching.addAll (h : q.Searching ds goal n s) {m : Nat} (hnew : NewFacts goal m new) :
    ({ q with store := q.store.addAll (new.map .ofAtom) } : ForwardQuery).Searching ds goal n s where
  asks := h.asks
  supply := h.supply
  told d hd := by
    obtain ⟨e, he, hde⟩ := h.told d hd
    exact ⟨e, ClauseStore.mem_addAll_of_mem he, hde⟩
  keyed := h.keyed.addAll
  free d hd := by
    rcases ClauseStore.mem_addAll hd with hd | hd
    · exact h.free d hd
    · obtain ⟨f, hf, rfl⟩ := List.mem_map.mp hd
      exact .ofAtom (hnew.free f hf)
  avoids θ hcovers := by
    rcases (ClauseStore.covers_facts_addAll hnew.free).mp hcovers with hcovers | hcovers
    · exact h.avoids θ hcovers
    · exact hnew.avoids θ hcovers

private theorem Searching.enterRules (h : q.Searching ds goal n s) (hresult : q.result = none)
    (htask : (ForwardTask.rules left new).Saturating goal n s.next q.store) :
    (q.enterRules left new).Saturating ds goal n s := by
  unfold ForwardQuery.enterRules
  split
  next hempty =>
    -- the end of a round: nothing is missing but what takes its facts
    obtain rfl : left = [] := List.isEmpty_iff.mp hempty
    obtain ⟨-, hnew, hpending⟩ := htask
    exact (h.addAll hnew).enterRound hresult (fun f hf => ⟨hnew.free f hf, hnew.below f hf⟩)
      (hpending.addAll hnew.free)
  next => exact ⟨h.later rfl rfl (Nat.le_refl _), Or.inl ⟨hresult, htask⟩⟩

/-- The first look at the facts finds the goal, or the search begins. -/
theorem saturating_enter (t : ClauseStore) (hgoal : goal.symbol ≠ .equality)
    (hfree : ∀ d ∈ t.toList, d.EqualityFree) (hbelow : ∀ d ∈ t.toList, d.clause.Below s.next)
    (hvars : ∀ x ∈ goal.vars, x.Below s.next) {x : ForwardQuery × Names}
    (hx : ({ start t goal with begun := true } : ForwardQuery).enter s = x) :
    x.1.result = some true ∨ x.1.Saturating t.toList goal s.next x.2 := by
  subst hx
  have hkeyed : (ClauseStore.ofList t.toList).Keyed :=
    ClauseStore.keyed_ofList _
  have hstored : ∀ d ∈ (ClauseStore.ofList t.toList).toList, d.EqualityFree :=
    fun d hd => hfree d (ClauseStore.mem_ofList hd)
  have hle : s.next ≤ ((ClauseStore.ofList t.toList).factApplications s goal .empty).2.next :=
    ClauseStore.next_le_next_applications _ s goal .empty
  unfold enter start
  dsimp only
  split
  next => exact Or.inl rfl
  next hfound =>
    have hsearching : ForwardQuery.Searching t.toList goal s.next
        { goal, store := .ofList t.toList, begun := true } s :=
      ⟨rfl, Nat.le_refl _, fun d hd => ClauseStore.exists_mem_addAll hd, hkeyed, hstored,
        ClauseStore.not_covers_of_factApplications hkeyed hstored hgoal hvars hfound⟩
    refine Or.inr ((hsearching.later rfl rfl hle).enterRound rfl (fun f hf => ?_)
      (ClauseStore.closedBut_facts _))
    obtain ⟨d, hd, -, rfl⟩ := ClauseStore.mem_facts.mp hf
    refine ⟨(hstored d hd).head, fun x hx => ?_⟩
    exact (hbelow d (ClauseStore.mem_ofList hd) x (DefiniteClause.vars_head_subset hx)).mono hle

section Learn

variable {r : DefiniteClause} {new' : List Atom}

/-- Conclusions that do not unify with the goal have no instance in common with it, since their
    variables are younger than the goal's. -/
theorem Searching.newFacts (h : q.Searching ds goal n s) (hgoal : goal.symbol ≠ .equality)
    (hvars : ∀ x ∈ goal.vars, x.Below n) (hr : r.EqualityFree)
    (hyoung : ∀ x ∈ r.clause.vars, x.Between n s.next) (hnew : NewFacts goal s.next new)
    (hfrom : ∀ a ∈ new', a ∈ new ∨ ∃ i ∈ (q.store.inferences s r).1, i.conclusion = a ∧
      q.store.states a = false ∧ a.unify .empty q.goal = none) :
    NewFacts goal (q.store.inferences s r).2.next new' := by
  have hle : s.next ≤ (q.store.inferences s r).2.next :=
    q.store.next_le_next_matchBody r.body s { rule := r }
  refine ⟨fun f hf => ?_, fun f hf => ?_, fun θ hcovers => ?_⟩
  · rcases hfrom f hf with hf | ⟨i, hi, rfl, -⟩
    · exact hnew.free f hf
    · rw [(ClauseStore.of_mem_inferences h.supply hyoung hi).1]
      exact hr.head
  · rcases hfrom f hf with hf | ⟨i, hi, rfl, -⟩
    · exact fun x hx => (hnew.below f hf x hx).mono hle
    · exact fun x hx => ((ClauseStore.of_mem_inferences h.supply hyoung hi).2 x hx).2
  · obtain ⟨f, hf, ρ, hρ⟩ := hcovers
    rcases hfrom f hf with hf | ⟨i, hi, rfl, -, hnone⟩
    · exact hnew.avoids θ ⟨f, hf, ρ, hρ⟩
    · obtain ⟨hsymbol, hyounger⟩ := ClauseStore.of_mem_inferences h.supply hyoung hi
      have hsome := Atom.isSome_unify_of_apart (hsymbol ▸ hr.head) hgoal
        (fun x hx hx' => (hyounger x hx').1 (hvars x hx)) hρ
      rw [h.asks] at hnone
      simp [hnone] at hsome

/-- What the first rule infers is no longer missing once its conclusions have been taken in. -/
theorem Searching.pending (h : q.Searching ds goal n s) (hr : r.EqualityFree)
    (hyoung : ∀ x ∈ r.clause.vars, x.Between n s.next)
    (hpending : q.store.Pending (r :: left) new) (hsub : ∀ a ∈ new, a ∈ new')
    (hfree : ∀ f ∈ new', f.symbol ≠ .equality)
    (hall : ∀ i ∈ (q.store.inferences s r).1, q.store.states i.conclusion = true ∨
      ∃ f ∈ new', f = i.conclusion ∨ (f.match? .empty i.conclusion).isSome = true) :
    q.store.Pending left new' := by
  refine hpending.of_cons hsub fun a ha => ?_
  obtain ⟨d, hd, θ, hbody, rfl⟩ := ha
  obtain rfl : d = r := List.mem_singleton.mp hd
  obtain ⟨i, hi, υ, hυ⟩ := ClauseStore.exists_mem_inferences h.keyed h.free hr
    (fun x hx => (hyoung x hx).2) hbody
  -- the conclusion covers what is inferred, and something covers the conclusion
  rw [← hυ]
  rcases hall i hi with hstated | ⟨f, hf, heq | hmatch⟩
  · exact Or.inl ((ClauseStore.covers_of_states h.free hstated).subst υ)
  · exact Or.inr ⟨f, hf, υ, by rw [heq]⟩
  · have hinst : Covers new' i.conclusion :=
      ⟨f, hf, Atom.exists_subst_of_match? (hfree f hf) hmatch⟩
    exact Or.inr (hinst.subst υ)

end Learn

/-- A step finds the goal or keeps the invariant. -/
theorem Saturating.next (hgoal : goal.symbol ≠ .equality) (hvars : ∀ x ∈ goal.vars, x.Below n)
    (h : q.Saturating ds goal n s) (hopen : q.isComplete = false) {x : ForwardQuery × Names}
    (hx : ForwardQuery.next (q, s) = x) :
    x.1.result = some true ∨ x.1.Saturating ds goal n x.2 := by
  have hresult : q.result = none := by simpa [isComplete] using hopen
  obtain ⟨hsearching, ⟨-, htask⟩ | ⟨hfalse, -⟩⟩ := h
  swap
  · rw [hresult] at hfalse
    cases hfalse
  subst hx
  cases heq : q.task with
  | initial =>
    rw [heq] at htask
    exact htask.elim
  | round new =>
    -- only rules that the new facts are relevant to are tried
    simp only [ForwardQuery.next, heq]
    rw [heq] at htask
    obtain ⟨hnew, hclosed⟩ := htask
    have hlater := hsearching.later rfl rfl (next_le_next_relevantRules new s q.store.rules)
    refine Or.inr (hlater.enterRules hresult
      ⟨fun e he => ?_, ⟨by simp, by simp, fun θ => not_covers_nil _⟩,
        hclosed.pending hsearching.free hnew⟩)
    obtain ⟨d, hd, s', hle, hle', rfl⟩ := of_mem_relevantRules he
    refine ⟨(hsearching.free d (ClauseStore.mem_rules.mp hd).1).renameApart s', fun x hx => ?_⟩
    exact Ident.Between.mono (DefiniteClause.mem_vars_renameApart hx)
      (Nat.le_trans hsearching.supply hle) hle'
  | rules left new =>
    cases left with
    | nil =>
      simp only [ForwardQuery.next, heq]
      exact Or.inr ⟨hsearching, Or.inl ⟨hresult, htask⟩⟩
    | cons r left =>
      rw [heq] at htask
      obtain ⟨hrules, hnew, hpending⟩ := htask
      obtain ⟨⟨hr, hyoung⟩, hleft⟩ := List.forall_mem_cons.mp hrules
      have hle : s.next ≤ (q.store.inferences s r).2.next :=
        q.store.next_le_next_matchBody r.body s { rule := r }
      rcases next_of_rules heq hopen s with htrue | ⟨proof, new', hstep, hsub, hfrom, hall⟩
      · exact Or.inl htrue
      · -- the conclusions of the first rule are covered, and the other rules are left
        have hnew' := hsearching.newFacts hgoal hvars hr hyoung hnew hfrom
        have hpending' := hsearching.pending hr hyoung hpending hsub hnew'.free hall
        have hlater : ({ q with proof } : ForwardQuery).Searching ds goal n
            (q.store.inferences s r).2 := hsearching.later rfl rfl hle
        rw [hstep]
        refine Or.inr (hlater.enterRules hresult ⟨fun d hd => ?_, hnew', hpending'⟩)
        exact ⟨(hleft d hd).1, fun x hx => ((hleft d hd).2 x hx).mono (Nat.le_refl n) hle⟩

end ForwardQuery

/-! ## Section 6: The model of a negative answer -/

/-- In the interpretation by terms whose true atoms are the instances of the facts, a closed store is
    true. -/
theorem ClauseStore.Closed.modelsClause {t : ClauseStore} (h : t.Closed) {d : DefiniteClause}
    (hd : d ∈ t.toList) : (termModel {a | Covers t.facts a}).ModelsClause d.clause := by
  intro v
  refine DefiniteClause.holdsClause_iff.mpr fun hbody => holdsAtom_termModel.mpr ?_
  show Covers t.facts (d.head.subst v)
  cases hfact : d.isFact with
  | true => exact ⟨d.head, mem_facts.mpr ⟨d, hd, hfact, rfl⟩, v, rfl⟩
  | false =>
    refine h _ ⟨d, mem_rules.mpr ⟨hd, hfact⟩, v, fun b hb => ?_, rfl⟩
    exact holdsAtom_termModel.mp (hbody b hb)

/-- Completeness of forward chaining: if a search ends with a negative answer, then there is an
    interpretation in which all clauses are true and no instance of the goal is. -/
theorem forward_chaining_complete (t : ClauseStore) (goal : Atom)
    (hfree : ∀ d ∈ t.toList, d.EqualityFree) (hgoal : goal.symbol ≠ .equality) (s : Names)
    (hbelow : ∀ d ∈ t.toList, d.clause.Below s.next) (hvars : ∀ x ∈ goal.vars, x.Below s.next)
    (n : Nat) (h : ((ForwardQuery.start t goal).execute n s).1 = .ok false) :
    ∃ I : Interpretation Term, I.SymmetricEq ∧ (∀ d ∈ t.toList, I.ModelsClause d.clause) ∧
      ¬ ∃ v, I.HoldsAtom v goal := by
  obtain ⟨x, hx, hresult⟩ := ForwardQuery.of_execute
    (P := fun x => x.1.result = some true ∨ x.1.Saturating t.toList goal s.next x.2) h
    (ForwardQuery.saturating_enter t hgoal hfree hbelow hvars rfl) fun x hopen hx => by
      rcases hx with htrue | hx
      · simp [ForwardQuery.isComplete, htrue] at hopen
      · exact hx.next hgoal hvars hopen rfl
  rw [hresult] at hx
  obtain ⟨hsearching, hanswer⟩ := hx.resolve_left (by simp)
  have hclosed : x.1.store.Closed := by
    rcases hanswer with ⟨hnone, -⟩ | ⟨-, hclosed⟩
    · rw [hresult] at hnone
      cases hnone
    · exact hclosed
  have hsymmetric : (termModel {a | Covers x.1.store.facts a}).SymmetricEq := by
    -- no fact is an equation
    intro l r hlr
    obtain ⟨f, hf, θ, hθ⟩ := hlr
    obtain ⟨d, hd, -, rfl⟩ := ClauseStore.mem_facts.mp hf
    refine absurd ?_ (hsearching.free d hd).head
    calc d.head.symbol = (d.head.subst θ).symbol := (Atom.symbol_subst θ d.head).symm
      _ = .equality := by rw [hθ]; rfl
  refine ⟨_, hsymmetric, fun d hd v => ?_, ?_⟩
  · obtain ⟨e, he, hde⟩ := hsearching.told d hd
    have hed : (e.clause == d.clause) = true := BEq.symm hde
    exact Interpretation.holdsClause_of_beq hsymmetric v hed (hclosed.modelsClause he v)
  · intro hholds
    obtain ⟨v, hv⟩ := hholds
    exact hsearching.avoids v (holdsAtom_termModel.mp hv)

/-- Two links, one of which goes from everywhere to one place, and chains of links. -/
def links : ClauseStore :=
  .ofList [.ofAtom (.pred (.num 0) [.const (.num 1), .const (.num 2)]),
    .ofAtom (.pred (.num 0) [.var (.num 5), .const (.num 3)]),
    ⟨.ofList [⟨false, .pred (.num 0) [.var (.num 5), .var (.num 6)]⟩,
      ⟨true, .pred (.num 4) [.var (.num 5), .var (.num 6)]⟩] .rule, by decide⟩,
    ⟨.ofList [⟨false, .pred (.num 4) [.var (.num 5), .var (.num 6)]⟩,
      ⟨false, .pred (.num 0) [.var (.num 6), .var (.num 7)]⟩,
      ⟨true, .pred (.num 4) [.var (.num 5), .var (.num 7)]⟩] .rule, by decide⟩]

theorem forward_chaining_complete_links :
    ((ForwardQuery.start links (.pred (.num 4) [.var (.num 5), .const (.num 1)])).execute 20 {}).1 =
        .ok false ∧
      ∃ I : Interpretation Term, I.SymmetricEq ∧ (∀ d ∈ links.toList, I.ModelsClause d.clause) ∧
        ¬ ∃ v, I.HoldsAtom v (.pred (.num 4) [.var (.num 5), .const (.num 1)]) := by
  have hresult : ((ForwardQuery.start links
      (.pred (.num 4) [.var (.num 5), .const (.num 1)])).execute 20 {}).1 = .ok false := by
    decide +kernel
  refine ⟨hresult, forward_chaining_complete links _ (by decide) (by decide) {} ?_ (by decide) 20
    hresult⟩
  unfold Clause.Below
  decide

end Clausal
