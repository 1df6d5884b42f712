import Clausal.Proofs.Association
import Clausal.Proofs.Chaining.Completeness
import Clausal.Proofs.Chaining.Grounding
import Clausal.Proofs.Chaining.Termination
import Mathlib.Data.Set.Function

/-!
# The record of forward chaining

Forward chaining records how each fact was inferred first: the rule, and copies of the facts that
its body was matched with.  A fact is recorded only if it is no instance of a fact that is known, so
the record grows at its end, and every entry rests on facts of the store and on earlier entries.

## Main definitions

- `Atom.Generalises`, `Atom.RenamesTo`: one atom is an instance, or a copy, of another
- `Inference.Rests`: an inference from copies of known facts
- `InferenceRecord`: the entries of a record, each of which is new when it is added
- `ForwardQuery.Tracked`: a search with such a record

## Main statements

- `ForwardQuery.exists_learn`: what is taken in is recorded
- `ForwardQuery.Tracked.next`: a step extends the record
- `ForwardQuery.tracked_of_execute`: the record of an answer
-/

namespace Clausal

/-! ## Section 1: Instances and copies -/

namespace Atom

variable {a b c : Atom}

/-- The second atom is an instance of the first, up to the order of the sides of equations. -/
def Generalises (a b : Atom) : Prop :=
  ∃ ρ, (a.subst ρ == b) = true

theorem generalises_of_beq (h : (a == b) = true) : a.Generalises b :=
  ⟨.var, by rwa [subst_var]⟩

theorem Generalises.trans (hab : a.Generalises b) (hbc : b.Generalises c) : a.Generalises c := by
  obtain ⟨ρ, hρ⟩ := hab
  obtain ⟨υ, hυ⟩ := hbc
  refine ⟨fun x => (ρ x).subst υ, ?_⟩
  rw [← subst_subst]
  exact BEq.trans (beq_subst hρ υ) hυ

/-- Matching recognises all instances. -/
theorem Generalises.isSome_match? (h : a.Generalises b) : (a.match? .empty b).isSome = true := by
  obtain ⟨ρ, hρ⟩ := h
  exact Option.isSome_iff_ne_none.mpr
    ((mapsTo_of_beq hρ).match?_ne_none (Substitution.agrees_empty ρ))

/-- The variables of the first atom can be replaced one for one so that it becomes the second. -/
def RenamesTo (a b : Atom) : Prop :=
  ∃ ρ : Ident → Ident, Set.InjOn ρ {x | x ∈ a.vars} ∧ a.subst (fun x => .var (ρ x)) = b

theorem RenamesTo.refl (a : Atom) : a.RenamesTo a :=
  ⟨id, Function.Injective.injOn Function.injective_id, subst_var a⟩

private theorem RenamesTo.generalises (h : a.RenamesTo b) : a.Generalises b := by
  obtain ⟨ρ, -, rfl⟩ := h
  exact ⟨_, BEq.rfl⟩

/-- The variables of a copy can be put back. -/
theorem RenamesTo.generalises_symm (h : a.RenamesTo b) : b.Generalises a := by
  obtain ⟨ρ, hinj, rfl⟩ := h
  have : Nonempty Ident := ⟨.null⟩
  refine ⟨fun y => .var (Function.invFunOn ρ {x | x ∈ a.vars} y), ?_⟩
  have hback : (a.subst fun x => .var (ρ x)).subst
      (fun y => .var (Function.invFunOn ρ {x | x ∈ a.vars} y)) = a.subst .var := by
    rw [subst_subst]
    exact subst_congr fun x hx => congrArg Term.var (hinj.leftInvOn_invFunOn hx)
  rw [hback, subst_var]
  exact BEq.rfl

theorem RenamesTo.symbol_eq (h : a.RenamesTo b) : a.symbol = b.symbol := by
  obtain ⟨ρ, -, rfl⟩ := h
  exact (symbol_subst _ a).symm

/-- A copy without variables is no other atom. -/
theorem RenamesTo.eq_of_vars_eq_nil (h : a.RenamesTo b) (hb : b.vars = []) : a = b := by
  obtain ⟨ρ, -, rfl⟩ := h
  have ha : a.vars = [] := by
    refine List.eq_nil_iff_forall_not_mem.mpr fun x hx => ?_
    have hmem : ρ x ∈ (a.subst fun x => .var (ρ x)).vars :=
      mem_vars_subst.mpr ⟨x, hx, List.mem_singleton.mpr rfl⟩
    rw [hb] at hmem
    exact absurd hmem List.not_mem_nil
  rw [subst_of_vars_eq_nil ha]

end Atom

namespace DefiniteClause

private theorem renamesTo_head (s : Names) (d : DefiniteClause) :
    d.head.RenamesTo (d.renameApart s).1.head := by
  refine ⟨freshVariable s d.clause.vars, fun x hx y _ hxy => ?_, (head_subst _ d).symm⟩
  exact freshVariable_inj (vars_head_subset hx) hxy

private theorem isFact_of_renameApart {s : Names} {d : DefiniteClause}
    (h : (d.renameApart s).1.isFact = true) : d.isFact = true := by
  refine List.isEmpty_iff.mpr (List.eq_nil_iff_forall_not_mem.mpr fun b hb => ?_)
  obtain ⟨a, ha, -⟩ := exists_mem_body_subst (fun x => .var (freshVariable s d.clause.vars x)) hb
  have hnil : (d.renameApart s).1.body = [] := List.isEmpty_iff.mp h
  exact List.not_mem_nil (hnil ▸ ha)

end DefiniteClause

/-! ## Section 2: Matching a body -/

/-- What an atom of a body was matched with: a new copy of a fact that is like the atom under every
    solution. -/
structure ClauseStore.Supplies (t : ClauseStore) (n : Nat) (σ : Substitution) (a k : Atom) :
    Prop where
  copy : ∃ f ∈ t.facts, f.RenamesTo k
  fresh : ∀ x ∈ k.vars, ¬ x.Below n
  alike : ∀ θ, σ.Solves θ → (k.subst θ).Alike (a.subst θ)

namespace ClauseStore

variable {t : ClauseStore} {s : Names}

private theorem Supplies.mono {n m : Nat} {σ τ : Substitution} {a k : Atom} (h : t.Supplies n σ a k)
    (hm : m ≤ n) (hτ : ∀ θ, τ.Solves θ → σ.Solves θ) : t.Supplies m τ a k where
  copy := h.copy
  fresh x hx hbelow := h.fresh x hx (hbelow.mono hm)
  alike θ hθ := h.alike θ (hτ θ hθ)

theorem supplies_of_mem_applications {a : Atom} {σ : Substitution} (hσ : σ.Acyclic)
    {f : Application} (hf : f ∈ (t.applications s a σ).1) (hfact : f.clause.isFact = true) :
    f.unifier.Acyclic ∧ (∀ θ, f.unifier.Solves θ → σ.Solves θ) ∧
      t.Supplies s.next f.unifier a f.clause.head := by
  obtain ⟨d, hd, s', hle, -, hcopy, hunify⟩ := of_mem_applications hf
  obtain ⟨hacyclic, hsolves⟩ := Atom.alike_of_unify hσ hunify
  refine ⟨hacyclic, fun θ hθ => (hsolves θ hθ).1, ?_, fun x hx hbelow => ?_,
    fun θ hθ => (hsolves θ hθ).2⟩
  · rw [hcopy] at hfact ⊢
    exact ⟨d.head, mem_facts.mpr ⟨d, hd, DefiniteClause.isFact_of_renameApart hfact, rfl⟩,
      d.renamesTo_head s'⟩
  · have hx := DefiniteClause.vars_head_subset hx
    rw [hcopy] at hx
    exact (DefiniteClause.mem_vars_renameApart hx).1 (hbelow.mono hle)

/-- Every atom of a body is matched with a copy of a fact, and there are no other copies. -/
theorem exists_supplies_of_mem_matchBody {as : List Atom} {i j : Inference}
    (hi : i.unifier.Acyclic) (h : j ∈ (t.matchBody as s i).1) :
    j.rule = i.rule ∧ j.unifier.Acyclic ∧ (∀ θ, j.unifier.Solves θ → i.unifier.Solves θ) ∧
      ∃ ks, j.known = i.known ++ ks ∧ (∀ a ∈ as, ∃ k ∈ ks, t.Supplies s.next j.unifier a k) ∧
        ∀ k ∈ ks, ∃ a ∈ as, t.Supplies s.next j.unifier a k := by
  induction as generalizing s i with
  | nil =>
    obtain rfl : j = i := List.mem_singleton.mp h
    exact ⟨rfl, hi, fun θ => id, [], (List.append_nil _).symm, by simp, by simp⟩
  | cons a as ih =>
    obtain ⟨f, hf, hfact, s', hle, -, hj⟩ := of_mem_matchBody_cons h
    obtain ⟨hacyclic, hold, hfirst⟩ := supplies_of_mem_applications hi hf hfact
    obtain ⟨hrule, hacyclic', hold', ks, hknown, hatoms, hcopies⟩ := ih hacyclic hj
    have hfirst := hfirst.mono (Nat.le_refl _) hold'
    have hlater := Nat.le_trans (t.next_le_next_applications s a i.unifier) hle
    refine ⟨hrule, hacyclic', fun θ hθ => hold θ (hold' θ hθ), f.clause.head :: ks, ?_,
      List.forall_mem_cons.mpr ⟨⟨_, List.mem_cons_self, hfirst⟩, fun b hb => ?_⟩,
      List.forall_mem_cons.mpr ⟨⟨_, List.mem_cons_self, hfirst⟩, fun k hk => ?_⟩⟩
    · rw [hknown, List.append_assoc, List.singleton_append]
    · obtain ⟨k, hk, hbk⟩ := hatoms b hb
      exact ⟨k, List.mem_cons_of_mem _ hk, hbk.mono hlater fun θ => id⟩
    · obtain ⟨b, hb, hbk⟩ := hcopies k hk
      exact ⟨b, List.mem_cons_of_mem _ hb, hbk.mono hlater fun θ => id⟩

private theorem supplies_of_mem_inferences {r : DefiniteClause} {i : Inference}
    (h : i ∈ (t.inferences s r).1) : i.rule = r ∧ i.unifier.Acyclic ∧
      (∀ a ∈ r.body, ∃ k ∈ i.known, t.Supplies s.next i.unifier a k) ∧
      ∀ k ∈ i.known, ∃ a ∈ r.body, t.Supplies s.next i.unifier a k := by
  obtain ⟨hrule, hacyclic, -, ks, hknown, hsupplies⟩ :=
    exists_supplies_of_mem_matchBody Substitution.acyclic_empty h
  obtain rfl : i.known = ks := hknown
  exact ⟨hrule, hacyclic, hsupplies⟩

end ClauseStore

/-! ## Section 3: Records -/

/-- An inference from copies of given facts and of facts inferred before.  A copy of a fact with
    variables is never that fact itself.  If the clauses are range restricted, then nothing with
    variables is inferred from what has none. -/
structure Inference.Rests (t : ClauseStore) (before : List Atom) (i : Inference) : Prop where
  known : ∀ k ∈ i.known, (∃ f ∈ t.facts, f.RenamesTo k) ∨
    ∃ a ∈ before, a.RenamesTo k ∧ ((a == k) = true → k.vars = [])
  ground : (∀ c ∈ t.toList, c.RangeRestricted) → (∀ k ∈ i.known, k.vars = []) →
    i.conclusion.vars = []

/-- Records of inferences from the clauses of a store.  What is recorded is no instance of a given
    fact or of one recorded before. -/
inductive InferenceRecord (t : ClauseStore) : List (Atom × Inference) → Prop
  | nil : InferenceRecord t []
  | concat {l : List (Atom × Inference)} {i : Inference} (h : InferenceRecord t l)
      (rests : i.Rests t (l.map Prod.fst))
      (new : ∀ g ∈ t.facts ++ l.map Prod.fst, ¬ g.Generalises i.conclusion) :
      InferenceRecord t (l ++ [(i.conclusion, i)])

private theorem Inference.Rests.mono {t : ClauseStore} {before before' : List Atom} {i : Inference}
    (h : i.Rests t before) (hsub : before ⊆ before') : i.Rests t before' where
  known k hk := (h.known k hk).imp_right fun ⟨a, ha, hcopy⟩ => ⟨a, hsub ha, hcopy⟩
  ground := h.ground

namespace InferenceRecord

variable {t : ClauseStore} {l l₁ l₂ : List (Atom × Inference)} {e : Atom × Inference} {a b k : Atom}

/-- What an entry is, wherever it stands. -/
theorem of_eq_append (h : InferenceRecord t l) (hsplit : l = l₁ ++ e :: l₂) :
    e.2.conclusion = e.1 ∧ e.2.Rests t (l₁.map Prod.fst) ∧
      ∀ g ∈ t.facts ++ l₁.map Prod.fst, ¬ g.Generalises e.1 := by
  induction h generalizing l₂ with
  | nil => simp at hsplit
  | @concat l i h rests new ih =>
    rcases List.eq_nil_or_concat l₂ with rfl | ⟨l₂, e', rfl⟩
    · obtain ⟨rfl, he⟩ := List.append_inj' hsplit rfl
      obtain rfl := (List.cons.inj he).1
      exact ⟨rfl, rests, new⟩
    · rw [List.concat_eq_append, ← List.cons_append, ← List.append_assoc] at hsplit
      exact ih (List.append_inj' hsplit rfl).1

theorem pairwise_not_generalises (h : InferenceRecord t l) :
    (l.map Prod.fst).Pairwise fun a b => ¬ a.Generalises b := by
  induction h with
  | nil => exact .nil
  | concat h rests new ih =>
    rw [List.map_append]
    refine List.pairwise_append.mpr ⟨ih, List.pairwise_singleton _ _, fun a ha b hb => ?_⟩
    rw [List.mem_singleton.mp hb]
    exact new a (List.mem_append_right _ ha)

theorem distinct (h : InferenceRecord t l) : Distinct (l.map Prod.fst) :=
  h.pairwise_not_generalises.imp fun hab =>
    Bool.eq_false_iff.mpr fun hbeq => hab (Atom.generalises_of_beq hbeq)

/-- Recorded facts that are instances of each other are the same. -/
theorem eq_of_generalises (h : InferenceRecord t l) (ha : a ∈ l.map Prod.fst)
    (hb : b ∈ l.map Prod.fst) (hab : a.Generalises b) (hba : b.Generalises a) : a = b := by
  have hpairwise := h.pairwise_not_generalises
  obtain ⟨m₁, m₂, hsplit⟩ := List.append_of_mem ha
  rw [hsplit] at hpairwise hb
  obtain ⟨-, hafter, hbefore⟩ := List.pairwise_append.mp hpairwise
  rcases List.mem_append.mp hb with hb | hb
  · exact absurd hba (hbefore b hb a List.mem_cons_self)
  · rcases List.mem_cons.mp hb with rfl | hb
    · rfl
    · exact absurd hab ((List.pairwise_cons.mp hafter).1 b hb)

theorem not_generalises_of_mem (h : InferenceRecord t l) (ha : a ∈ l.map Prod.fst) {f : Atom}
    (hf : f ∈ t.facts) : ¬ f.Generalises a := by
  obtain ⟨e, he, rfl⟩ := List.mem_map.mp ha
  obtain ⟨l₁, l₂, hsplit⟩ := List.append_of_mem he
  exact (h.of_eq_append hsplit).2.2 f (List.mem_append_left _ hf)

/-- What a recorded inference rests on is recorded as it stands only if it has no variables; then it
    is recorded earlier, and it is no copy of a given fact. -/
theorem mem_of_beq_known (h : InferenceRecord t l) (hsplit : l = l₁ ++ e :: l₂) (hk : k ∈ e.2.known)
    (ha : a ∈ l.map Prod.fst) (hbeq : (a == k) = true) :
    k.vars = [] ∧ k ∈ l₁.map Prod.fst ∧ ∀ f ∈ t.facts, ¬ f.RenamesTo k := by
  have hgiven : ∀ f ∈ t.facts, ¬ f.RenamesTo k := fun f hf hcopy =>
    h.not_generalises_of_mem ha hf
      (hcopy.generalises.trans (Atom.generalises_of_beq (BEq.symm hbeq)))
  rcases (h.of_eq_append hsplit).2.1.known k hk with ⟨f, hf, hcopy⟩ | ⟨b, hb, hcopy, hground⟩
  · exact absurd hcopy (hgiven f hf)
  · -- the fact that the copy was made of and the recorded one are instances of each other
    have hbl : b ∈ l.map Prod.fst := by
      rw [hsplit, List.map_append]
      exact List.mem_append_left _ hb
    obtain rfl : b = a := h.eq_of_generalises hbl ha
      (hcopy.generalises.trans (Atom.generalises_of_beq (BEq.symm hbeq)))
      ((Atom.generalises_of_beq hbeq).trans hcopy.generalises_symm)
    have hvars := hground hbeq
    exact ⟨hvars, hcopy.eq_of_vars_eq_nil hvars ▸ hb, hgiven⟩

/-- If the clauses are range restricted, then no recorded fact has variables. -/
theorem vars_eq_nil (h : InferenceRecord t l) (ht : ∀ c ∈ t.toList, c.RangeRestricted) :
    ∀ a ∈ l.map Prod.fst, a.vars = [] := by
  have hfacts : ∀ f ∈ t.facts, f.vars = [] := by
    intro f hf
    obtain ⟨d, hd, hfact, rfl⟩ := ClauseStore.mem_facts.mp hf
    refine List.eq_nil_iff_forall_not_mem.mpr fun x hx => ?_
    obtain ⟨b, hb, -⟩ := ht d hd x hx
    rw [show d.body = [] from List.isEmpty_iff.mp hfact] at hb
    exact absurd hb List.not_mem_nil
  induction h with
  | nil => simp
  | concat h rests new ih =>
    rw [List.map_append]
    refine List.forall_mem_append.mpr ⟨ih, List.forall_mem_singleton.mpr ?_⟩
    refine rests.ground ht fun k hk => ?_
    obtain ⟨g, hg, ρ, -, rfl⟩ : ∃ g : Atom, g.vars = [] ∧ g.RenamesTo k := by
      rcases rests.known k hk with ⟨f, hf, hcopy⟩ | ⟨b, hb, hcopy, -⟩
      · exact ⟨f, hfacts f hf, hcopy⟩
      · exact ⟨b, ih b hb, hcopy⟩
    rwa [Atom.subst_of_vars_eq_nil hg]

end InferenceRecord

/-! ## Section 4: Searches with a record -/

/-- The rules that are left in a round. -/
def ForwardTask.left : ForwardTask → List DefiniteClause
  | .rules left _ => left
  | _ => []

/-- The facts that were inferred in a round and are not stored yet. -/
def ForwardTask.unstored : ForwardTask → List Atom
  | .rules _ new => new
  | _ => []

namespace ForwardQuery

/-- The facts that were inferred, in order. -/
def keys (q : ForwardQuery) : List Atom :=
  q.proof.map Prod.fst

/-- Facts that are stored or new generalise a conclusion only if it is recognised as known. -/
theorem not_generalises_of_unknown {u : ClauseStore} (hkeyed : u.Keyed) {gs new : List Atom}
    (hknown : ∀ g ∈ gs, (∃ f ∈ u.facts, (f == g) = true) ∨ g ∈ new) {a : Atom}
    (hunknown : ¬ (u.states a || new.any fun f => (f.match? .empty a).isSome) = true) :
    ∀ g ∈ gs, ¬ g.Generalises a := by
  rw [Bool.or_eq_true, not_or] at hunknown
  intro g hg hgen
  rcases hknown g hg with ⟨f, hf, hbeq⟩ | hg
  · obtain ⟨ρ, hρ⟩ := (Atom.generalises_of_beq hbeq).trans hgen
    exact hunknown.1 (hkeyed.states_of_mapsTo hf (Atom.mapsTo_of_beq hρ))
  · exact hunknown.2 (List.any_eq_true.mpr ⟨g, hg, hgen.isSome_match?⟩)

/-- What is taken in is recorded.  `new` has the recorded facts that are not stored yet. -/
theorem exists_learn {t : ClauseStore} {q : ForwardQuery} {new : List Atom} {is : List Inference}
    (hkeyed : q.store.Keyed) (hrecord : InferenceRecord t q.proof)
    (hknown : ∀ g ∈ t.facts ++ q.keys, (∃ f ∈ q.store.facts, (f == g) = true) ∨ g ∈ new)
    (his : ∀ i ∈ is, i.Rests t q.keys) :
    ∃ more, InferenceRecord t (q.proof ++ more) ∧ (∀ e ∈ more, ∃ i ∈ is, i.conclusion = e.1) ∧
      ((∃ a ∈ more.map Prod.fst, (q.learn new is).2 =
          ({ q with proof := q.proof ++ more } : ForwardQuery).succeed a) ∨
        q.learn new is = (new ++ more.map Prod.fst, { q with proof := q.proof ++ more })) := by
  induction is generalizing new q with
  | nil => exact ⟨[], by simpa using hrecord, by simp, Or.inr (by simp [learn])⟩
  | cons i is ih =>
    obtain ⟨hi, his⟩ := List.forall_mem_cons.mp his
    unfold learn
    dsimp only
    split
    next =>
      obtain ⟨more, hmore, hfrom, hlearn⟩ := ih hkeyed hrecord hknown his
      refine ⟨more, hmore, fun e he => ?_, hlearn⟩
      obtain ⟨j, hj, hje⟩ := hfrom e he
      exact ⟨j, List.mem_cons_of_mem _ hj, hje⟩
    next hunknown =>
      -- the conclusion is no instance of what is known, so it goes to the end of the record
      have hnew := not_generalises_of_unknown hkeyed hknown hunknown
      have hinsert : insertKey i.conclusion i q.proof = q.proof ++ [(i.conclusion, i)] := by
        refine insertKey_of_new fun k hk => Bool.eq_false_iff.mpr fun hbeq => ?_
        exact hnew k (List.mem_append_right _ hk) (Atom.generalises_of_beq hbeq)
      have hrecord' := hrecord.concat hi hnew
      rw [hinsert]
      split
      next =>
        exact ⟨[(i.conclusion, i)], hrecord',
          List.forall_mem_singleton.mpr ⟨i, List.mem_cons_self, rfl⟩,
          Or.inl ⟨i.conclusion, by simp, rfl⟩⟩
      next =>
        let q' : ForwardQuery := { q with proof := q.proof ++ [(i.conclusion, i)] }
        have hkeys : q'.keys = q.keys ++ [i.conclusion] := List.map_append
        have hknown' : ∀ g ∈ t.facts ++ q'.keys,
            (∃ f ∈ q.store.facts, (f == g) = true) ∨ g ∈ new ++ [i.conclusion] := by
          rw [hkeys, ← List.append_assoc]
          refine List.forall_mem_append.mpr ⟨fun g hg => ?_, List.forall_mem_singleton.mpr ?_⟩
          · exact (hknown g hg).imp_right (List.mem_append_left _)
          · exact Or.inr (by simp)
        obtain ⟨more, hmore, hfrom, hlearn⟩ := ih (q := q') hkeyed hrecord' hknown'
          fun j hj => (his j hj).mono (hkeys ▸ List.subset_append_left _ _)
        have hproof : q'.proof ++ more = q.proof ++ (i.conclusion, i) :: more := by
          simp [q']
        rw [hproof] at hmore hlearn
        refine ⟨(i.conclusion, i) :: more, hmore, List.forall_mem_cons.mpr
          ⟨⟨i, List.mem_cons_self, rfl⟩, fun e he => ?_⟩, ?_⟩
        · obtain ⟨j, hj, hje⟩ := hfrom e he
          exact ⟨j, List.mem_cons_of_mem _ hj, hje⟩
        · rcases hlearn with ⟨a, ha, hlearn⟩ | hlearn
          · exact Or.inl ⟨a, List.mem_cons_of_mem _ ha, hlearn⟩
          · right
            rw [hlearn, List.map_cons, List.append_assoc, List.singleton_append]

/-- A store of given clauses and recorded facts; names are supplied that the record does not use. -/
structure Kept (t u : ClauseStore) (l : List (Atom × Inference)) (s : Names) : Prop where
  keyed : u.Keyed
  stored : ∀ d ∈ u.toList, d ∈ t.toList ∨ ∃ a ∈ l.map Prod.fst, d = .ofAtom a
  record : InferenceRecord t l
  below : ∀ a ∈ l.map Prod.fst, ∀ x ∈ a.vars, x.Below s.next

/-- The rules that are left in a round are copies of given ones, and all given and recorded facts
    are stored or new. -/
structure Pending (t u : ClauseStore) (l : List (Atom × Inference)) (s : Names)
    (left : List DefiniteClause) (new : List Atom) : Prop where
  rules : ∀ r ∈ left, ∃ c ∈ t.toList, ∃ s', (c.renameApart s').1 = r ∧
    (c.renameApart s').2.next ≤ s.next
  recorded : new ⊆ l.map Prod.fst
  known : ∀ g ∈ t.facts ++ l.map Prod.fst, (∃ f ∈ u.facts, (f == g) = true) ∨ g ∈ new

/-- A search that is open with something pending, or has come to an answer: a copy of a given fact,
    where nothing was inferred, or a recorded fact. -/
structure Tracked (t : ClauseStore) (x : ForwardQuery × Names) : Prop where
  kept : Kept t x.1.store x.1.proof x.2
  pending : x.1.result = none →
    Pending t x.1.store x.1.proof x.2 x.1.task.left x.1.task.unstored
  answered : x.1.result = some true → ∃ a, x.1.proven = some a ∧
    ((∃ f ∈ t.facts, f.RenamesTo a) ∧ x.1.proof = [] ∨ a ∈ x.1.keys)

section Tracked

variable {t u : ClauseStore} {l : List (Atom × Inference)} {q : ForwardQuery} {s s' : Names}
  {new : List Atom} {left : List DefiniteClause}

theorem Kept.later (h : Kept t u l s) (hle : s.next ≤ s'.next) : Kept t u l s' :=
  ⟨h.keyed, h.stored, h.record, fun a ha x hx => (h.below a ha x hx).mono hle⟩

/-- The record grows by inferred facts whose variables are in use by then. -/
theorem Kept.extend {more : List (Atom × Inference)} (h : Kept t u l s) (hle : s.next ≤ s'.next)
    (hrecord : InferenceRecord t (l ++ more))
    (hmore : ∀ a ∈ more.map Prod.fst, ∀ x ∈ a.vars, x.Below s'.next) :
    Kept t u (l ++ more) s' := by
  refine ⟨h.keyed, fun d hd => ?_, hrecord, ?_⟩
  · rw [List.map_append]
    rcases h.stored d hd with hd | ⟨a, ha, hda⟩
    · exact Or.inl hd
    · exact Or.inr ⟨a, List.mem_append_left _ ha, hda⟩
  · rw [List.map_append]
    exact List.forall_mem_append.mpr ⟨(h.later hle).below, hmore⟩

/-- When a rule is done, what was inferred with it is new. -/
theorem Pending.extend {r : DefiniteClause} {more : List (Atom × Inference)}
    (h : Pending t u l s (r :: left) new) (hle : s.next ≤ s'.next) :
    Pending t u (l ++ more) s' left (new ++ more.map Prod.fst) := by
  refine ⟨fun r hr => ?_, ?_, ?_⟩
  · obtain ⟨c, hc, s₀, hcopy, hs⟩ := h.rules r (List.mem_cons_of_mem _ hr)
    exact ⟨c, hc, s₀, hcopy, Nat.le_trans hs hle⟩
  · rw [List.map_append]
    exact List.append_subset.mpr
      ⟨List.Subset.trans h.recorded (List.subset_append_left _ _), List.subset_append_right _ _⟩
  · rw [List.map_append, ← List.append_assoc]
    refine List.forall_mem_append.mpr ⟨fun g hg => ?_, fun g hg => ?_⟩
    · exact (h.known g hg).imp_right (List.mem_append_left _)
    · exact Or.inr (List.mem_append_right _ hg)

/-- The rules of the store are given ones, since what is inferred is stored as facts. -/
theorem Kept.mem_of_mem_rules (h : Kept t u l s) {d : DefiniteClause} (hd : d ∈ u.rules) :
    d ∈ t.toList := by
  obtain ⟨hd, hrule⟩ := ClauseStore.mem_rules.mp hd
  rcases h.stored d hd with hd | ⟨a, -, rfl⟩
  · exact hd
  · cases hrule

/-- The facts of the store are given or recorded ones. -/
theorem Kept.of_mem_facts (h : Kept t u l s) {f : Atom} (hf : f ∈ u.facts) :
    f ∈ t.facts ∨ f ∈ l.map Prod.fst := by
  obtain ⟨d, hd, hfact, rfl⟩ := ClauseStore.mem_facts.mp hf
  rcases h.stored d hd with hd | ⟨a, ha, rfl⟩
  · exact Or.inl (ClauseStore.mem_facts.mpr ⟨d, hd, hfact, rfl⟩)
  · exact Or.inr ha

/-- What a rule infers rests on what is given and recorded. -/
theorem Kept.rests (h : Kept t u l s) {c : DefiniteClause} (hc : c ∈ t.toList) {s' : Names}
    {i : Inference} (hi : i ∈ (u.inferences s (c.renameApart s').1).1) :
    i.Rests t (l.map Prod.fst) := by
  obtain ⟨hrule, hacyclic, hatoms, hcopies⟩ := ClauseStore.supplies_of_mem_inferences hi
  refine ⟨fun k hk => ?_, fun ht hground => ?_⟩
  · obtain ⟨b, -, hk⟩ := hcopies k hk
    obtain ⟨f, hf, hcopy⟩ := hk.copy
    rcases h.of_mem_facts hf with hf | hf
    · exact Or.inl ⟨f, hf, hcopy⟩
    · refine Or.inr ⟨f, hf, hcopy, fun hbeq => ?_⟩
      -- the variables of the copy are newer than those of the fact
      refine List.eq_nil_iff_forall_not_mem.mpr fun x hx => hk.fresh x hx ?_
      exact h.below f hf x ((Atom.alike_of_beq hbeq).mem_vars_iff.mpr hx)
  · unfold Inference.conclusion
    rw [hrule]
    refine ((ht c hc).subst _).vars_head_eq_nil fun b hb => ?_
    obtain ⟨k, hk, hbk⟩ := hatoms b hb
    have halike := hbk.alike _ hacyclic.solves_value
    rw [Atom.subst_of_vars_eq_nil (hground k hk)] at halike
    exact halike.symm.vars_eq_nil (hground k hk)

/-- The variables of what a rule infers are those of copies. -/
theorem below_conclusion {c : DefiniteClause} (hs : (c.renameApart s').2.next ≤ s.next)
    {i : Inference} (hi : i ∈ (u.inferences s (c.renameApart s').1).1) :
    ∀ x ∈ i.conclusion.vars, x.Below (u.inferences s (c.renameApart s').1).2.next := by
  have hbetween : ∀ x ∈ (c.renameApart s').1.clause.vars, x.Between 0 s.next := fun x hx =>
    have hx := DefiniteClause.mem_vars_renameApart hx
    ⟨fun hbelow => hx.1 (hbelow.mono (Nat.zero_le _)), hx.2.mono hs⟩
  exact fun x hx => ((ClauseStore.of_mem_inferences (Nat.zero_le _) hbetween hi).2 x hx).2

theorem tracked_enterRound (h : Kept t q.store q.proof s)
    (hpending : Pending t q.store q.proof s [] []) (hresult : q.result = none) (new : List Atom) :
    Tracked t (q.enterRound new, s) := by
  unfold enterRound
  split
  · exact ⟨h, nofun, nofun⟩
  · exact ⟨h, fun _ => hpending, fun hc => nomatch hresult.symm.trans hc⟩

theorem tracked_enterRules (h : Kept t q.store q.proof s)
    (hpending : Pending t q.store q.proof s left new) (hresult : q.result = none) :
    Tracked t (q.enterRules left new, s) := by
  unfold enterRules
  split
  next =>
    -- the new facts are stored
    refine tracked_enterRound (q := { q with store := q.store.addAll (new.map .ofAtom) })
      ⟨h.keyed.addAll, fun d hd => ?_, h.record, h.below⟩
      ⟨by simp, List.nil_subset _, fun g hg => Or.inl ?_⟩ hresult new
    · rcases ClauseStore.mem_addAll hd with hd | hd
      · exact h.stored d hd
      · obtain ⟨a, ha, rfl⟩ := List.mem_map.mp hd
        exact Or.inr ⟨a, hpending.recorded ha, rfl⟩
    · rcases hpending.known g hg with ⟨f, hf, hbeq⟩ | hg
      · obtain ⟨d, hd, hfact, rfl⟩ := ClauseStore.mem_facts.mp hf
        exact ⟨_, ClauseStore.mem_facts.mpr
          ⟨d, ClauseStore.mem_addAll_of_mem hd, hfact, rfl⟩, hbeq⟩
      · obtain ⟨d, hd, hbeq⟩ := ClauseStore.exists_mem_addAll (t := q.store)
          (List.mem_map_of_mem (f := DefiniteClause.ofAtom) hg)
        obtain ⟨hfact, hhead⟩ := DefiniteClause.isFact_of_beq rfl hbeq
        exact ⟨_, ClauseStore.mem_facts.mpr ⟨d, hd, hfact, rfl⟩, hhead⟩
  next => exact ⟨h, fun _ => hpending, fun hc => nomatch hresult.symm.trans hc⟩

/-- The search begins with the given clauses and nothing recorded. -/
theorem tracked_enter (t : ClauseStore) (goal : Atom) (s : Names) :
    Tracked t (({ start t goal with begun := true } : ForwardQuery).enter s) := by
  have hkept : Kept t (.ofList t.toList) [] s :=
    ⟨ClauseStore.keyed_ofList _, fun d hd => Or.inl (ClauseStore.mem_ofList hd), .nil, by simp⟩
  unfold enter
  dsimp only [start]
  split
  next f fs hfound =>
    have hf : f ∈ ((ClauseStore.ofList t.toList).factApplications s goal .empty).1 := by
      simp [hfound]
    obtain ⟨hf, hfact⟩ := ClauseStore.mem_factApplications.mp hf
    obtain ⟨-, -, hsupplies⟩ :=
      ClauseStore.supplies_of_mem_applications Substitution.acyclic_empty hf hfact
    obtain ⟨g, hg, hcopy⟩ := hsupplies.copy
    refine ⟨hkept.later (ClauseStore.next_le_next_applications _ _ _ _), nofun, fun _ =>
      ⟨f.clause.head, rfl, Or.inl ⟨⟨g, ?_, hcopy⟩, rfl⟩⟩⟩
    exact (hkept.of_mem_facts hg).resolve_right List.not_mem_nil
  next =>
    refine tracked_enterRound (hkept.later (ClauseStore.next_le_next_applications _ _ _ _))
      ⟨by simp, List.nil_subset _, fun g hg => Or.inl ?_⟩ rfl _
    rw [List.map_nil, List.append_nil] at hg
    obtain ⟨d, hd, hfact, rfl⟩ := ClauseStore.mem_facts.mp hg
    obtain ⟨e, he, hbeq⟩ := ClauseStore.exists_mem_addAll (t := .empty) hd
    obtain ⟨hfact', hhead⟩ := DefiniteClause.isFact_of_beq hfact hbeq
    exact ⟨e.head, ClauseStore.mem_facts.mpr ⟨e, he, hfact', rfl⟩, hhead⟩

/-- Taking in what a rule infers. -/
theorem tracked_learn {r : DefiniteClause} (h : Kept t q.store q.proof s)
    (hpending : Pending t q.store q.proof s (r :: left) new) (hresult : q.result = none) :
    let x := q.store.inferences s r
    let y := q.learn new x.1
    Tracked t (if y.2.isComplete then (y.2, x.2) else (y.2.enterRules left y.1, x.2)) := by
  intro x y
  obtain ⟨c, hc, s₀, rfl, hs⟩ := hpending.rules r List.mem_cons_self
  have hle : s.next ≤ x.2.next := ClauseStore.next_le_next_matchBody _ _ _ _
  have hrests : ∀ i ∈ x.1, i.Rests t q.keys := fun i hi => h.rests hc hi
  obtain ⟨more, hrecord, hfrom, hlearn⟩ := exists_learn h.keyed h.record hpending.known hrests
  have hkept : Kept t q.store (q.proof ++ more) x.2 := by
    refine h.extend hle hrecord fun a ha => ?_
    obtain ⟨e, he, rfl⟩ := List.mem_map.mp ha
    obtain ⟨i, hi, hie⟩ := hfrom e he
    rw [← hie]
    exact below_conclusion hs hi
  rcases hlearn with ⟨a, ha, hlearn⟩ | hlearn
  · -- the last fact that was inferred answers the question
    have hy : y.2 = ({ q with proof := q.proof ++ more } : ForwardQuery).succeed a := hlearn
    have hcomplete : y.2.isComplete = true := by
      rw [hy]
      rfl
    rw [if_pos hcomplete, hy]
    refine ⟨hkept, nofun, fun _ => ⟨a, rfl, Or.inr ?_⟩⟩
    show a ∈ (q.proof ++ more).map Prod.fst
    rw [List.map_append]
    exact List.mem_append_right _ ha
  · have hy : y = (new ++ more.map Prod.fst, { q with proof := q.proof ++ more }) := hlearn
    rw [hy, if_neg (by simp [isComplete, hresult])]
    exact tracked_enterRules hkept (hpending.extend hle) hresult

/-- A step extends the record. -/
theorem Tracked.next {x : ForwardQuery × Names} (h : Tracked t x)
    (hopen : x.1.isComplete = false) : Tracked t (ForwardQuery.next x) := by
  obtain ⟨q, s⟩ := x
  have hresult : q.result = none := by simpa [isComplete] using hopen
  have hpending := h.pending hresult
  unfold ForwardQuery.next
  dsimp only at hpending ⊢
  split
  next => exact h
  next new htask =>
    -- a round begins with copies of the rules that are stored
    rw [htask] at hpending
    refine tracked_enterRules (h.kept.later (next_le_next_relevantRules new s q.store.rules))
      ⟨fun r hr => ?_, List.nil_subset _, hpending.known⟩ hresult
    obtain ⟨c, hc, s', -, hle, rfl⟩ := of_mem_relevantRules hr
    exact ⟨c, h.kept.mem_of_mem_rules hc, s', rfl, hle⟩
  next => exact h
  next r left new htask =>
    rw [htask] at hpending
    exact tracked_learn h.kept hpending hresult

end Tracked

/-- The record of an answer. -/
theorem tracked_of_execute {t : ClauseStore} {goal : Atom} {n : Nat} {s s' : Names} {b : Bool}
    {q : ForwardQuery} (h : (start t goal).execute n s = (.ok b, q, s')) :
    Tracked t (q, s') ∧ q.result = some b :=
  execute_invariant h (tracked_enter t goal s) fun _ hopen hx => hx.next hopen

end ForwardQuery

end Clausal
