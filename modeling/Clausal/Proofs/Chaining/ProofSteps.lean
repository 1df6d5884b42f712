import Clausal.Chaining.Explain
import Clausal.Proofs.Association
import Clausal.Proofs.Chaining.Grounding
import Clausal.Proofs.Chaining.LinearScan

/-!
# The steps of a backward proof

A proof notes a clause for each atom that was proved.  An atom is noted under the values that its
variables have when its own subproof is finished; the proof of a later atom may give it further
values.  Under the unifier of the whole proof, the noted atoms account for the goal and for the body
of every noted clause, so the steps make up a proof.  As they stand they need not: an atom of a body
may be missing under its final values, and an explanation has no number for it then.

If all clauses are range restricted, then every atom is ground once it is proved, and nothing is
missing.

## Main definitions

- `GoalProof.atoms`: the atoms that a proof notes
- `Substitution.Accounts`: an atom is one of the given ones under every solution
- `Supports`: a clause proves an atom from the given ones
- `Awaited`, `Branch.Documented`: what the open tasks of a branch will note
- `GoalProof.SelfContained`: nothing is missing under the unifier of the whole proof

## Main statements

- `Branch.Documented.close`, `Branch.Documented.attempt`, `Branch.Documented.prove`: one task
- `ProofSearch.Documented.next`: a step keeps all branches documented
- `BackwardQuery.documented_of_mem_proofs`: every proof that is found is documented to the end
- `backward_proof_self_contained`: under its unifier, the steps of a proof make up a proof
-/

namespace Clausal

/-- The atoms that a proof notes. -/
def GoalProof.atoms (p : GoalProof) : List Atom :=
  p.steps.map Prod.fst

/-! ## Section 1: Atoms that account for others -/

/-- One of the given atoms is the same as another one under every solution of the bindings. -/
def Substitution.Accounts (σ : Substitution) (as : List Atom) (a : Atom) : Prop :=
  ∃ k ∈ as, ∀ θ, σ.Solves θ → (k.subst θ == a.subst θ) = true

/-- A copy of a clause of the store, whose head is the atom under every solution of the bindings and
    whose body the given atoms account for. -/
structure Supports (t : ClauseStore) (σ : Substitution) (as : List Atom) (g : Atom)
    (d : DefiniteClause) : Prop where
  copy : ∃ c ∈ t.toList, ∃ s, d = (c.renameApart s).1
  head : ∀ θ, σ.Solves θ → (d.head.subst θ).Alike (g.subst θ)
  body : ∀ b ∈ d.body, σ.Accounts as b

section Accounts

variable {t : ClauseStore} {σ τ : Substitution} {as bs : List Atom} {a g : Atom}
  {d : DefiniteClause}

theorem Substitution.accounts_of_mem (h : a ∈ as) : σ.Accounts as a :=
  ⟨a, h, fun _ _ => BEq.rfl⟩

/-- What accounts for an atom may be accounted for by others, also under more bindings. -/
theorem Substitution.Accounts.mono (h : σ.Accounts as a) (hτ : ∀ θ, τ.Solves θ → σ.Solves θ)
    (hbs : ∀ k ∈ as, τ.Accounts bs k) : τ.Accounts bs a := by
  obtain ⟨k, hk, hka⟩ := h
  obtain ⟨k', hk', hkk'⟩ := hbs k hk
  exact ⟨k', hk', fun θ hθ => BEq.trans (hkk' θ hθ) (hka θ (hτ θ hθ))⟩

theorem Supports.mono (h : Supports t σ as g d) (hτ : ∀ θ, τ.Solves θ → σ.Solves θ)
    (hbs : ∀ k ∈ as, τ.Accounts bs k) : Supports t τ bs g d where
  copy := h.copy
  head θ hθ := h.head θ (hτ θ hθ)
  body b hb := (h.body b hb).mono hτ hbs

/-- An atom that ground atoms account for is ground under the bindings. -/
theorem Substitution.Accounts.vars_eq_nil (hσ : σ.Acyclic) (has : ∀ k ∈ as, k.vars = [])
    (h : σ.Accounts as a) : (σ.applyAtom a).vars = [] := by
  obtain ⟨k, hk, hka⟩ := h
  have hbeq := hka _ hσ.solves_value
  rw [Atom.subst_of_vars_eq_nil (has k hk)] at hbeq
  exact (Atom.alike_of_beq hbeq).symm.vars_eq_nil (has k hk)

/-- A range restricted clause supports only ground atoms if all it rests on is ground. -/
theorem Supports.vars_eq_nil (hσ : σ.Acyclic) (ht : ∀ c ∈ t.toList, c.RangeRestricted)
    (has : ∀ k ∈ as, k.vars = []) (h : Supports t σ as g d) : (σ.applyAtom g).vars = [] := by
  obtain ⟨c, hc, s, rfl⟩ := h.copy
  have hhead := ((ht c hc).subst _).vars_head_eq_nil (θ := σ.value) fun b hb =>
    (h.body b hb).vars_eq_nil hσ has
  exact (h.head _ hσ.solves_value).symm.vars_eq_nil hhead

end Accounts

/-! ## Section 2: Documented branches -/

/-- The atom that a task is about. -/
def ProofTask.goal : ProofTask → Atom
  | .prove g => g
  | .attempt g _ => g
  | .close g _ => g

/-- Tasks that may be left for later.  When a clause is to be noted for an atom, it supports it on
    the atoms that are there by then: the given ones and those of the tasks before. -/
def Awaited (t : ClauseStore) (σ : Substitution) : List Atom → List ProofTask → Prop
  | _, [] => True
  | as, .prove g :: ts => Awaited t σ (as ++ [g]) ts
  | _, .attempt _ _ :: _ => False
  | as, .close g d :: ts => Supports t σ as g d ∧ Awaited t σ (as ++ [g]) ts

/-- The last task to be done is about the goal, or all is done and the goal is noted as it is under
    the bindings. -/
def Concludes (goal : Atom) (p : GoalProof) (ts : List ProofTask) : Prop :=
  (ts = [] ∧ ∃ k ∈ p.atoms, (k == p.unifier.applyAtom goal) = true) ∨
    ∃ ts' k, ts = ts' ++ [k] ∧ k.goal = goal ∧ ∀ g, k ≠ .prove g

/-- A branch on which every noted clause is supported by noted atoms, and every clause that is to be
    noted will be.  A clause is tried under the unifier that it was found with, so no other task
    comes before it. -/
structure Branch.Documented (t : ClauseStore) (goal : Atom) (b : Branch) : Prop where
  acyclic : b.proof.unifier.Acyclic
  steps : ∀ e ∈ b.proof.steps, Supports t b.proof.unifier b.proof.atoms e.1 e.2
  tasks : Awaited t b.proof.unifier b.proof.atoms b.tasks ∨
    ∃ g a ts s, b.tasks = .attempt g a :: ts ∧
      a ∈ (t.applications s g b.proof.unifier).1 ∧
      Awaited t b.proof.unifier (b.proof.atoms ++ [g]) ts
  ground : (∀ c ∈ t.toList, c.RangeRestricted) → ∀ k ∈ b.proof.atoms, k.vars = []
  concludes : Concludes goal b.proof b.tasks

section Tasks

variable {t : ClauseStore} {σ τ : Substitution} {as bs : List Atom} {ts : List ProofTask}

theorem Awaited.mono (h : Awaited t σ as ts) (hτ : ∀ θ, τ.Solves θ → σ.Solves θ)
    (hbs : ∀ k ∈ as, τ.Accounts bs k) : Awaited t τ bs ts := by
  induction ts generalizing as bs with
  | nil => trivial
  | cons k ts ih =>
    have hmore : ∀ g, ∀ k ∈ as ++ [g], τ.Accounts (bs ++ [g]) k := by
      intro g k hk
      rcases List.mem_append.mp hk with hk | hk
      · obtain ⟨k', hk', hkk'⟩ := hbs k hk
        exact ⟨k', List.mem_append_left _ hk', hkk'⟩
      · exact Substitution.accounts_of_mem (List.mem_append_right _ hk)
    cases k with
    | prove g => exact ih h (hmore g)
    | attempt g a => exact h
    | close g d => exact ⟨h.1.mono hτ hbs, ih h.2 (hmore g)⟩

private theorem awaited_map_prove (gs : List Atom) :
    Awaited t σ as (gs.map .prove ++ ts) ↔ Awaited t σ (as ++ gs) ts := by
  induction gs generalizing as with
  | nil => simp
  | cons g gs ih =>
    show Awaited t σ (as ++ [g]) (gs.map .prove ++ ts) ↔ _
    rw [ih, List.append_assoc, List.singleton_append]

/-- The goal is still the last one if tasks are done that are not the last. -/
theorem Concludes.of_cons {goal : Atom} {p q : GoalProof} {k : ProofTask}
    (h : Concludes goal p (k :: ts)) (hts : ts ≠ []) (new : List ProofTask) :
    Concludes goal q (new ++ ts) := by
  rcases h with ⟨hnil, -⟩ | ⟨ts', k', hsplit, hgoal⟩
  · cases hnil
  · cases ts' with
    | nil => exact absurd (List.cons.inj hsplit).2 hts
    | cons k'' ts' =>
      obtain ⟨-, rfl⟩ := List.cons.inj hsplit
      exact Or.inr ⟨new ++ ts', k', (List.append_assoc _ _ _).symm, hgoal⟩

theorem Concludes.goal_eq {goal : Atom} {p : GoalProof} {k : ProofTask}
    (h : Concludes goal p [k]) : k.goal = goal ∧ ∀ g, k ≠ .prove g := by
  rcases h with ⟨hnil, -⟩ | ⟨ts', k', hsplit, hgoal⟩
  · cases hnil
  · obtain ⟨rfl, rfl⟩ : ts' = [] ∧ k' = k := by
      cases ts' with
      | nil => simpa using hsplit.symm
      | cons k'' ts' => simp at hsplit
    exact hgoal

end Tasks

namespace Branch.Documented

variable {t : ClauseStore} {goal g : Atom} {ts : List ProofTask} {p : GoalProof}

/-- Noting a clause for an atom. -/
theorem close {d : DefiniteClause} (h : Documented t goal ⟨.close g d :: ts, p⟩) :
    Documented t goal
      ⟨ts, { p with steps := insertKey (p.unifier.applyAtom g) d p.steps }⟩ := by
  obtain ⟨hsupports, hrest⟩ : Supports t p.unifier p.atoms g d ∧
      Awaited t p.unifier (p.atoms ++ [g]) ts := by
    rcases h.tasks with hawaited | ⟨g', a, ts', s, heq, -⟩
    · exact hawaited
    · cases heq
  have hσ : p.unifier.Acyclic := h.acyclic
  let q : GoalProof := { p with steps := insertKey (p.unifier.applyAtom g) d p.steps }
  -- the atom is noted under its values, which no solution tells from itself
  have hself : ∀ k : Atom, (k == p.unifier.applyAtom g) = true → ∀ θ, p.unifier.Solves θ →
      (k.subst θ == g.subst θ) = true := by
    intro k hk θ hθ
    have hbeq := Atom.beq_subst hk θ
    rwa [Substitution.applyAtom, Atom.subst_subst, funext (hθ.subst_value hσ)] at hbeq
  have hkeep : ∀ k ∈ p.atoms, q.unifier.Accounts q.atoms k := fun k hk =>
    Substitution.accounts_of_mem (keys_subset_insertKey _ _ _ hk)
  have hnew : q.unifier.Accounts q.atoms g := by
    obtain ⟨k, hk, hbeq⟩ := exists_key_insertKey (p.unifier.applyAtom g) d p.steps
    exact ⟨k, hk, hself k hbeq⟩
  refine ⟨hσ, fun e he => ?_, Or.inl (hrest.mono (fun _ => id) ?_), fun ht k hk => ?_, ?_⟩
  · rcases mem_insertKey he with he | ⟨hd, hbeq⟩
    · exact (h.steps e he).mono (fun _ => id) hkeep
    · rw [hd]
      refine ⟨hsupports.copy, fun θ hθ => ?_,
        fun b hb => (hsupports.body b hb).mono (fun _ => id) hkeep⟩
      exact (hsupports.head θ hθ).trans (Atom.alike_of_beq (hself e.1 hbeq θ hθ)).symm
  · exact List.forall_mem_append.mpr ⟨hkeep, List.forall_mem_singleton.mpr hnew⟩
  · rcases mem_keys_insertKey hk with hk | rfl
    · exact h.ground ht k hk
    · exact hsupports.vars_eq_nil hσ ht (h.ground ht)
  · cases ts with
    | nil =>
      obtain ⟨rfl, -⟩ := h.concludes.goal_eq
      exact Or.inl ⟨rfl, exists_key_insertKey _ _ _⟩
    | cons k ts => exact h.concludes.of_cons (List.cons_ne_nil _ _) []

theorem closeGoals (h : Documented t goal ⟨ts, p⟩) : (closeGoals ts p).Documented t goal := by
  fun_induction Clausal.closeGoals ts p with
  | case1 g d ts p ih => exact ih h.close
  | case2 ts p => exact h

/-- Trying a clause for an atom: the body is to be proved, and then the clause to be noted. -/
theorem attempt {a : Application} (h : Documented t goal ⟨.attempt g a :: ts, p⟩) :
    Documented t goal
      ⟨a.clause.body.map .prove ++ .close g a.clause :: ts, { p with unifier := a.unifier }⟩ := by
  rcases h.tasks with hawaited | ⟨g', a', ts', s, heq, ha, hrest⟩
  · exact hawaited.elim
  · obtain ⟨⟨rfl, rfl⟩, rfl⟩ := by simpa using heq
    obtain ⟨c, hc, s', -, -, hcopy, hunify⟩ := ClauseStore.of_mem_applications ha
    obtain ⟨hacyclic, hsolves⟩ := Atom.alike_of_unify h.acyclic hunify
    have hold : ∀ θ, a.unifier.Solves θ → p.unifier.Solves θ := fun θ hθ => (hsolves θ hθ).1
    refine ⟨hacyclic, fun e he => ?_, Or.inl ?_, h.ground, ?_⟩
    · exact (h.steps e he).mono hold fun k => Substitution.accounts_of_mem
    · rw [awaited_map_prove]
      refine ⟨⟨⟨c, hc, s', hcopy⟩, fun θ hθ => (hsolves θ hθ).2, fun b hb => ?_⟩,
        hrest.mono hold fun k hk => ?_⟩
      · exact Substitution.accounts_of_mem (List.mem_append_right _ hb)
      · apply Substitution.accounts_of_mem
        rcases List.mem_append.mp hk with hk | hk
        · exact List.mem_append_left _ (List.mem_append_left _ hk)
        · exact List.mem_append_right _ hk
    · cases ts with
      | nil =>
        obtain ⟨rfl, -⟩ := h.concludes.goal_eq
        exact Or.inr ⟨_, _, rfl, rfl, fun g => ProofTask.noConfusion⟩
      | cons k ts =>
        have hlast := h.concludes.of_cons (q := { p with unifier := a.unifier })
          (List.cons_ne_nil k ts) (a.clause.body.map .prove ++ [.close g a.clause])
        rwa [List.append_assoc] at hlast

/-- An atom is proved by trying the clauses that apply to it, as it is under the bindings. -/
theorem prove (h : Documented t goal ⟨.prove g :: ts, p⟩) {a : Application} {s : Names}
    (ha : a ∈ (t.applications s (p.unifier.applyAtom g) p.unifier).1) :
    Documented t goal ⟨.attempt (p.unifier.applyAtom g) a :: ts, p⟩ := by
  have hrest : Awaited t p.unifier (p.atoms ++ [g]) ts := by
    rcases h.tasks with hawaited | ⟨g', a', ts', s', heq, -⟩
    · exact hawaited
    · cases heq
  refine ⟨h.acyclic, h.steps, Or.inr ⟨_, a, ts, s, rfl, ha, hrest.mono (fun _ => id) ?_⟩,
    h.ground, ?_⟩
  · refine List.forall_mem_append.mpr ⟨fun k hk => ?_, List.forall_mem_singleton.mpr ?_⟩
    · exact Substitution.accounts_of_mem (List.mem_append_left _ hk)
    · refine ⟨p.unifier.applyAtom g, by simp, fun θ hθ => ?_⟩
      rw [Substitution.applyAtom, Atom.subst_subst, funext (hθ.subst_value h.acyclic)]
      exact BEq.rfl
  · cases ts with
    | nil => exact absurd rfl (h.concludes.goal_eq.2 g)
    | cons k ts => exact h.concludes.of_cons (List.cons_ne_nil k ts) [_]

end Branch.Documented

/-! ## Section 3: Documented searches -/

namespace ProofSearch

/-- A search in a store with documented branches only. -/
structure Documented (t : ClauseStore) (goal : Atom) (x : ProofSearch) : Prop where
  store : x.store = t
  branches : ∀ b ∈ x.branches, b.Documented t goal

namespace Documented

variable {t : ClauseStore} {goal : Atom}

private theorem start (t : ClauseStore) (s : Names) (goal : Atom) :
    (ProofSearch.start t s goal).Documented t goal where
  store := rfl
  branches b hb := by
    obtain ⟨a, ha, rfl⟩ := List.mem_map.mp hb
    exact ⟨Substitution.acyclic_empty, by simp, Or.inr ⟨goal, a, [], s, rfl, ha, trivial⟩,
      by simp [GoalProof.atoms], Or.inr ⟨[], _, rfl, rfl, fun g => ProofTask.noConfusion⟩⟩

/-- A step keeps all branches documented. -/
theorem next {x : ProofSearch} (h : x.Documented t goal) (hopen : x.isSettled = false) :
    x.next.Documented t goal := by
  obtain ⟨⟨_, p⟩, bs, k, ts, hbs, rfl⟩ := exists_task hopen
  have hall := h.branches
  rw [hbs] at hall
  obtain ⟨hb, hrest⟩ := List.forall_mem_cons.mp hall
  refine ⟨(store_next hbs rfl).trans h.store, ?_⟩
  rw [next_eq hbs rfl]
  cases k with
  | prove g =>
    refine List.forall_mem_append.mpr ⟨fun c hc => ?_, hrest⟩
    obtain ⟨a, ha, rfl⟩ := List.mem_map.mp hc
    rw [h.store] at ha
    exact hb.prove ha
  | attempt g a => exact List.forall_mem_cons.mpr ⟨hb.attempt.closeGoals, hrest⟩
  | close g d => exact List.forall_mem_cons.mpr ⟨hb.closeGoals, hrest⟩

end Documented

end ProofSearch

/-- Every proof that is found is documented to the end. -/
theorem BackwardQuery.documented_of_mem_proofs {t : ClauseStore} {goal : Atom}
    {limit n : Nat} {s : Names} {p : GoalProof}
    (hp : p ∈ (proofs limit n t s { goal }).items) : Branch.Documented t goal ⟨[], p⟩ := by
  refine ProofSearch.enumerate_invariant (P := (·.Documented t goal))
    (Q := fun p => Branch.Documented t goal ⟨[], p⟩) (fun x hopen hx => hx.next hopen)
    (fun x b bs hx hbranches htasks => ?_) _ _ _ (.start t s goal) (by simp) p hp
  have hall := hx.branches
  rw [hbranches] at hall
  obtain ⟨hb, hbs⟩ := List.forall_mem_cons.mp hall
  refine ⟨⟨hx.store, hbs⟩, fun _ a ha => ?_⟩
  obtain rfl := Option.some.inj ha
  rwa [← htasks]

/-! ## Section 4: Proofs that stand for themselves -/

/-- Every atom of a noted clause's body is noted as it is under the unifier. -/
def GoalProof.SelfContained (p : GoalProof) : Prop :=
  ∀ e ∈ p.steps, ∀ b ∈ e.2.body, p.atoms.contains (p.unifier.applyAtom b) = true

instance (p : GoalProof) : Decidable p.SelfContained :=
  inferInstanceAs (Decidable (∀ e ∈ p.steps, ∀ b ∈ e.2.body,
    p.atoms.contains (p.unifier.applyAtom b) = true))

/-- An explanation of such a proof numbers every atom by the place where it is noted. -/
theorem GoalProof.SelfContained.exists_place {p : GoalProof} (h : p.SelfContained)
    {e : Atom × DefiniteClause} (he : e ∈ p.steps) {b : Atom} (hb : b ∈ e.2.body) :
    ∃ i k, p.atoms[i]? = some k ∧ (k == p.unifier.applyAtom b) = true ∧
      placeText p.atoms (p.unifier.applyAtom b) = stepNumber i := by
  have hcontains := h e he b hb
  obtain ⟨k, hk, hbeq⟩ := List.contains_iff_exists_mem_beq.mp hcontains
  have hlt := List.findIdx_lt_length_of_exists (p := (· == p.unifier.applyAtom b))
    ⟨k, hk, BEq.symm hbeq⟩
  exact ⟨_, _, List.getElem?_eq_getElem hlt, List.findIdx_getElem (w := hlt),
    if_pos hcontains⟩

namespace Branch.Documented

variable {t : ClauseStore} {goal : Atom} {p : GoalProof}

/-- Under the unifier of a finished proof, every atom of a noted clause's body is a noted one. -/
theorem exists_atom (h : Documented t goal ⟨[], p⟩) {e : Atom × DefiniteClause} (he : e ∈ p.steps)
    {b : Atom} (hb : b ∈ e.2.body) :
    ∃ k ∈ p.atoms, (p.unifier.applyAtom k == p.unifier.applyAtom b) = true := by
  obtain ⟨k, hk, hbeq⟩ := (h.steps e he).body b hb
  exact ⟨k, hk, hbeq _ h.acyclic.solves_value⟩

/-- A finished proof is self-contained if its unifier does not tell on the atoms that it notes. -/
theorem selfContained (h : Documented t goal ⟨[], p⟩)
    (hkeep : ∀ k ∈ p.atoms, (p.unifier.applyAtom k == k) = true) : p.SelfContained := by
  intro e he b hb
  obtain ⟨k, hk, hbeq⟩ := h.exists_atom he hb
  exact List.contains_iff_exists_mem_beq.mpr ⟨k, hk, BEq.trans (BEq.symm hbeq) (hkeep k hk)⟩

end Branch.Documented

/-- The steps of a backward proof make up a proof under its unifier: the goal is noted; every noted
    clause is a copy of a clause of the store whose head is the atom that it is noted for; and every
    atom of its body is noted, up to values that the proof of a later atom gave to its variables.
    If the unifier changes no noted atom, in particular if all clauses are range restricted, then
    the atoms of the bodies are noted as they are under the unifier, and an explanation refers to
    the places where they are. -/
theorem backward_proof_self_contained (t : ClauseStore) (goal : Atom) (limit n : Nat) (s : Names)
    (p : GoalProof) (hp : p ∈ (BackwardQuery.proofs limit n t s { goal }).items) :
    p.atoms.contains (p.unifier.applyAtom goal) = true ∧
      (∀ e ∈ p.steps, (∃ c ∈ t.toList, c.RenamesTo e.2) ∧
        (p.unifier.applyAtom e.2.head).Alike (p.unifier.applyAtom e.1) ∧
        ∀ b ∈ e.2.body, ∃ k ∈ p.atoms,
          (p.unifier.applyAtom k == p.unifier.applyAtom b) = true) ∧
      ((∀ k ∈ p.atoms, (p.unifier.applyAtom k == k) = true) → p.SelfContained) ∧
      ((∀ c ∈ t.toList, c.RangeRestricted) → p.SelfContained ∧ ∀ k ∈ p.atoms, k.vars = []) ∧
      (p.SelfContained → ∀ e ∈ p.steps, ∀ b ∈ e.2.body, ∃ i k, p.atoms[i]? = some k ∧
        (k == p.unifier.applyAtom b) = true ∧
        GoalProof.placeText p.atoms (p.unifier.applyAtom b) = stepNumber i) := by
  have h := BackwardQuery.documented_of_mem_proofs hp
  refine ⟨?_, fun e he => ⟨?_, ?_, fun b hb => h.exists_atom he hb⟩, h.selfContained,
    fun ht => ⟨h.selfContained fun k hk => ?_, h.ground ht⟩,
    fun hself e he b hb => hself.exists_place he hb⟩
  · rcases h.concludes with ⟨-, k, hk, hbeq⟩ | ⟨ts, k, hsplit, -⟩
    · exact List.contains_iff_exists_mem_beq.mpr ⟨k, hk, BEq.symm hbeq⟩
    · simp at hsplit
  · obtain ⟨c, hc, s', hcopy⟩ := (h.steps e he).copy
    exact ⟨c, hc, hcopy ▸ c.renamesTo_renameApart s'⟩
  · exact (h.steps e he).head _ h.acyclic.solves_value
  · rw [Substitution.applyAtom, Atom.subst_of_vars_eq_nil (h.ground ht k hk)]
    exact BEq.rfl

/-- Somebody is free and somebody is invited; who is both comes. -/
def invitation (free invited : Term) : ClauseStore :=
  .ofList [.ofAtom (.pred (.num 0) [free]), .ofAtom (.pred (.num 1) [invited]),
    ⟨.ofList [⟨false, .pred (.num 0) [.var (.num 5)]⟩, ⟨false, .pred (.num 1) [.var (.num 5)]⟩,
      ⟨true, .pred (.num 2) [.var (.num 5)]⟩] .rule, by decide⟩]

/-- The proofs that somebody comes. -/
def guestProofs (t : ClauseStore) : List GoalProof :=
  (BackwardQuery.proofs 1 9 t {} { goal := .pred (.num 2) [.var (.num 6)] }).items

theorem backward_proof_self_contained_guest :
    (∀ c ∈ (invitation (.const (.num 3)) (.const (.num 3))).toList, c.RangeRestricted) ∧
      ∃ p ∈ guestProofs (invitation (.const (.num 3)) (.const (.num 3))),
        p.SelfContained ∧ p.steps.length = 3 := by
  have hrange : ∀ c ∈ (invitation (.const (.num 3)) (.const (.num 3))).toList,
      c.RangeRestricted := by decide
  obtain ⟨p, hp, hlength⟩ : ∃ p ∈ guestProofs (invitation (.const (.num 3)) (.const (.num 3))),
      p.steps.length = 3 := by decide +kernel
  exact ⟨hrange, p, hp,
    ((backward_proof_self_contained _ _ _ _ _ p hp).2.2.2.1 hrange).1, hlength⟩

/-- If everybody is free, then this is noted before it is known who comes; that the guest is free is
    not noted, and the explanation has no number for it. -/
theorem backward_proof_lacks_step :
    ∃ p ∈ guestProofs (invitation (.var (.num 7)) (.const (.num 3))), ¬ p.SelfContained ∧
      ∃ e ∈ p.steps, ∃ b ∈ e.2.body,
        GoalProof.placeText p.atoms (p.unifier.applyAtom b) = "-1" := by
  decide +kernel

end Clausal
