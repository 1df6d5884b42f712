import Clausal.Proofs.Chaining.Completeness

/-!
# Exhausted backward chaining

A backward search that comes to its end has found everything there is to be found.  What definite
clauses entail they derive, and a derivation of an instance of the goal shows the search which clause
to choose for each atom.  As long as the instance is not an instance of an answer, one of the
branches follows the derivation: there are values that solve its unifier, and under these values
all its open atoms are derived.  A search without branches has no such branch.

Nothing is said about how long a derivation is, since a search that does not end is not exhausted.

## Main definitions

- `Entails`, `Derives`: truth wherever the clauses are true, and derivations
- `Promise`: values under which open atoms are derived
- `Branch.Promising`, `ProofSearch.Promising`: a branch, and a search, that follows a derivation

## Main statements

- `Entails.derives`, `Derives.entails`: what clauses entail they derive, and nothing else
- `Promise.exists_application`: the lifting lemma
- `ProofSearch.Promising.next`: a step keeps the promise
- `backward_chaining_complete`
-/

namespace Clausal

/-! ## Section 1: Derivations -/

/-- An atom is true under all valuations wherever the clauses are. -/
def Entails (ds : List DefiniteClause) (a : Atom) : Prop :=
  ∀ (D : Type) (I : Interpretation D), I.SymmetricEq → (∀ d ∈ ds, I.ModelsClause d.clause) →
    I.Models (.atom a)

/-- The head of an instance of a clause is derived once the body is. -/
inductive Derives (ds : List DefiniteClause) : Atom → Prop
  | clause {d : DefiniteClause} (hd : d ∈ ds) (ρ : Ident → Term)
      (hbody : ∀ b ∈ d.body, Derives ds (b.subst ρ)) : Derives ds (d.head.subst ρ)

section Derivations

variable {ds es : List DefiniteClause} {a : Atom}

theorem Derives.exists_clause (h : Derives ds a) : ∃ d ∈ ds, ∃ ρ : Ident → Term,
    d.head.subst ρ = a ∧ ∀ b ∈ d.body, Derives ds (b.subst ρ) := by
  cases h with
  | clause hd ρ hbody => exact ⟨_, hd, ρ, rfl, hbody⟩

/-- What is derived is true in the interpretation by terms that has nothing else. -/
theorem modelsClause_derives {d : DefiniteClause} (hd : d ∈ ds) :
    (termModel {a | Derives ds a}).ModelsClause d.clause := by
  intro v
  rw [DefiniteClause.holdsClause_iff]
  intro hbody
  rw [holdsAtom_termModel]
  exact .clause hd v fun b hb => holdsAtom_termModel.mp (hbody b hb)

/-- No equation is derived by clauses without equality. -/
theorem symmetricEq_derives (hfree : ∀ d ∈ ds, d.EqualityFree) :
    (termModel {a | Derives ds a}).SymmetricEq := by
  intro l r hlr
  obtain ⟨d, hd, ρ, hhead, -⟩ := Derives.exists_clause hlr
  have hsymbol : d.head.symbol = .equality := by
    calc d.head.symbol = (d.head.subst ρ).symbol := (Atom.symbol_subst ρ d.head).symm
      _ = .equality := by rw [hhead]; rfl
  exact absurd hsymbol (hfree d hd).head

/-- What clauses entail they derive: otherwise it would be false where only derived atoms are
    true. -/
theorem Entails.derives (h : Entails ds a) (hfree : ∀ d ∈ ds, d.EqualityFree) :
    Derives ds a := by
  have hholds := h Term _ (symmetricEq_derives hfree) (fun d hd => modelsClause_derives hd) .var
  have hmem := holdsAtom_termModel.mp hholds
  rwa [Atom.subst_var] at hmem

theorem Derives.entails (h : Derives ds a) : Entails ds a := by
  intro D I hI hmodels
  induction h with
  | @clause d hd ρ hbody ih =>
    intro v
    apply (I.holdsAtom_subst v ρ d.head).mpr
    apply DefiniteClause.holdsClause_iff.mp (hmodels d hd _)
    intro b hb
    exact (I.holdsAtom_subst v ρ b).mp (ih b hb v)

/-- Equal clauses derive the same. -/
theorem Derives.of_beq (hfree : ∀ d ∈ ds, d.EqualityFree)
    (hes : ∀ d ∈ ds, ∃ e ∈ es, (d == e) = true) (h : Derives ds a) : Derives es a := by
  induction h with
  | @clause d hd ρ hbody ih =>
    obtain ⟨e, he, hde⟩ := hes d hd
    have hd := hfree d hd
    rw [← hd.head_eq hde]
    refine .clause he ρ fun b hb => ?_
    exact ih b ((hd.mem_body_iff hde).mp hb)

end Derivations

/-! ## Section 2: Promises -/

/-- A promise that a partial proof can be completed to one of an instance of the goal.  The values
    `υ` solve the unifier, and all open atoms are derived under them.  They are the values `θ` of the
    instance as far as names are older than the serial `n`; names up to `m` are in use. -/
structure Promise (ds : List DefiniteClause) (n : Nat) (θ : Ident → Term) (m : Nat)
    (σ : Substitution) (atoms : List Atom) (υ : Ident → Term) : Prop where
  age : n ≤ m
  old : ∀ y, y.Below n → υ y = θ y
  acyclic : σ.Acyclic
  inUse : σ.Over (Ident.Below m)
  solves : σ.Solves υ
  free : ∀ a ∈ atoms, a.symbol ≠ .equality
  below : ∀ a ∈ atoms, ∀ x ∈ a.vars, x.Below m
  derived : ∀ a ∈ atoms, Derives ds (a.subst υ)

namespace Promise

variable {ds : List DefiniteClause} {n m : Nat} {θ υ : Ident → Term} {σ : Substitution}
  {atoms : List Atom}

private theorem mono {m' : Nat} (h : Promise ds n θ m σ atoms υ) (hm : m ≤ m') :
    Promise ds n θ m' σ atoms υ where
  age := Nat.le_trans h.age hm
  old := h.old
  acyclic := h.acyclic
  inUse := h.inUse.mono fun _ hx => hx.mono hm
  solves := h.solves
  free := h.free
  below a ha x hx := (h.below a ha x hx).mono hm
  derived := h.derived

/-- At the beginning, the goal itself is open. -/
theorem start {goal : Atom} (hgoal : goal.symbol ≠ .equality) (hvars : ∀ x ∈ goal.vars, x.Below n)
    (h : Derives ds (goal.subst θ)) : Promise ds n θ n .empty [goal] θ where
  age := Nat.le_refl n
  old _ _ := rfl
  acyclic := Substitution.acyclic_empty
  inUse := Substitution.over_empty _
  solves := Substitution.solves_empty θ
  free := List.forall_mem_singleton.mpr hgoal
  below := List.forall_mem_singleton.mpr hvars
  derived := List.forall_mem_singleton.mpr h

/-- The instance of the goal is an instance of the answer that the unifier gives. -/
theorem instance_of_answer (h : Promise ds n θ m σ atoms υ) {goal : Atom}
    (hvars : ∀ x ∈ goal.vars, x.Below n) : (σ.applyAtom goal).subst υ = goal.subst θ := by
  calc (σ.applyAtom goal).subst υ = goal.subst υ := by
        rw [Substitution.applyAtom, Atom.subst_subst, funext (h.solves.subst_value h.acyclic)]
    _ = goal.subst θ := Atom.subst_congr fun x hx => h.old x (hvars x hx)

/-- The lifting lemma: among the ways to prove the first open atom is one that follows its
    derivation. -/
theorem exists_application {t : ClauseStore} (ht : t.Keyed)
    (hfree : ∀ d ∈ t.toList, d.EqualityFree) {s : Names} {g : Atom}
    (h : Promise t.toList n θ s.next σ (g :: atoms) υ) :
    ∃ f ∈ (t.applications s (σ.applyAtom g) σ).1, ∃ υ',
      Promise t.toList n θ (t.applications s (σ.applyAtom g) σ).2.next f.unifier
        (f.clause.body ++ atoms) υ' := by
  obtain ⟨hg, hatoms⟩ := List.forall_mem_cons.mp h.free
  obtain ⟨hgvars, hvars⟩ := List.forall_mem_cons.mp h.below
  obtain ⟨hgderived, hderived⟩ := List.forall_mem_cons.mp h.derived
  obtain ⟨d, hd, ρ, hhead, hbody⟩ := hgderived.exists_clause
  have hvalue : (σ.applyAtom g).subst υ = g.subst υ := by
    rw [Substitution.applyAtom, Atom.subst_subst, funext (h.solves.subst_value h.acyclic)]
  have hsymbol : (σ.applyAtom g).symbol ≠ .equality := by
    rw [Substitution.applyAtom, Atom.symbol_subst]
    exact hg
  have hbelow : ∀ x ∈ (σ.applyAtom g).vars, x.Below s.next := by
    intro x hx
    obtain ⟨y, hy, hx⟩ := Atom.mem_vars_subst.mp hx
    exact h.inUse.value h.acyclic (hgvars y hy) x hx
  obtain ⟨f, hf, hacyclic, hover, υ', hold, hsolves, hcopy⟩ := ClauseStore.exists_application ht hd
    (hfree d hd) hsymbol hbelow h.acyclic h.inUse h.solves (hhead.trans hvalue.symm)
  -- the atoms of the body are those of a copy of a clause, whose variables are new
  obtain ⟨e, he, s', -, hle', hclause, -⟩ := ClauseStore.of_mem_applications hf
  have hle := t.next_le_next_applications s (σ.applyAtom g) σ
  refine ⟨f, hf, υ', Nat.le_trans h.age hle, fun y hy => ?_, hacyclic, hover, hsolves, ?_, ?_, ?_⟩
  · exact (hold y (hy.mono h.age)).trans (h.old y hy)
  · refine List.forall_mem_append.mpr ⟨?_, hatoms⟩
    rw [hclause]
    exact ((hfree e he).renameApart s').body
  · refine List.forall_mem_append.mpr ⟨fun b hb x hx => ?_, fun b hb x hx => ?_⟩
    · rw [hclause] at hb
      have hx := DefiniteClause.mem_vars_renameApart (DefiniteClause.vars_body_subset hb hx)
      exact hx.2.mono hle'
    · exact (hvars b hb x hx).mono hle
  · refine List.forall_mem_append.mpr ⟨fun b hb => ?_, fun b hb => ?_⟩
    · obtain ⟨c, hc, heq⟩ := hcopy b hb
      rw [heq]
      exact hbody c hc
    · rw [Atom.subst_congr fun x hx => hold x (hvars b hb x hx)]
      exact hderived b hb

end Promise

/-! ## Section 3: Branches that keep a promise -/

/-- Whether a clause is to be tried. -/
def ProofTask.isAttempt : ProofTask → Bool
  | .attempt _ _ => true
  | _ => false

/-- The atoms that a task leaves to be proved. -/
def ProofTask.atoms : ProofTask → List Atom
  | .prove goal => [goal]
  | .attempt _ a => a.clause.body
  | .close _ _ => []

/-- The unifier under which the tasks of a branch are to be done: if a clause is to be tried, the one
    that it was found with. -/
def Branch.unifier (b : Branch) : Substitution :=
  match b.tasks with
  | .attempt _ a :: _ => a.unifier
  | _ => b.proof.unifier

/-- A branch that can be completed.  Only the first task may be to try a clause. -/
structure Branch.Promising (ds : List DefiniteClause) (n : Nat) (θ : Ident → Term) (m : Nat)
    (b : Branch) : Prop where
  waits : ∀ k ∈ b.tasks.tail, k.isAttempt = false
  promise : ∃ υ, Promise ds n θ m b.unifier (b.tasks.flatMap ProofTask.atoms) υ

namespace Branch

variable {ds : List DefiniteClause} {n m : Nat} {θ υ : Ident → Term}

theorem unifier_of_waits {b : Branch} (h : ∀ k ∈ b.tasks, k.isAttempt = false) :
    b.unifier = b.proof.unifier := by
  unfold unifier
  split
  next g a ts htasks =>
    have hattempt := h (.attempt g a) (by simp [htasks])
    cases hattempt
  next => rfl

private theorem Promising.mono {b : Branch} {m' : Nat} (h : b.Promising ds n θ m) (hm : m ≤ m') :
    b.Promising ds n θ m' := by
  obtain ⟨υ, hυ⟩ := h.promise
  exact ⟨h.waits, υ, hυ.mono hm⟩

/-- Noting what has been proved leaves all open atoms. -/
theorem promising_closeGoals {ts : List ProofTask} {p : GoalProof}
    (hts : ∀ k ∈ ts, k.isAttempt = false)
    (h : Promise ds n θ m p.unifier (ts.flatMap ProofTask.atoms) υ) :
    (closeGoals ts p).Promising ds n θ m := by
  obtain ⟨hunifier, done, heq, hdone⟩ := exists_closed ts p
  have hwaits : ∀ k ∈ (closeGoals ts p).tasks, k.isAttempt = false := by
    intro k hk
    apply hts
    rw [heq]
    exact List.mem_append_right _ hk
  have hatoms : done.flatMap ProofTask.atoms = [] := by
    rw [List.flatMap_eq_nil_iff]
    intro k hk
    obtain ⟨g, d, rfl⟩ := hdone k hk
    rfl
  refine ⟨fun k hk => hwaits k (List.mem_of_mem_tail hk), υ, ?_⟩
  rw [unifier_of_waits hwaits, hunifier]
  rw [heq, List.flatMap_append, hatoms, List.nil_append] at h
  exact h

/-- A clause that follows the promise is tried on one of the new branches. -/
theorem exists_promising_choice {t : ClauseStore} (ht : t.Keyed)
    (hfree : ∀ d ∈ t.toList, d.EqualityFree) {s : Names} {g : Atom} {ts : List ProofTask}
    {p : GoalProof} (hts : ∀ k ∈ ts, k.isAttempt = false)
    (h : Promise t.toList n θ s.next p.unifier (g :: ts.flatMap ProofTask.atoms) υ) :
    ∃ b ∈ (ProofSearch.choices t s (p.unifier.applyAtom g) ts p).1,
      b.Promising t.toList n θ (ProofSearch.choices t s (p.unifier.applyAtom g) ts p).2.next := by
  obtain ⟨f, hf, υ', hυ'⟩ := h.exists_application ht hfree
  exact ⟨_, List.mem_map_of_mem hf, hts, υ', hυ'⟩

end Branch

namespace ProofSearch

/-- A search with a branch that can be completed. -/
structure Promising (t : ClauseStore) (n : Nat) (θ : Ident → Term) (x : ProofSearch) : Prop where
  store : x.store = t
  branch : ∃ b ∈ x.branches, b.Promising t.toList n θ x.names.next

variable {t : ClauseStore} {n : Nat} {θ : Ident → Term} {x : ProofSearch}

theorem promising_start (ht : t.Keyed) (hfree : ∀ d ∈ t.toList, d.EqualityFree) {goal : Atom}
    (hgoal : goal.symbol ≠ .equality) {s : Names} (hvars : ∀ x ∈ goal.vars, x.Below s.next)
    (h : Derives t.toList (goal.subst θ)) : (start t s goal).Promising t s.next θ := by
  refine ⟨rfl, ?_⟩
  have hself : Substitution.empty.applyAtom goal = goal := by
    rw [Substitution.applyAtom, funext Substitution.value_empty, Atom.subst_var]
  have hwaits : ∀ k ∈ ([] : List ProofTask), k.isAttempt = false := by simp
  have hchoice := Branch.exists_promising_choice (p := {}) ht hfree hwaits (.start hgoal hvars h)
  rw [hself] at hchoice
  exact hchoice

/-- The branch that keeps the promise is the first one, and its first task is done. -/
theorem exists_promising_of_head (ht : t.Keyed) (hfree : ∀ d ∈ t.toList, d.EqualityFree)
    (hstore : x.store = t) {b : Branch} {bs : List Branch} {k : ProofTask} {ts : List ProofTask}
    (hbs : x.branches = b :: bs) (htasks : b.tasks = k :: ts)
    (hb : b.Promising t.toList n θ x.names.next) :
    ∃ c ∈ x.next.branches, c.Promising t.toList n θ x.next.names.next := by
  obtain ⟨hwaits, υ, hυ⟩ := hb
  rw [next_eq hbs htasks]
  unfold Branch.unifier at hυ
  rw [htasks] at hwaits hυ
  cases k with
  | prove g =>
    -- the choice that follows the derivation of the atom
    subst hstore
    obtain ⟨c, hc, hpromising⟩ := Branch.exists_promising_choice ht hfree hwaits hυ
    exact ⟨c, List.mem_append_left _ hc, hpromising⟩
  | attempt g a =>
    -- the atoms of the body have been open since the clause was chosen
    have hbody : ∀ k ∈ a.clause.body.map .prove ++ .close g a.clause :: ts,
        k.isAttempt = false := by
      refine List.forall_mem_append.mpr ⟨?_, List.forall_mem_cons.mpr ⟨rfl, hwaits⟩⟩
      exact List.forall_mem_map.mpr fun _ _ => rfl
    have hatoms : (a.clause.body.map ProofTask.prove).flatMap ProofTask.atoms =
        a.clause.body := by
      rw [List.flatMap_map]
      exact List.flatMap_singleton' _
    refine ⟨_, List.mem_cons_self, Branch.promising_closeGoals hbody (υ := υ) ?_⟩
    rw [List.flatMap_append, hatoms]
    exact hυ
  | close g d =>
    refine ⟨_, List.mem_cons_self, Branch.promising_closeGoals (υ := υ) ?_ hυ⟩
    exact List.forall_mem_cons.mpr ⟨rfl, hwaits⟩

/-- A step keeps the promise. -/
theorem Promising.next (ht : t.Keyed) (hfree : ∀ d ∈ t.toList, d.EqualityFree)
    (hopen : x.isSettled = false) (h : x.Promising t n θ) : x.next.Promising t n θ := by
  obtain ⟨hstore, c, hc, hpromising⟩ := h
  obtain ⟨b, bs, k, ts, hbs, htasks⟩ := exists_task hopen
  refine ⟨(store_next hbs htasks).trans hstore, ?_⟩
  rw [hbs] at hc
  rcases List.mem_cons.mp hc with rfl | hc
  · exact exists_promising_of_head ht hfree hstore hbs htasks hpromising
  · -- another branch waits, and only the supply of names changes
    exact ⟨c, mem_branches_next hbs htasks hc, hpromising.mono (next_le_next_next hbs htasks)⟩

end ProofSearch

/-! ## Section 4: Answers -/

/-- An atom is an instance of the goal under one of the given substitutions. -/
def Answered (goal : Atom) (found : List Substitution) (a : Atom) : Prop :=
  ∃ σ ∈ found, ∃ ρ, (σ.applyAtom goal).subst ρ = a

namespace BackwardQuery

/-- The values that a proof gives to the variables of the goal, unless they were found before. -/
def newAnswer (goal : Atom) (found : List Substitution) (p : GoalProof) : Option Substitution :=
  if found.contains (p.unifier.restrict (dedup goal.vars)) then none
  else some (p.unifier.restrict (dedup goal.vars))

/-- After a proof has been looked at, its answer has been found, or one that is equal to it. -/
theorem exists_answer (goal : Atom) (found : List Substitution) {p : GoalProof}
    (hp : p.unifier.Acyclic) : ∃ σ ∈ found ++ (newAnswer goal found p).toList,
      σ.applyAtom goal = p.unifier.applyAtom goal := by
  have hvalue : (p.unifier.restrict (dedup goal.vars)).applyAtom goal =
      p.unifier.applyAtom goal := by
    refine Atom.subst_congr fun x hx => hp.value_restrict ?_
    obtain ⟨y, hy, hxy⟩ := exists_beq_mem_dedup hx
    exact eq_of_beq hxy ▸ hy
  unfold newAnswer
  split
  next hmem =>
    obtain ⟨σ, hσ, hbeq⟩ := List.contains_iff_exists_mem_beq.mp hmem
    refine ⟨σ, List.mem_append_left _ hσ, ?_⟩
    rw [← hvalue, Substitution.applyAtom, Substitution.applyAtom,
      Substitution.value_eq_of_beq hbeq]
  next => exact ⟨_, List.mem_append_right _ (by simp), hvalue⟩

variable {t : ClauseStore} {goal : Atom} {s : Names} {θ : Ident → Term}

/-- Once an enumeration is exhausted, every instance that is derived has been answered. -/
theorem answered_of_exhausted (ht : t.Keyed) (hfree : ∀ d ∈ t.toList, d.EqualityFree)
    (hgoal : goal.symbol ≠ .equality) (hvars : ∀ x ∈ goal.vars, x.Below s.next)
    (h : Derives t.toList (goal.subst θ)) {limit n : Nat}
    (hstop : (substitutions limit n t s { goal }).stop = .exhausted) :
    Answered goal (substitutions limit n t s { goal }).items (goal.subst θ) := by
  have hfound : ∀ found (x : ProofSearch) (b : Branch) (bs : List Branch),
      Answered goal found (goal.subst θ) ∨ x.Promising t s.next θ → x.branches = b :: bs →
        b.tasks = [] → Answered goal (found ++ (newAnswer goal found b.proof).toList) (goal.subst θ) ∨
          ({ x with branches := bs } : ProofSearch).Promising t s.next θ := by
    intro found x b bs hx hbs htasks
    rcases hx with ⟨σ, hσ, hinst⟩ | ⟨hstore, c, hc, hpromising⟩
    · exact Or.inl ⟨σ, List.mem_append_left _ hσ, hinst⟩
    · rw [hbs] at hc
      rcases List.mem_cons.mp hc with rfl | hc
      · -- the proof that is taken off is the one that keeps the promise
        obtain ⟨υ, hυ⟩ := hpromising.promise
        rw [Branch.unifier_of_waits (by simp [htasks])] at hυ
        obtain ⟨σ, hσ, heq⟩ := exists_answer goal found hυ.acyclic
        exact Or.inl ⟨σ, hσ, υ, by rw [heq, hυ.instance_of_answer hvars]⟩
      · exact Or.inr ⟨hstore, c, hc, hpromising⟩
  obtain ⟨x, hx, hanswered⟩ := ProofSearch.of_exhausted
    (fun found x hopen hx => hx.imp id fun hx => hx.next ht hfree hopen) hfound (n + 2) limit n
    (Or.inr (ProofSearch.promising_start ht hfree hgoal hvars h)) hstop
  refine hanswered.resolve_right fun hpromising => ?_
  obtain ⟨b, hb, -⟩ := hpromising.branch
  simp [hx] at hb

/-- A search that ends without a proof has no instance of the goal to find. -/
theorem not_derives_of_execute (ht : t.Keyed) (hfree : ∀ d ∈ t.toList, d.EqualityFree)
    (hgoal : goal.symbol ≠ .equality) (hvars : ∀ x ∈ goal.vars, x.Below s.next) {n : Nat}
    (h : (execute n t s { goal }).1 = .ok false) : ¬ Derives t.toList (goal.subst θ) := by
  intro hderives
  have hpromising : ((ProofSearch.start t s goal).seek n).2.Promising t s.next θ :=
    advance_invariant (fun x hopen hx => hx.next ht hfree hopen) n
      (ProofSearch.promising_start ht hfree hgoal hvars hderives)
  obtain ⟨b, hb, -⟩ := hpromising.branch
  unfold execute ProofSearch.status at h
  cases hbs : ((ProofSearch.start t s goal).seek n).2.branches with
  | nil => simp [hbs] at hb
  | cons c cs =>
    rw [if_neg (by simp)] at h
    dsimp only at h
    rw [hbs] at h
    cases htasks : c.tasks.isEmpty <;> simp [htasks] at h

end BackwardQuery

/-! ## Section 5: Completeness -/

/-- Completeness of exhausted backward chaining: if the enumeration of substitutions comes to its
    end, then every instance of the goal that the clauses entail is an instance of the goal under one
    of them, and if a search ends without a proof, then no instance of the goal is entailed. -/
theorem backward_chaining_complete (ds : List DefiniteClause) (goal : Atom)
    (hfree : ∀ d ∈ ds, d.EqualityFree) (hgoal : goal.symbol ≠ .equality) (s : Names)
    (hvars : ∀ x ∈ goal.vars, x.Below s.next) :
    (∀ limit n, (BackwardQuery.substitutions limit n (.ofList ds) s { goal }).stop = .exhausted →
        ∀ θ, Entails ds (goal.subst θ) →
          ∃ σ ∈ (BackwardQuery.substitutions limit n (.ofList ds) s { goal }).items,
            ∃ ρ, (σ.applyAtom goal).subst ρ = goal.subst θ) ∧
      ∀ n, (BackwardQuery.execute n (.ofList ds) s { goal }).1 = .ok false →
        ∀ θ, ¬ Entails ds (goal.subst θ) := by
  have hkeyed : (ClauseStore.ofList ds).Keyed :=
    ClauseStore.keyed_ofList _
  have hstored : ∀ d ∈ (ClauseStore.ofList ds).toList, d.EqualityFree :=
    fun d hd => hfree d (ClauseStore.mem_ofList hd)
  have hderives : ∀ {a}, Entails ds a → Derives (ClauseStore.ofList ds).toList a :=
    fun h => (h.derives hfree).of_beq hfree fun d hd => ClauseStore.exists_mem_addAll hd
  constructor
  · intro limit n hstop θ hentails
    exact BackwardQuery.answered_of_exhausted hkeyed hstored hgoal hvars (hderives hentails) hstop
  · intro n hresult θ hentails
    exact BackwardQuery.not_derives_of_execute hkeyed hstored hgoal hvars hresult
      (hderives hentails)

/-- Two links make a journey. -/
def twoLinks : DefiniteClause :=
  ⟨.ofList [⟨false, .pred (.num 0) [.var (.num 5), .var (.num 6)]⟩,
    ⟨false, .pred (.num 0) [.var (.num 6), .var (.num 7)]⟩,
    ⟨true, .pred (.num 4) [.var (.num 5), .var (.num 7)]⟩] .rule, by decide⟩

/-- One link between two places, and one from everywhere to a third place. -/
def journeys : List DefiniteClause :=
  [.ofAtom (.pred (.num 0) [.const (.num 1), .const (.num 2)]),
    .ofAtom (.pred (.num 0) [.var (.num 5), .const (.num 3)]), twoLinks]

/-- A journey from a given place to the third place. -/
def journeyFrom (c : Int) (x : Ident) : Term :=
  if x = .num 5 then .const (.num c) else .const (.num 3)

private theorem derives_journeyFrom (c : Int) :
    Derives journeys ((Atom.pred (.num 4) [.var (.num 5), .var (.num 7)]).subst (journeyFrom c)) := by
  have hlink : ∀ t, Derives journeys (.pred (.num 0) [t, .const (.num 3)]) := by
    intro t
    apply Derives.clause (d := .ofAtom (.pred (.num 0) [.var (.num 5), .const (.num 3)]))
      (List.mem_cons_of_mem _ List.mem_cons_self) (fun _ => t)
    intro b hb
    exact absurd hb List.not_mem_nil
  apply Derives.clause (d := twoLinks)
    (List.mem_cons_of_mem _ (List.mem_cons_of_mem _ List.mem_cons_self)) (journeyFrom c)
  intro b hb
  rcases List.mem_pair.mp hb with rfl | rfl
  · exact hlink _
  · exact hlink _

theorem backward_chaining_complete_journeys :
    let goal : Atom := .pred (.num 4) [.var (.num 5), .var (.num 7)]
    let found := BackwardQuery.substitutions 9 30 (.ofList journeys) {} { goal }
    let back : Atom := .pred (.num 4) [.var (.num 5), .const (.num 1)]
    (found.stop = .exhausted ∧ found.items.length = 2 ∧
        ∃ σ ∈ found.items, ∃ ρ, (σ.applyAtom goal).subst ρ = goal.subst (journeyFrom 8)) ∧
      (BackwardQuery.execute 30 (.ofList journeys) {} { goal := back }).1 = .ok false ∧
        ∀ θ, ¬ Entails journeys (back.subst θ) := by
  intro goal found back
  have hstop : found.stop = .exhausted := by decide +kernel
  have hresult :
      (BackwardQuery.execute 30 (.ofList journeys) {} { goal := back }).1 = .ok false := by
    decide +kernel
  refine ⟨⟨hstop, by decide +kernel, ?_⟩, hresult, ?_⟩
  · exact (backward_chaining_complete journeys goal (by decide) (by decide) {} (by decide)).1 9 30
      hstop (journeyFrom 8) (derives_journeyFrom 8).entails
  · exact (backward_chaining_complete journeys back (by decide) (by decide) {} (by decide)).2 30
      hresult

end Clausal
