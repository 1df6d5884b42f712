import Clausal.Chaining.Base
import Clausal.Proofs.Chaining.Steps
import Clausal.Proofs.Resolution.Soundness

/-!
# Soundness of chaining

Both kinds of chaining apply clauses that are true to atoms that are true.  A forward search stores
only what is true wherever the clauses are, so a goal that it finds has a true instance.  On each
branch of a backward search, the goal is true under every solution of the branch's unifier that makes
the open tasks true; a proof has no open tasks.

The clauses are true in an interpretation of the formulas that were told once it has been changed on
Skolem symbols, and so the unifier of a proof may name things by Skolem symbols of which the formulas
say nothing.

## Main definitions

- `Application.Sound`: applying a clause is a step from its body to the goal
- `ForwardQuery.Sound`: everything that was inferred is true
- `ProofTask.Holds`, `Branch.Sound`: what a task asks for, and that the goal follows from the tasks

## Main statements

- `ForwardQuery.Sound.next`, `ProofSearch.Sound.next`: a step keeps a search sound
- `chaining_sound`
-/

namespace Clausal

universe u

variable {D : Type u} {I : Interpretation D}

/-! ## Section 1: Applying clauses -/

/-- A clause as it was applied to a goal: its head is the goal under every solution of the unifier,
    so the goal is true wherever the body is. -/
structure Application.Sound (I : Interpretation D) (goal : Atom) (σ : Substitution)
    (a : Application) : Prop where
  acyclic : a.unifier.Acyclic
  solves : ∀ θ, a.unifier.Solves θ → σ.Solves θ
  proper : ∀ b ∈ a.clause.body, b.Proper
  models : ∀ θ, a.unifier.Solves θ → (∀ b ∈ a.clause.body, I.Models (.atom (b.subst θ))) →
    I.Models (.atom (goal.subst θ))

namespace Interpretation

theorem Accepts.subst (hI : I.SymmetricEq) {c : Clause} (h : I.Accepts c) (θ : Ident → Term) :
    I.Accepts (c.subst θ) :=
  ⟨h.models.subst hI θ, (c.isImage_subst θ).proper h.proper⟩

theorem Models.exists_holds {θ : Ident → Term} {a : Atom} (h : I.Models (.atom (a.subst θ))) :
    ∃ v, I.HoldsAtom v a :=
  ⟨_, (I.holdsAtom_subst I.const θ a).mp (h I.const)⟩

/-- The head of an accepted clause is true wherever the body is. -/
theorem Accepts.models_head {d : DefiniteClause} (h : I.Accepts d.clause) {θ : Ident → Term}
    (hbody : ∀ b ∈ d.body, I.Models (.atom (b.subst θ))) : I.Models (.atom (d.head.subst θ)) := by
  intro v
  refine (I.holdsAtom_subst v θ d.head).mpr (DefiniteClause.holdsClause_iff.mp (h.models _) ?_)
  intro b hb
  exact (I.holdsAtom_subst v θ b).mp (hbody b hb v)

theorem Accepts.proper_head {d : DefiniteClause} (h : I.Accepts d.clause) : d.head.Proper :=
  h.proper ⟨true, d.head⟩ (DefiniteClause.mem_literals.mpr rfl)

theorem Accepts.proper_body {d : DefiniteClause} (h : I.Accepts d.clause) :
    ∀ b ∈ d.body, b.Proper :=
  fun _ hb => h.proper _ (DefiniteClause.mem_body.mp hb)

end Interpretation

theorem ClauseStore.sound_of_mem_applications (hI : I.SymmetricEq) {t : ClauseStore}
    (ht : ∀ d ∈ t.toList, I.Accepts d.clause) {goal : Atom} (hgoal : goal.Proper)
    {σ : Substitution} (hσ : σ.Acyclic) {s : Names} {a : Application}
    (h : a ∈ (t.applications s goal σ).1) : a.Sound I goal σ := by
  obtain ⟨d, hd, s', -, -, ha, hunify⟩ := of_mem_applications h
  have haccepts : I.Accepts a.clause.clause := ha ▸ (ht d hd).subst hI _
  obtain ⟨hacyclic, hsolves⟩ :=
    Atom.beq_subst_of_solves hσ haccepts.proper_head hgoal hunify
  refine ⟨hacyclic, fun θ hθ => (hsolves θ hθ).1, haccepts.proper_body, fun θ hθ hbody v => ?_⟩
  exact (Interpretation.holdsAtom_of_beq hI v (hsolves θ hθ).2).mp (haccepts.models_head hbody v)

/-! ## Section 2: Forward chaining -/

section Forward

variable {t : ClauseStore} {s : Names}

theorem Application.Sound.models_of_isFact {goal : Atom} {σ : Substitution} {a : Application}
    (h : a.Sound I goal σ) (hfact : a.clause.isFact = true) {θ : Ident → Term}
    (hθ : a.unifier.Solves θ) : I.Models (.atom (goal.subst θ)) := by
  have hbody : a.clause.body = [] := List.isEmpty_iff.mp hfact
  exact h.models θ hθ (by simp [hbody])

/-- A body that was matched with facts is true under every solution of the unifier. -/
theorem ClauseStore.models_of_mem_matchBody (hI : I.SymmetricEq)
    (ht : ∀ d ∈ t.toList, I.Accepts d.clause) {as : List Atom} (has : ∀ a ∈ as, a.Proper)
    {i j : Inference} (hi : i.unifier.Acyclic) (h : j ∈ (t.matchBody as s i).1) :
    j.rule = i.rule ∧ j.unifier.Acyclic ∧ ∀ θ, j.unifier.Solves θ →
      i.unifier.Solves θ ∧ ∀ a ∈ as, I.Models (.atom (a.subst θ)) := by
  induction as generalizing s i with
  | nil =>
    obtain rfl : j = i := List.mem_singleton.mp h
    exact ⟨rfl, hi, fun θ hθ => ⟨hθ, by simp⟩⟩
  | cons a as ih =>
    obtain ⟨ha, has⟩ := List.forall_mem_cons.mp has
    obtain ⟨f, hf, hfact, s', -, -, hj⟩ := of_mem_matchBody_cons h
    have hsound := sound_of_mem_applications hI ht ha hi hf
    obtain ⟨hrule, hacyclic, hsolves⟩ := ih has hsound.acyclic hj
    refine ⟨hrule, hacyclic, fun θ hθ => ?_⟩
    obtain ⟨hθ, hrest⟩ := hsolves θ hθ
    exact ⟨hsound.solves θ hθ,
      List.forall_mem_cons.mpr ⟨hsound.models_of_isFact hfact hθ, hrest⟩⟩

/-- What a rule infers is true, and as a fact it is accepted. -/
theorem ClauseStore.accepts_of_mem_inferences (hI : I.SymmetricEq)
    (ht : ∀ d ∈ t.toList, I.Accepts d.clause) {d : DefiniteClause} (hd : I.Accepts d.clause)
    {i : Inference} (h : i ∈ (t.inferences s d).1) :
    I.Accepts (DefiniteClause.ofAtom i.conclusion).clause := by
  obtain ⟨hrule, hacyclic, hsolves⟩ :=
    models_of_mem_matchBody hI ht hd.proper_body Substitution.acyclic_empty h
  have hrule : i.rule = d := hrule
  have hmodels : I.Models (.atom i.conclusion) := by
    unfold Inference.conclusion
    rw [hrule]
    exact hd.models_head (hsolves _ hacyclic.solves_value).2
  have hproper : i.conclusion.Proper := by
    unfold Inference.conclusion
    rw [hrule]
    exact (Atom.proper_subst _ _).mpr hd.proper_head
  refine ⟨fun v => DefiniteClause.holdsClause_iff.mpr fun _ => hmodels v, fun l hl => ?_⟩
  obtain rfl : l = ⟨true, i.conclusion⟩ := List.mem_singleton.mp hl
  exact hproper

end Forward

/-- The rules that are left and the new facts are accepted. -/
def ForwardTask.Sound (I : Interpretation D) : ForwardTask → Prop
  | .initial => True
  | .round _ => True
  | .rules left new => (∀ d ∈ left, I.Accepts d.clause) ∧
      ∀ a ∈ new, I.Accepts (DefiniteClause.ofAtom a).clause

namespace ForwardQuery

/-- A search among accepted clauses, which is answered positively only if the goal has a true
    instance. -/
structure Sound (I : Interpretation D) (goal : Atom) (q : ForwardQuery) : Prop where
  asks : q.goal = goal
  store : ∀ d ∈ q.store.toList, I.Accepts d.clause
  task : q.task.Sound I
  result : q.result = some true → ∃ v, I.HoldsAtom v goal

namespace Sound

variable {goal : Atom} {q : ForwardQuery} {new : List Atom}

theorem enterRound (h : q.Sound I goal) : (q.enterRound new).Sound I goal := by
  unfold ForwardQuery.enterRound
  split
  · exact ⟨h.asks, h.store, h.task, by simp⟩
  · exact ⟨h.asks, h.store, trivial, h.result⟩

private theorem enterRules (h : q.Sound I goal) {left : List DefiniteClause}
    (htask : (ForwardTask.rules left new).Sound I) : (q.enterRules left new).Sound I goal := by
  unfold ForwardQuery.enterRules
  split
  next =>
    refine enterRound ⟨h.asks, fun d hd => ?_, h.task, h.result⟩
    rcases ClauseStore.mem_addAll hd with hd | hd
    · exact h.store d hd
    · obtain ⟨a, ha, rfl⟩ := List.mem_map.mp hd
      exact htask.2 a ha
  next => exact ⟨h.asks, h.store, htask, h.result⟩

private theorem enter (hI : I.SymmetricEq) (hgoal : goal.Proper) (h : q.Sound I goal) (s : Names) :
    (q.enter s).1.Sound I goal := by
  unfold ForwardQuery.enter
  dsimp only
  split
  next f fs hfound =>
    have hf : f ∈ (q.store.factApplications s q.goal .empty).1 := by simp [hfound]
    obtain ⟨hf, hfact⟩ := ClauseStore.mem_factApplications.mp hf
    rw [h.asks] at hf
    have hsound := ClauseStore.sound_of_mem_applications hI h.store hgoal
      Substitution.acyclic_empty hf
    -- a fact that was applied to the goal states one of its instances
    refine ⟨h.asks, h.store, h.task, fun _ => ?_⟩
    exact (hsound.models_of_isFact hfact hsound.acyclic.solves_value).exists_holds
  next => exact h.enterRound

/-- Taking in true conclusions keeps a search sound, and so are the new facts. -/
theorem learn (hI : I.SymmetricEq) (hgoal : goal.Proper) (h : q.Sound I goal)
    (hnew : ∀ a ∈ new, I.Accepts (DefiniteClause.ofAtom a).clause) {is : List Inference}
    (his : ∀ i ∈ is, I.Accepts (DefiniteClause.ofAtom i.conclusion).clause) :
    (q.learn new is).2.Sound I goal ∧ ((q.learn new is).2.isComplete = false →
      ∀ a ∈ (q.learn new is).1, I.Accepts (DefiniteClause.ofAtom a).clause) := by
  rcases q.learn_cases new is with ⟨i, hi, proof, hunify, heq⟩ | ⟨⟨proof, heq⟩, -, hfrom, -⟩
  · rw [heq]
    refine ⟨⟨h.asks, h.store, h.task, fun _ => ?_⟩, fun hc => by cases hc⟩
    -- the conclusion and the goal have an instance in common, and the conclusion is true
    obtain ⟨τ, hτ⟩ := Option.isSome_iff_exists.mp hunify
    rw [h.asks] at hτ
    obtain ⟨hacyclic, hsolves⟩ := Atom.beq_subst_of_solves Substitution.acyclic_empty
      (his i hi).proper_head hgoal hτ
    have hbeq := (hsolves _ hacyclic.solves_value).2
    have hmodels : I.Models (.atom (goal.subst τ.value)) := fun v =>
      (Interpretation.holdsAtom_of_beq hI v hbeq).mp ((his i hi).models_head (by simp) v)
    exact hmodels.exists_holds
  · rw [heq]
    refine ⟨⟨h.asks, h.store, h.task, h.result⟩, fun _ a ha => ?_⟩
    rcases hfrom a ha with ha | ⟨i, hi, rfl, -⟩
    · exact hnew a ha
    · exact his i hi

/-- A step keeps a search sound. -/
theorem next (hI : I.SymmetricEq) (hgoal : goal.Proper) {s : Names} (h : q.Sound I goal) :
    (ForwardQuery.next (q, s)).1.Sound I goal := by
  have htask := h.task
  unfold ForwardQuery.next
  dsimp only
  split
  next => exact h
  next new _ =>
    -- a round begins with copies of rules of the store
    refine h.enterRules ⟨fun d hd => ?_, by simp⟩
    obtain ⟨e, he, s', -, -, rfl⟩ := of_mem_relevantRules hd
    exact (h.store e (ClauseStore.mem_rules.mp he).1).subst hI _
  next => exact h
  next rule left new heq =>
    -- what the first rule infers is true, so it may be stored at the end of the round
    rw [heq] at htask
    obtain ⟨hleft, hnew⟩ := htask
    obtain ⟨hrule, hleft⟩ := List.forall_mem_cons.mp hleft
    obtain ⟨hsound, hlearn⟩ := h.learn hI hgoal hnew fun i hi =>
      ClauseStore.accepts_of_mem_inferences hI h.store hrule hi
    split
    next => exact hsound
    next hc => exact hsound.enterRules ⟨hleft, hlearn (by simpa using hc)⟩

end Sound

/-- A positive answer is right wherever the clauses are true. -/
theorem exists_holds_of_execute (hI : I.SymmetricEq) {t : ClauseStore}
    (ht : ∀ d ∈ t.toList, I.Accepts d.clause) {goal : Atom} (hgoal : goal.Proper) {n : Nat}
    {s : Names} (h : ((start t goal).execute n s).1 = .ok true) : ∃ v, I.HoldsAtom v goal := by
  have hstart : ({ start t goal with begun := true } : ForwardQuery).Sound I goal :=
    ⟨rfl, fun d hd => ht d (ClauseStore.mem_ofList hd), trivial, by simp [start]⟩
  obtain ⟨x, hx, hresult⟩ := of_execute (P := fun x => x.1.Sound I goal) h
    (hstart.enter hI hgoal s) fun x _ hx => hx.next hI hgoal
  exact hx.result hresult

end ForwardQuery

/-! ## Section 3: Backward chaining -/

/-- What a task asks for is true under a solution. -/
def ProofTask.Holds (I : Interpretation D) (θ : Ident → Term) : ProofTask → Prop
  | .prove g => I.Models (.atom (g.subst θ))
  | .attempt _ a => a.unifier.Solves θ ∧ ∀ b ∈ a.clause.body, I.Models (.atom (b.subst θ))
  | .close _ _ => True

/-- Tasks that may wait while others are done. -/
def ProofTask.Waits : ProofTask → Prop
  | .prove g => g.Proper
  | .attempt _ _ => False
  | .close _ _ => True

/-- A branch on which the goal follows from the open tasks.  A clause is tried under the unifier
    that it was found with, so no other task comes before it. -/
structure Branch.Sound (I : Interpretation D) (goal : Atom) (b : Branch) : Prop where
  acyclic : b.proof.unifier.Acyclic
  tasks : (∀ t ∈ b.tasks, t.Waits) ∨ ∃ g a ts, b.tasks = .attempt g a :: ts ∧
    a.Sound I g b.proof.unifier ∧ ∀ t ∈ ts, t.Waits
  models : ∀ θ, b.proof.unifier.Solves θ → (∀ t ∈ b.tasks, t.Holds I θ) →
    I.Models (.atom (goal.subst θ))

namespace Branch.Sound

variable {goal : Atom} {b : Branch}

/-- A proof proves the goal under its unifier. -/
theorem models_of_tasks_eq_nil (h : b.Sound I goal) (htasks : b.tasks = []) :
    I.Models (.atom (b.proof.unifier.applyAtom goal)) :=
  h.models _ h.acyclic.solves_value (by simp [htasks])

theorem closeGoals {ts : List ProofTask} {p : GoalProof} (hp : p.unifier.Acyclic)
    (hts : ∀ t ∈ ts, t.Waits)
    (h : ∀ θ, p.unifier.Solves θ → (∀ t ∈ ts, t.Holds I θ) → I.Models (.atom (goal.subst θ))) :
    (closeGoals ts p).Sound I goal := by
  obtain ⟨hunifier, closed, heq, hclosed⟩ := exists_closed ts p
  refine ⟨hunifier ▸ hp, Or.inl fun t ht => hts t ?_, fun θ hθ hholds => ?_⟩
  · rw [heq]
    exact List.mem_append_right _ ht
  · refine h θ (hunifier ▸ hθ) fun t ht => ?_
    rw [heq] at ht
    rcases List.mem_append.mp ht with ht | ht
    · obtain ⟨g, d, rfl⟩ := hclosed t ht
      trivial
    · exact hholds t ht

end Branch.Sound

namespace ProofSearch

/-- A search among accepted clauses with sound branches only. -/
structure Sound (I : Interpretation D) (goal : Atom) (x : ProofSearch) : Prop where
  store : ∀ d ∈ x.store.toList, I.Accepts d.clause
  branches : ∀ b ∈ x.branches, b.Sound I goal

/-- The goal follows from the tasks once a clause is to be tried for the first of them. -/
theorem sound_of_mem_choices (hI : I.SymmetricEq) {t : ClauseStore}
    (ht : ∀ d ∈ t.toList, I.Accepts d.clause) {g : Atom} (hg : g.Proper) {ts : List ProofTask}
    (hts : ∀ t ∈ ts, t.Waits) {p : GoalProof} (hp : p.unifier.Acyclic) {goal : Atom}
    (h : ∀ θ, p.unifier.Solves θ → I.Models (.atom (g.subst θ)) → (∀ t ∈ ts, t.Holds I θ) →
      I.Models (.atom (goal.subst θ))) {s : Names} {b : Branch}
    (hb : b ∈ (choices t s g ts p).1) : b.Sound I goal := by
  obtain ⟨a, ha, rfl⟩ := List.mem_map.mp hb
  have hsound := ClauseStore.sound_of_mem_applications hI ht hg hp ha
  refine ⟨hp, Or.inr ⟨g, a, ts, rfl, hsound, hts⟩, fun θ hθ hholds => ?_⟩
  obtain ⟨⟨hsolves, hbody⟩, hrest⟩ := List.forall_mem_cons.mp hholds
  exact h θ hθ (hsound.models θ hsolves hbody) hrest

section Branches

variable {goal g : Atom} {b : Branch} {ts : List ProofTask}

/-- One branch for each clause that may prove the first task, under the unifier as it is. -/
theorem sound_of_prove (hI : I.SymmetricEq) {t : ClauseStore}
    (ht : ∀ d ∈ t.toList, I.Accepts d.clause) (hb : b.Sound I goal)
    (htasks : b.tasks = .prove g :: ts) {s : Names} {c : Branch}
    (hc : c ∈ (choices t s (b.proof.unifier.applyAtom g) ts b.proof).1) : c.Sound I goal := by
  rcases hb.tasks with hwaits | ⟨g', a, ts', heq, -⟩
  · rw [htasks] at hwaits
    obtain ⟨hg, hts⟩ := List.forall_mem_cons.mp hwaits
    refine sound_of_mem_choices hI ht ((Atom.proper_subst _ g).mpr hg) hts hb.acyclic
      (fun θ hθ hmodels hrest => hb.models θ hθ ?_) hc
    rw [htasks]
    refine List.forall_mem_cons.mpr ⟨?_, hrest⟩
    show I.Models (.atom (g.subst θ))
    rwa [Atom.subst_subst, funext (hθ.subst_value hb.acyclic)] at hmodels
  · rw [htasks] at heq
    cases heq

/-- The body of a clause takes the place of the atom that it is tried for. -/
theorem sound_of_attempt {a : Application} (hb : b.Sound I goal)
    (htasks : b.tasks = .attempt g a :: ts) :
    (closeGoals (a.clause.body.map .prove ++ .close g a.clause :: ts)
      { b.proof with unifier := a.unifier }).Sound I goal := by
  rcases hb.tasks with hwaits | ⟨g', a', ts', heq, hsound, hts⟩
  · exact absurd (hwaits (.attempt g a) (by simp [htasks])) id
  · rw [htasks] at heq
    obtain ⟨⟨rfl, rfl⟩, rfl⟩ := by simpa using heq
    refine Branch.Sound.closeGoals hsound.acyclic ?_ fun θ hθ hholds => ?_
    · refine List.forall_mem_append.mpr ⟨fun t ht => ?_, List.forall_mem_cons.mpr ⟨trivial, hts⟩⟩
      obtain ⟨c, hc, rfl⟩ := List.mem_map.mp ht
      exact hsound.proper c hc
    · -- what the clause was tried for holds once its body does
      obtain ⟨hbody, hrest⟩ := List.forall_mem_append.mp hholds
      refine hb.models θ (hsound.solves θ hθ) ?_
      rw [htasks]
      refine List.forall_mem_cons.mpr ⟨⟨hθ, fun c hc => ?_⟩, (List.forall_mem_cons.mp hrest).2⟩
      exact hbody (.prove c) (List.mem_map_of_mem hc)

/-- Noting what has been proved changes neither the unifier nor what is asked for. -/
theorem sound_of_close {d : DefiniteClause} (hb : b.Sound I goal)
    (htasks : b.tasks = .close g d :: ts) :
    (closeGoals (.close g d :: ts) b.proof).Sound I goal := by
  rcases hb.tasks with hwaits | ⟨g', a, ts', heq, -⟩
  · rw [← htasks]
    exact Branch.Sound.closeGoals hb.acyclic hwaits hb.models
  · rw [htasks] at heq
    cases heq

end Branches

namespace Sound

variable {goal : Atom}

private theorem start (hI : I.SymmetricEq) (hgoal : goal.Proper) {t : ClauseStore}
    (ht : ∀ d ∈ t.toList, I.Accepts d.clause) (s : Names) :
    (ProofSearch.start t s goal).Sound I goal where
  store := ht
  branches _ hb := sound_of_mem_choices hI ht hgoal (by simp) Substitution.acyclic_empty
    (fun _ _ hg _ => hg) hb

/-- A step keeps a search sound. -/
theorem next (hI : I.SymmetricEq) {x : ProofSearch} (h : x.Sound I goal) :
    x.next.Sound I goal := by
  unfold ProofSearch.next
  split
  next => exact h
  next b bs hbranches =>
    have hall := h.branches
    rw [hbranches] at hall
    obtain ⟨hb, hbs⟩ := List.forall_mem_cons.mp hall
    split
    next => exact h
    next g ts htasks =>
      exact ⟨h.store,
        List.forall_mem_append.mpr ⟨fun c hc => sound_of_prove hI h.store hb htasks hc, hbs⟩⟩
    next g a ts htasks =>
      exact ⟨h.store, List.forall_mem_cons.mpr ⟨sound_of_attempt hb htasks, hbs⟩⟩
    next g d ts htasks =>
      exact ⟨h.store, List.forall_mem_cons.mpr ⟨sound_of_close hb htasks, hbs⟩⟩

end Sound

end ProofSearch

/-- Every proof proves the goal under its unifier, wherever the clauses are true. -/
theorem BackwardQuery.models_of_mem_proofs (hI : I.SymmetricEq) {t : ClauseStore}
    (ht : ∀ d ∈ t.toList, I.Accepts d.clause) {goal : Atom} (hgoal : goal.Proper) {limit n : Nat}
    {s : Names} {p : GoalProof} (hp : p ∈ (proofs limit n t s { goal }).items) :
    I.Models (.atom (p.unifier.applyAtom goal)) := by
  refine ProofSearch.enumerate_invariant (P := (·.Sound I goal))
    (Q := fun p => I.Models (.atom (p.unifier.applyAtom goal))) (fun x _ hx => hx.next hI)
    (fun x b bs hx hbranches htasks => ?_) _ _ _ (.start hI hgoal ht s) (by simp) p hp
  have hall := hx.branches
  rw [hbranches] at hall
  obtain ⟨hb, hbs⟩ := List.forall_mem_cons.mp hall
  refine ⟨⟨hx.store, hbs⟩, fun _ a ha => ?_⟩
  obtain rfl := Option.some.inj ha
  exact hb.models_of_tasks_eq_nil htasks

/-! ## Section 4: Telling and asking -/

private theorem exists_of_mem_definiteClauses {cs : List Clause} {ds : List DefiniteClause}
    (h : definiteClauses cs = .ok ds) {d : DefiniteClause} (hd : d ∈ ds) :
    ∃ c ∈ cs, d.clause.literals = c.literals := by
  induction cs generalizing ds with
  | nil =>
    obtain rfl : [] = ds := Except.ok.inj h
    exact absurd hd List.not_mem_nil
  | cons c cs ih =>
    unfold definiteClauses at h
    split at h
    next => cases h
    next e he =>
      cases hes : definiteClauses cs with
      | error x => simp [hes, bind, Except.bind] at h
      | ok es =>
        obtain rfl : e :: es = ds := by simpa [hes, bind, Except.bind, pure, Except.pure] using h
        rcases List.mem_cons.mp hd with rfl | hd
        · refine ⟨c, List.mem_cons_self, ?_⟩
          unfold DefiniteClause.ofClause? at he
          split at he
          next => exact congrArg (·.clause.literals) (Option.some.inj he).symm
          next => cases he
        · obtain ⟨c', hc', heq⟩ := ih hes hd
          exact ⟨c', List.mem_cons_of_mem _ hc', heq⟩

/-- A formula is told by adding its clauses, if all of them are definite. -/
theorem RuleBase.tell_formula (b : RuleBase) (s : Names) (f : Formula) :
    (KnowledgeBase.tell (.formula f) : Telling RuleBase Unit) (b, s) =
      match definiteClauses (f.toCnf s).1.clauses with
      | .error e => (.error (.notDefinite e), (b, (f.toCnf s).2))
      | .ok ds => (.ok (), (⟨b.store.addAll ds⟩, (f.toCnf s).2)) := by
  show (match definiteClauses (f.toCnf s).1.clauses with
    | .error e => throw (.notDefinite e)
    | .ok ds => set ((⟨b.store.addAll ds⟩ : RuleBase), (f.toCnf s).2) : Telling RuleBase Unit)
      (b, (f.toCnf s).2) = _
  cases definiteClauses (f.toCnf s).1.clauses <;> rfl

private theorem Telling.tellAll_cons {κ : Type} [KnowledgeBase κ] (m : Node) (ms : List Node)
    (x : κ × Names) : (tellAll (m :: ms) : Telling κ Unit) x =
      match (KnowledgeBase.tell m : Telling κ Unit) x with
      | (.error e, y) => (.error e, y)
      | (.ok (), y) => (tellAll ms : Telling κ Unit) y := by
  show ExceptT.bindCont (fun _ => (tellAll ms : Telling κ Unit))
    ((KnowledgeBase.tell m : Telling κ Unit) x).1 ((KnowledgeBase.tell m : Telling κ Unit) x).2 = _
  rcases (KnowledgeBase.tell m : Telling κ Unit) x with ⟨_ | _, y⟩ <;> rfl

/-- The clauses of a base that has accepted formulas are those of the formulas. -/
theorem RuleBase.of_tellAll {b b' : RuleBase} {s s' : Names} {fs : List Formula}
    (h : (Telling.tellAll (fs.map .formula) : Telling RuleBase Unit) (b, s) = (.ok (), (b', s')))
    {d : DefiniteClause} (hd : d ∈ b'.store.toList) :
    d ∈ b.store.toList ∨ ∃ c ∈ (clausesOf s fs).1, d.clause.literals = c.literals := by
  induction fs generalizing b s with
  | nil =>
    cases h
    exact Or.inl hd
  | cons f fs ih =>
    rw [List.map_cons, Telling.tellAll_cons, tell_formula] at h
    cases hds : definiteClauses (f.toCnf s).1.clauses with
    | error e =>
      rw [hds] at h
      cases h
    | ok ds =>
      rw [hds] at h
      rcases ih h with hd | ⟨c, hc, heq⟩
      · refine (ClauseStore.mem_addAll hd).imp id fun hd => ?_
        obtain ⟨c, hc, heq⟩ := exists_of_mem_definiteClauses hds hd
        exact ⟨c, List.mem_append_left _ hc, heq⟩
      · exact Or.inr ⟨c, List.mem_append_right _ hc, heq⟩

/-- Where the clauses of formulas are true, so are those of a base that has accepted the formulas. -/
theorem RuleBase.accepts_of_tellAll {b : RuleBase} {s s' : Names} {fs : List Formula}
    (h : (Telling.tellAll (fs.map .formula) : Telling RuleBase Unit) ({}, s) = (.ok (), (b, s')))
    (hproper : ∀ f ∈ fs, f.Proper) (hI : ∀ c ∈ (clausesOf s fs).1, I.ModelsClause c) :
    ∀ d ∈ b.store.toList, I.Accepts d.clause := by
  intro d hd
  obtain ⟨c, hc, heq⟩ := (of_tellAll h hd).resolve_left List.not_mem_nil
  refine ⟨fun v => ?_, fun l hl => proper_clausesOf hproper c hc l (heq ▸ hl)⟩
  show I.HoldsSome v d.clause.literals
  rw [heq]
  exact hI c hc v

/-- Soundness of chaining: a positive answer of a forward search is right in every interpretation of
    the formulas that were told, and every such interpretation can be changed on new Skolem symbols,
    and nowhere else, so that all proofs of a backward search are right.  Where a proof does without
    new Skolem symbols, it is right as it stands. -/
theorem chaining_sound (s : Names) (fs : List Formula) (hissued : ∀ f ∈ fs, f.Issued s)
    (hproper : ∀ f ∈ fs, f.Proper) (goal : Atom) (hgoal : goal.Proper) (b : RuleBase) (s' : Names)
    (htell : (Telling.tellAll (fs.map .formula) : Telling RuleBase Unit) ({}, s) =
      (.ok (), (b, s')))
    {D : Type u} (I : Interpretation D) (hI : I.SymmetricEq) (hfs : ∀ f ∈ fs, I.Models f) :
    ((∀ g ∈ goal.functions, g ∉ skolemsOf s fs) → ∀ n r,
        ((ForwardQuery.start b.store goal).execute n r).1 = .ok true → ∃ v, I.HoldsAtom v goal) ∧
      ∃ J, Interpretation.SameExcept (· ∈ skolemsOf s fs) I J ∧ ∀ limit n r,
        ∀ p ∈ (BackwardQuery.proofs limit n b.store r { goal }).items,
          J.Models (.atom (p.unifier.applyAtom goal)) ∧
            ((∀ g ∈ (p.unifier.applyAtom goal).functions, g ∉ skolemsOf s fs) →
              I.Models (.atom (p.unifier.applyAtom goal))) := by
  -- the Skolem symbols are chosen once, for all searches
  obtain ⟨J, hJ, hclauses⟩ := I.exists_models_clausesOf hI hissued hfs
  have hJI := hJ.symmetricEq hI
  have haccepts := RuleBase.accepts_of_tellAll htell hproper hclauses
  refine ⟨fun hold n r hresult => ?_, J, hJ, fun limit n r p hp => ?_⟩
  · obtain ⟨v, hv⟩ := ForwardQuery.exists_holds_of_execute hJI haccepts hgoal hresult
    exact ⟨v, (hJ.holdsAtom v hold).mp hv⟩
  · have hmodels := BackwardQuery.models_of_mem_proofs hJI haccepts hgoal hp
    exact ⟨hmodels, fun hold v => (hJ.holdsAtom v hold).mp (hmodels v)⟩

/-- Everything is below something, and two steps up are a climb. -/
def ladder : List Formula :=
  [.all (.num 0) (.ex (.num 1) (.atom (.pred (.num 2) [.var (.num 0), .var (.num 1)]))),
    .imp (.and (.atom (.pred (.num 2) [.var (.num 0), .var (.num 1)]))
        (.atom (.pred (.num 2) [.var (.num 1), .var (.num 3)])))
      (.atom (.pred (.num 4) [.var (.num 0), .var (.num 3)]))]

/-- A climb from a given place. -/
def climb : Atom :=
  .pred (.num 4) [.const (.num 5), .var (.num 0)]

/-- What is left after the ladder has been told. -/
def ladderTold : RuleBase × Names :=
  ((Telling.tellAll (ladder.map .formula) : Telling RuleBase Unit) ({}, {})).2

theorem chaining_sound_ladder :
    ((ForwardQuery.start ladderTold.1.store climb).execute 3 ladderTold.2).1 = .ok true ∧
      (∀ f ∈ ladder, strictOrder.Models f) ∧ (∃ v, strictOrder.HoldsAtom v climb) ∧
      ∃ p ∈ (BackwardQuery.proofs 1 9 ladderTold.1.store ladderTold.2 { goal := climb }).items,
        ∃ J, Interpretation.SameExcept (· ∈ skolemsOf {} ladder) strictOrder J ∧
          J.Models (.atom (p.unifier.applyAtom climb)) := by
  have hresult : ((ForwardQuery.start ladderTold.1.store climb).execute 3 ladderTold.2).1 =
      .ok true := by decide +kernel
  have hmodels : ∀ f ∈ ladder, strictOrder.Models f := by
    intro f hf v
    simp only [ladder, List.mem_cons, List.not_mem_nil, or_false] at hf
    rcases hf with rfl | rfl
    · exact fun d => ⟨d + 1, d, d + 1, rfl, Nat.lt_succ_self d⟩
    · rintro ⟨⟨a, b, hab, hlt⟩, ⟨c, d, hcd, hlt'⟩⟩
      simp only [List.map_cons, List.map_nil, List.cons.injEq, and_true] at hab hcd
      exact ⟨a, d, by simp [hab.1, hcd.2], by omega⟩
  obtain ⟨hforward, J, hJ, hbackward⟩ := chaining_sound {} ladder (by decide) (by decide) climb
    (by decide) ladderTold.1 ladderTold.2 rfl strictOrder (fun _ _ h => h.symm) hmodels
  have hproofs : (BackwardQuery.proofs 1 9 ladderTold.1.store ladderTold.2
      { goal := climb }).items ≠ [] := by decide +kernel
  obtain ⟨p, hp⟩ := List.exists_mem_of_ne_nil _ hproofs
  exact ⟨hresult, hmodels, hforward (by decide) 3 ladderTold.2 hresult, p, hp, J, hJ,
    (hbackward 1 9 ladderTold.2 p hp).1⟩

/-- Where a proof names a thing by a new Skolem symbol, it need not be right as it stands: that
    something has a property does not say that the thing of this name has it. -/
theorem backward_proof_names_skolem : ∃ (b : RuleBase) (s : Names) (p : GoalProof),
    (Telling.tellAll [.formula somethingHas] : Telling RuleBase Unit) ({}, {}) = (.ok (), (b, s)) ∧
      p ∈ (BackwardQuery.proofs 5 9 b.store s { goal := .pred (.num 1) [.var (.num 2)] }).items ∧
      loneWitness.SymmetricEq ∧ loneWitness.Models somethingHas ∧
      ¬ loneWitness.Models (.atom (p.unifier.applyAtom (.pred (.num 1) [.var (.num 2)]))) := by
  refine ⟨_, _, _, rfl, List.mem_singleton.mpr rfl, fun a b h => h.symm, fun v => ⟨false, rfl⟩,
    fun h => ?_⟩
  have hname : loneWitness.HoldsAtom loneWitness.const
      (.pred (.num 1) [.app (.skolem 1 (.num 0) (some 0)) []]) := h loneWitness.const
  cases hname

end Clausal
