import Clausal.Proofs.Chaining.Steps
import Clausal.Proofs.Relabelling.Supply
import Clausal.Proofs.Resolution.Search
import Clausal.Reasoner

/-!
# Supplies grow

Whatever is done with a reasoner, names are only handed out and never taken back: after a step of a
search, a question or a normal form, the supply has handed out at least as much as before.

## Main statements

- `Refutation.le_execute`, `ForwardQuery.le_execute`, `BackwardQuery.le_execute`: searches
- `Reasoner.le_ask`: questions
-/

namespace Clausal

/-! ## Section 1: Supplies -/

namespace Names

/-- Names that are skipped have been handed out. -/
theorem le_skip (s : Names) (n : Nat) : s ≤ s.skip n :=
  ⟨Nat.le_add_right _ _, Nat.le_refl _⟩

private theorem le_record (s : Names) (n : Node) : s ≤ s.record n := by
  refine ⟨Nat.le_refl _, ?_⟩
  simp [record]

/-- If no call takes names back, a sequence of calls does not. -/
theorem le_flatMap {α β : Type} {f : Names → α → List β × Names} (hf : ∀ s a, s ≤ (f s a).2)
    (s : Names) (l : List α) : s ≤ (s.flatMap f l).2 := by
  induction l generalizing s with
  | nil => exact le_refl s
  | cons a l ih => exact (hf s a).trans (ih _)

end Names

/-- A normal form takes names for variables and for Skolem symbols. -/
theorem Formula.le_toCnf (s : Names) (f : Formula) : s ≤ (f.toCnf s).2 :=
  ((s.le_record _).trans (Names.le_skip _ _)).trans (Names.le_skip _ _)

/-- A copy takes a name for each variable. -/
theorem Clause.le_renameApart (s : Names) (c : Clause) : s ≤ (c.renameApart s).2 :=
  s.le_skip _

/-! ## Section 2: Resolution -/

/-- Resolving takes names if a clause has to be renamed apart. -/
private theorem Clause.le_resolve (s : Names) (c d : Clause) : s ≤ (c.resolve s d).2 := by
  unfold resolve apartFrom
  dsimp only
  split
  next => exact d.le_renameApart s
  next => exact le_refl s

/-- Pairs are resolved one after the other. -/
theorem Agenda.le_queue (strategy : Strategy) (s : Names) (ps : List (Clause × Clause))
    (a : Agenda) : s ≤ (a.queue strategy s ps).2 :=
  Names.le_flatMap (fun s p => p.1.le_resolve s p.2) s ps

private theorem Agenda.le_start (strategy : Strategy) (s : Names) (new : List Clause) (a : Agenda) :
    s ≤ (a.start strategy s new).2 := by
  unfold start
  exact le_queue strategy s _ _

private theorem Agenda.le_extend (strategy : Strategy) (s : Names) (c : Clause) (a : Agenda) :
    s ≤ (a.extend strategy s c).2 := by
  unfold extend
  exact le_queue strategy s _ _

namespace Refutation

private theorem le_start (strategy : Strategy) (cs : List Clause) (s : Names) (f : Formula) :
    s ≤ (start strategy cs s f).2 :=
  (Formula.le_toCnf s (.not f)).trans ((Agenda.ofClauses cs).le_start strategy _ _)

/-- A step takes names only if it records a new resolvent. -/
private theorem le_next (x : Refutation × Names) : x.2 ≤ (next x).2 := by
  obtain ⟨q, s⟩ := x
  rcases next_cases q s with heq | ⟨r, rest, -, -, heq⟩
  · rw [heq]
  · rw [heq]
    -- of the three things that may become of a resolvent, only one uses names
    rcases record_cases s r { q with agenda := { q.agenda with pending := rest } } with
      ⟨-, heq⟩ | ⟨-, ⟨-, heq⟩ | ⟨-, heq⟩⟩
    · rw [heq]
    · rw [heq]
    · rw [heq]
      exact Agenda.le_extend q.strategy s r.resolvent { q.agenda with pending := rest }

/-- A search by resolution takes no name back, however far it gets. -/
theorem le_execute (n : Nat) (s : Names) (q : Refutation) : s ≤ (q.execute n s).2.2 := by
  have hrun : s ≤ (({ q with begun := true } : Refutation).run n s).2 :=
    advance_invariant (P := fun x => s ≤ x.2) (fun x _ hx => hx.trans (le_next x)) n (le_refl s)
  unfold execute
  split
  next => exact le_refl s
  next =>
    dsimp only
    split <;> exact hrun

end Refutation

/-! ## Section 3: Chaining -/

/-- A rule is copied whether or not its head fits the goal. -/
private theorem DefiniteClause.le_applyTo (goal : Atom) (σ : Substitution) (s : Names)
    (d : DefiniteClause) : s ≤ (d.applyTo goal σ s).2 := by
  unfold applyTo
  dsimp only
  split <;> exact s.le_skip _

namespace ClauseStore

/-- All rules are tried on the goal. -/
theorem le_applications (t : ClauseStore) (s : Names) (goal : Atom) (σ : Substitution) :
    s ≤ (t.applications s goal σ).2 :=
  Names.le_flatMap (DefiniteClause.le_applyTo goal σ) s _

/-- The conjuncts are matched one after the other, each on from where the last one ended. -/
private theorem le_matchBody (t : ClauseStore) (as : List Atom) (s : Names) (i : Inference) :
    s ≤ (t.matchBody as s i).2 := by
  induction as generalizing s i with
  | nil => exact le_refl s
  | cons a as ih =>
    -- the rest of the body is matched once for each way to match the first conjunct
    exact (t.le_applications s a i.unifier).trans (Names.le_flatMap (fun s _ => ih s _) _ _)

end ClauseStore

private theorem le_relevantRules (new : List Atom) (s : Names) (rules : List DefiniteClause) :
    s ≤ (relevantRules new s rules).2 :=
  Names.le_flatMap (fun s _ => s.le_skip _) s rules

namespace ForwardQuery

private theorem le_enter (s : Names) (q : ForwardQuery) : s ≤ (q.enter s).2 := by
  have hfound : s ≤ (q.store.factApplications s q.goal .empty).2 :=
    q.store.le_applications s q.goal .empty
  unfold enter
  dsimp only
  split <;> exact hfound

/-- Each kind of step of a forward search takes names or leaves them alone. -/
private theorem le_next (x : ForwardQuery × Names) : x.2 ≤ (next x).2 := by
  obtain ⟨q, s⟩ := x
  cases htask : q.task with
  | initial => simp only [next, htask, le_refl]
  | round new =>
    simp only [next, htask]
    exact le_relevantRules new s q.store.rules
  | rules left new =>
    cases left with
    | nil => simp only [next, htask, le_refl]
    | cons rule left =>
      have his : s ≤ (q.store.inferences s rule).2 := q.store.le_matchBody rule.body s { rule }
      simp only [next, htask]
      split <;> exact his

/-- A forward search takes no name back, however far it gets. -/
theorem le_execute (n : Nat) (s : Names) (q : ForwardQuery) : s ≤ (q.execute n s).2.2 := by
  have hrun : s ≤ (advance (fun x => x.1.isComplete) next n
      (({ q with begun := true } : ForwardQuery).enter s)).2.2 :=
    advance_invariant (P := fun x => s ≤ x.2) (fun x _ hx => hx.trans (le_next x)) n
      (le_enter s { q with begun := true })
  unfold execute
  split
  next => exact le_refl s
  next =>
    dsimp only
    split <;> exact hrun

end ForwardQuery

/-- A step of a backward search takes names where it looks for rules. -/
private theorem ProofSearch.le_next {x : ProofSearch} (h : x.isSettled = false) :
    x.names ≤ x.next.names := by
  obtain ⟨b, bs, k, ts, hbs, htasks⟩ := exists_task h
  rw [next_eq hbs htasks]
  -- what a goal needs is copied when it is taken up; later tasks work with these copies
  cases k with
  | prove goal => exact x.store.le_applications x.names _ _
  | attempt goal a => exact le_refl _
  | close goal d => exact le_refl _

/-- A backward search takes no name back, however far it gets. -/
theorem BackwardQuery.le_execute (n : Nat) (t : ClauseStore) (s : Names) (q : BackwardQuery) :
    s ≤ (q.execute n t s).2.2 := by
  have hstart : s ≤ (ProofSearch.start t s q.goal).names := t.le_applications s q.goal .empty
  have hrun : s ≤ ((ProofSearch.start t s q.goal).seek n).2.names :=
    advance_invariant (P := fun x : ProofSearch => s ≤ x.names)
      (fun x hx hle => hle.trans (ProofSearch.le_next hx)) n hstart
  unfold execute
  split
  next => exact le_refl s
  next =>
    dsimp only
    split <;> exact hrun

/-! ## Section 4: Reasoners -/

namespace Reasoner

private theorem le_query {r : Reasoner} {s s' : Names} {n : Node} {q : Question}
    (h : r.query s n = .ok (q, s')) : s ≤ s' := by
  cases r with
  | resolution b =>
    unfold query at h
    dsimp only at h
    split at h
    next => cases h
    next f _ =>
      obtain ⟨-, rfl⟩ := Prod.mk.inj (Except.ok.inj h)
      exact Refutation.le_start b.strategy b.clauses s f
  | forward b | backward b =>
    unfold query at h
    dsimp only at h
    split at h
    next =>
      obtain ⟨-, rfl⟩ := Prod.mk.inj (Except.ok.inj h)
      exact le_refl s
    next => cases h
  | idle =>
    unfold query at h
    dsimp only at h
    split at h <;> cases h

private theorem le_execute (n : Nat) (r : Reasoner) (s : Names) (q : Question) :
    s ≤ (q.execute n r s).2.2 := by
  cases q with
  | refutation q => exact q.le_execute n s
  | forward q => exact q.le_execute n s
  | backward q => exact q.le_execute n r.store s

/-- A question, answered or not, takes names and gives none back. -/
theorem le_ask (n : Nat) (r : Reasoner) (s : Names) (query : Node) : s ≤ (r.ask n s query).2 := by
  unfold ask
  cases hquery : r.query s query with
  | error e => exact le_refl s
  | ok x =>
    obtain ⟨q, s'⟩ := x
    have hexecute := r.le_execute n s' q
    refine (le_query hquery).trans ?_
    dsimp only
    generalize q.execute n r s' = y at hexecute ⊢
    obtain ⟨_ | _, _, _⟩ := y <;> exact hexecute

end Reasoner

end Clausal
