import Clausal.Chaining.Base
import Clausal.Proofs.Chaining.Steps
import Clausal.Proofs.Relabelling.Supply
import Clausal.Proofs.Relabelling.Unification

/-!
# Chaining under relabelling

Two stores that differ in labels have the same clauses in the same buckets up to labels, and with
supplies in step they find the same ways to apply a clause.  So forward chaining infers the same
facts round by round, and backward chaining explores the same branches one after the other.

## Main definitions

- `relabel` for definite clauses, stores and the states of both searches

## Main statements

- `ClauseStore.add_relabel`, `ClauseStore.relates_applications`
- `ForwardQuery.relates_next`, `ForwardQuery.execute_relabel`
- `ProofSearch.Follows.next`, `BackwardQuery.execute_relabel`
-/

namespace Clausal

open Relabelling

variable (π : Relabelling)

/-! ## Section 1: Definite clauses -/

theorem Clause.positives_relabel (c : Clause) :
    (c.relabel π).positives = c.positives.map (Literal.relabel π) := by
  rw [positives, literals_relabel, List.filter_map]
  rfl

private theorem Clause.negatives_relabel (c : Clause) :
    (c.relabel π).negatives = c.negatives.map (Literal.relabel π) := by
  rw [negatives, literals_relabel, List.filter_map]
  rfl

theorem Clause.isDefinite_relabel (c : Clause) : (c.relabel π).isDefinite = c.isDefinite := by
  rw [isDefinite, positives_relabel, List.length_map, isDefinite]

namespace DefiniteClause

/-- A definite clause with other labels. -/
def relabel (d : DefiniteClause) : DefiniteClause :=
  ⟨d.clause.relabel π, (d.clause.isDefinite_relabel π).trans d.definite⟩

private theorem keepsEq_relabel : KeepsEq (relabel π) :=
  fun d e => Clause.keepsEq_relabel π d.clause e.clause

@[simp]
theorem head_relabel (d : DefiniteClause) : (d.relabel π).head = d.head.relabel π := by
  -- both clauses have one positive literal, so it is enough to compare the lists
  have hpos : (d.relabel π).clause.positives = [⟨true, d.head.relabel π⟩] := by
    rw [relabel, Clause.positives_relabel, positives_eq]
    rfl
  rw [positives_eq] at hpos
  exact congrArg Literal.atom (List.cons.inj hpos).1

@[simp]
theorem body_relabel (d : DefiniteClause) : (d.relabel π).body = d.body.map (Atom.relabel π) := by
  rw [body, relabel, Clause.negatives_relabel, List.map_map, body, List.map_map]
  rfl

@[simp]
theorem isFact_relabel (d : DefiniteClause) : (d.relabel π).isFact = d.isFact := by
  simp [isFact]

private theorem ofClause?_relabel (c : Clause) :
    ofClause? (c.relabel π) = (ofClause? c).map (relabel π) := by
  by_cases h : c.isDefinite = true
  · rw [ofClause?, dif_pos ((c.isDefinite_relabel π).trans h), ofClause?, dif_pos h]
    rfl
  · rw [ofClause?, dif_neg (mt (c.isDefinite_relabel π).symm.trans h), ofClause?, dif_neg h]
    rfl

theorem relates_renameApart {π : Relabelling} {s s' : Names} (h : π.Aligned s s')
    (d : DefiniteClause) :
    π.Relates (relabel π) (d.renameApart s) ((d.relabel π).renameApart s') := by
  obtain ⟨hvalue, hnames⟩ := d.clause.relates_renameApart h
  refine ⟨?_, hnames⟩
  exact DefiniteClause.mk.injEq .. ▸ hvalue

end DefiniteClause

theorem definiteClauses_relabel (cs : List Clause) :
    definiteClauses (cs.map (Clause.relabel π)) =
      ((definiteClauses cs).map (List.map (DefiniteClause.relabel π))).mapError
        fun e => ⟨e.clause.relabel π⟩ := by
  induction cs with
  | nil => rfl
  | cons c cs ih =>
    rw [List.map_cons, definiteClauses, DefiniteClause.ofClause?_relabel, definiteClauses, ih]
    cases DefiniteClause.ofClause? c with
    | none => rfl
    | some d => cases definiteClauses cs <;> rfl

/-! ## Section 2: Stores -/

/-- An applied clause with other labels. -/
def Application.relabel (a : Application) : Application :=
  ⟨a.clause.relabel π, a.unifier.relabel π⟩

private theorem DefiniteClause.relates_applyTo {π : Relabelling} {s s' : Names} (h : π.Aligned s s')
    (goal : Atom) (σ : Substitution) (d : DefiniteClause) :
    π.Relates (List.map (Application.relabel π)) (d.applyTo goal σ s)
      ((d.relabel π).applyTo (goal.relabel π) (σ.relabel π) s') := by
  have hd := d.relates_renameApart h
  unfold applyTo
  dsimp only
  rw [hd.value, head_relabel, Atom.unify_relabel]
  cases (d.renameApart s).1.head.unify σ goal with
  | none => exact ⟨rfl, hd.names⟩
  | some τ => exact ⟨rfl, hd.names⟩

namespace ClauseStore

/-- A store with other labels. -/
def relabel (t : ClauseStore) : ClauseStore :=
  ⟨t.buckets.map fun b => (b.1.relabel π, b.2.map (DefiniteClause.relabel π))⟩

@[simp]
theorem toList_relabel (t : ClauseStore) :
    (t.relabel π).toList = t.toList.map (DefiniteClause.relabel π) := by
  rw [toList, relabel, List.flatMap_map, toList, List.map_flatMap]

theorem lookup_relabel (t : ClauseStore) (p : Ident) :
    (t.relabel π).buckets.lookup (p.relabel π) =
      (t.buckets.lookup p).map (List.map (DefiniteClause.relabel π)) :=
  (Ident.keepsEq_relabel π).lookup_map _ t.buckets p

private theorem bucket_relabel (t : ClauseStore) (p : Ident) :
    (t.relabel π).bucket (p.relabel π) = (t.bucket p).map (DefiniteClause.relabel π) := by
  rw [bucket, lookup_relabel, bucket]
  cases t.buckets.lookup p <;> rfl

theorem candidates_relabel (t : ClauseStore) (goal : Atom) :
    (t.relabel π).candidates (goal.relabel π) =
      (t.candidates goal).map (DefiniteClause.relabel π) := by
  simp only [candidates, Atom.symbol_relabel, Ident.relabel_eq_null, toList_relabel,
    bucket_relabel]
  split <;> rfl

/-- A clause goes into the same bucket, or into none. -/
theorem add_relabel (t : ClauseStore) (d : DefiniteClause) :
    (t.relabel π).add (d.relabel π) = Prod.map id (relabel π) (t.add d) := by
  simp only [add, DefiniteClause.head_relabel, Atom.symbol_relabel, lookup_relabel]
  cases t.buckets.lookup d.head.symbol with
  | none => simp [relabel]
  | some ds =>
    simp only [Option.map_some, (DefiniteClause.keepsEq_relabel π).contains_map]
    split
    next => rfl
    next =>
      simp only [relabel, List.map_map, Function.comp_def, Ident.relabel_inj, Prod.map_apply, id]
      refine congrArg (fun bs => (true, ClauseStore.mk bs)) (List.map_congr_left fun b _ => ?_)
      split <;> simp

theorem addAll_relabel (t : ClauseStore) (ds : List DefiniteClause) :
    (t.relabel π).addAll (ds.map (DefiniteClause.relabel π)) = (t.addAll ds).relabel π := by
  induction ds generalizing t with
  | nil => rfl
  | cons d ds ih =>
    show ((t.relabel π).add (d.relabel π)).2.addAll _ = ((t.add d).2.addAll ds).relabel π
    rw [add_relabel, ← ih]
    rfl

private theorem ofList_relabel (ds : List DefiniteClause) :
    ofList (ds.map (DefiniteClause.relabel π)) = (ofList ds).relabel π :=
  empty.addAll_relabel π ds

variable {π} {s s' : Names}

theorem relates_applications (h : π.Aligned s s') (goal : Atom) (σ : Substitution)
    (t : ClauseStore) : π.Relates (List.map (Application.relabel π)) (t.applications s goal σ)
      ((t.relabel π).applications s' (goal.relabel π) (σ.relabel π)) := by
  rw [applications, applications, candidates_relabel]
  exact Relates.flatMap (fun d hs => d.relates_applyTo hs goal σ) h _

end ClauseStore

/-! ## Section 3: One rule of forward chaining -/

/-- An inference with other labels. -/
def Inference.relabel (i : Inference) : Inference :=
  ⟨i.rule.relabel π, i.known.map (Atom.relabel π), i.unifier.relabel π⟩

private theorem Inference.conclusion_relabel (i : Inference) :
    (i.relabel π).conclusion = i.conclusion.relabel π := by
  show (i.unifier.relabel π).applyAtom (i.rule.relabel π).head = _
  rw [DefiniteClause.head_relabel, ← Substitution.relabel_applyAtom]
  rfl

theorem insertKey_map {κ κ' α α' : Type} [BEq κ] [BEq κ'] {f : κ → κ'} (hf : KeepsEq f)
    (g : α → α') (k : κ) (a : α) (l : List (κ × α)) :
    insertKey (f k) (g a) (l.map (Prod.map f g)) = (insertKey k a l).map (Prod.map f g) := by
  induction l with
  | nil => rfl
  | cons e l ih =>
    rw [List.map_cons, insertKey, insertKey, ih]
    show (if (f e.1 == f k) = true then _ else _) = _
    rw [hf]
    split <;> rfl

namespace ClauseStore

private theorem facts_relabel (t : ClauseStore) :
    (t.relabel π).facts = t.facts.map (Atom.relabel π) := by
  simp only [facts, toList_relabel, List.filter_map, List.map_map, Function.comp_def,
    DefiniteClause.isFact_relabel, DefiniteClause.head_relabel]

private theorem rules_relabel (t : ClauseStore) :
    (t.relabel π).rules = t.rules.map (DefiniteClause.relabel π) := by
  simp only [rules, toList_relabel, List.filter_map, Function.comp_def,
    DefiniteClause.isFact_relabel]

private theorem states_relabel (t : ClauseStore) (a : Atom) :
    (t.relabel π).states (a.relabel π) = t.states a := by
  simp only [states, candidates_relabel, List.any_map, Function.comp_def,
    DefiniteClause.isFact_relabel, DefiniteClause.head_relabel, Atom.isSome_match?_relabel]

variable {π} {s s' : Names}

theorem relates_factApplications (h : π.Aligned s s') (goal : Atom) (σ : Substitution)
    (t : ClauseStore) : π.Relates (List.map (Application.relabel π)) (t.factApplications s goal σ)
      ((t.relabel π).factApplications s' (goal.relabel π) (σ.relabel π)) := by
  obtain ⟨hvalue, hnames⟩ := t.relates_applications h goal σ
  refine ⟨?_, hnames⟩
  show List.filter _ ((t.relabel π).applications s' (goal.relabel π) (σ.relabel π)).1 =
    (List.filter _ (t.applications s goal σ).1).map _
  rw [hvalue, List.filter_map]
  exact congrArg (List.map _) (List.filter_congr fun a _ => a.clause.isFact_relabel π)

private theorem relates_matchBody (h : π.Aligned s s') (t : ClauseStore) (as : List Atom)
    (i : Inference) : π.Relates (List.map (Inference.relabel π)) (t.matchBody as s i)
      ((t.relabel π).matchBody (as.map (Atom.relabel π)) s' (i.relabel π)) := by
  induction as generalizing s s' i with
  | nil => exact ⟨rfl, h⟩
  | cons a as ih =>
    have hfound := t.relates_factApplications h a i.unifier
    rw [List.map_cons, matchBody, matchBody]
    dsimp only
    have hvalue : ((t.relabel π).factApplications s' (a.relabel π) (i.relabel π).unifier).1 = _ :=
      hfound.value
    rw [hvalue]
    refine Relates.flatMap (fun f hs => ?_) hfound.names _
    -- the rest of the body is matched from what the fact for the first atom leaves
    have hnext : ({ i.relabel π with
          known := (i.relabel π).known ++ [(f.relabel π).clause.head]
          unifier := (f.relabel π).unifier } : Inference) =
        Inference.relabel π
          { i with known := i.known ++ [f.clause.head], unifier := f.unifier } := by
      simp [Inference.relabel, Application.relabel]
    rw [hnext]
    exact ih hs _

private theorem relates_inferences (h : π.Aligned s s') (t : ClauseStore) (rule : DefiniteClause) :
    π.Relates (List.map (Inference.relabel π)) (t.inferences s rule)
      ((t.relabel π).inferences s' (rule.relabel π)) := by
  rw [inferences, inferences, DefiniteClause.body_relabel]
  exact relates_matchBody h t rule.body { rule }

end ClauseStore

private theorem relates_relevantRules {π : Relabelling} {s s' : Names} (h : π.Aligned s s')
    (new : List Atom) (rules : List DefiniteClause) :
    π.Relates (List.map (DefiniteClause.relabel π)) (relevantRules new s rules)
      (relevantRules (new.map (Atom.relabel π)) s' (rules.map (DefiniteClause.relabel π))) := by
  refine Relates.flatMap (fun d hs => ?_) h rules
  have hd := d.relates_renameApart hs
  refine ⟨?_, hd.names⟩
  dsimp only
  rw [hd.value, DefiniteClause.body_relabel]
  simp only [List.any_map, Function.comp_def, Atom.isSome_unify_relabel]
  split <;> rfl

/-! ## Section 4: Forward chaining -/

/-- What is to be done next, with other labels. -/
def ForwardTask.relabel : ForwardTask → ForwardTask
  | .initial => .initial
  | .round new => .round (new.map (Atom.relabel π))
  | .rules left new => .rules (left.map (DefiniteClause.relabel π)) (new.map (Atom.relabel π))

namespace ForwardQuery

/-- A search with other labels. -/
def relabel (q : ForwardQuery) : ForwardQuery where
  goal := q.goal.relabel π
  store := q.store.relabel π
  proof := q.proof.map (Prod.map (Atom.relabel π) (Inference.relabel π))
  proven := q.proven.map (Atom.relabel π)
  task := q.task.relabel π
  result := q.result
  begun := q.begun

theorem start_relabel (t : ClauseStore) (goal : Atom) :
    start (t.relabel π) (goal.relabel π) = (start t goal).relabel π := by
  simp only [start, ClauseStore.toList_relabel, ClauseStore.ofList_relabel]
  rfl

theorem enterRound_relabel (q : ForwardQuery) (new : List Atom) :
    (q.relabel π).enterRound (new.map (Atom.relabel π)) = (q.enterRound new).relabel π := by
  cases new <;> rfl

theorem enterRules_relabel (q : ForwardQuery) (left : List DefiniteClause) (new : List Atom) :
    (q.relabel π).enterRules (left.map (DefiniteClause.relabel π)) (new.map (Atom.relabel π)) =
      (q.enterRules left new).relabel π := by
  cases left with
  | cons d left => rfl
  | nil =>
    -- the round is over: its facts are stored and the next one begins
    have hfacts : (new.map (Atom.relabel π)).map DefiniteClause.ofAtom =
        (new.map DefiniteClause.ofAtom).map (DefiniteClause.relabel π) := by
      rw [List.map_map, List.map_map]
      rfl
    have hstore : (q.relabel π).store.addAll ((new.map (Atom.relabel π)).map .ofAtom) =
        (q.store.addAll (new.map .ofAtom)).relabel π := by
      rw [hfacts]
      exact q.store.addAll_relabel π _
    simp only [enterRules, List.map_nil, List.isEmpty_nil, if_true, hstore]
    exact enterRound_relabel π { q with store := q.store.addAll (new.map .ofAtom) } new

private theorem learn_relabel (new : List Atom) (is : List Inference) (q : ForwardQuery) :
    (q.relabel π).learn (new.map (Atom.relabel π)) (is.map (Inference.relabel π)) =
      Prod.map (List.map (Atom.relabel π)) (relabel π) (q.learn new is) := by
  induction is generalizing new q with
  | nil => rfl
  | cons i is ih =>
    -- both tests of the loop come out as before, and so does what is kept of the proof
    have hknown : ((q.relabel π).store.states (i.relabel π).conclusion ||
          (new.map (Atom.relabel π)).any fun f =>
            (f.match? .empty (i.relabel π).conclusion).isSome) =
        (q.store.states i.conclusion ||
          new.any fun f => (f.match? .empty i.conclusion).isSome) := by
      simp only [i.conclusion_relabel, relabel, ClauseStore.states_relabel, List.any_map,
        Function.comp_def, Atom.isSome_match?_relabel]
    have hproof : insertKey (i.relabel π).conclusion (i.relabel π) (q.relabel π).proof =
        (insertKey i.conclusion i q.proof).map
          (Prod.map (Atom.relabel π) (Inference.relabel π)) := by
      rw [i.conclusion_relabel]
      exact insertKey_map (Atom.keepsEq_relabel π) (Inference.relabel π) i.conclusion i q.proof
    have hgoal : ((i.relabel π).conclusion.unify .empty (q.relabel π).goal).isSome =
        (i.conclusion.unify .empty q.goal).isSome := by
      rw [i.conclusion_relabel]
      exact i.conclusion.isSome_unify_relabel π q.goal
    rw [List.map_cons, learn, learn]
    dsimp only
    rw [hknown, hproof, hgoal, apply_ite (Prod.map _ _), apply_ite (Prod.map _ _)]
    refine ite_congr rfl (fun _ => ih new q) fun _ => ite_congr rfl (fun _ => ?_) fun _ => ?_
    · rw [i.conclusion_relabel]
      rfl
    · rw [i.conclusion_relabel, ← ih, List.map_append, List.map_singleton]
      rfl

variable {π} {s s' : Names}

private theorem relates_enter (h : π.Aligned s s') (q : ForwardQuery) :
    π.Relates (relabel π) (q.enter s) ((q.relabel π).enter s') := by
  have hfound := q.store.relates_factApplications h q.goal .empty
  have hvalue : ((q.relabel π).store.factApplications s' (q.relabel π).goal .empty).1 =
      (q.store.factApplications s q.goal .empty).1.map (Application.relabel π) := hfound.value
  unfold enter
  dsimp only
  rw [hvalue]
  cases (q.store.factApplications s q.goal .empty).1 with
  | nil =>
    refine ⟨?_, hfound.names⟩
    show (q.relabel π).enterRound (q.store.relabel π).facts = _
    rw [ClauseStore.facts_relabel, enterRound_relabel]
  | cons f fs =>
    refine ⟨?_, hfound.names⟩
    show (q.relabel π).succeed (f.clause.relabel π).head = _
    rw [DefiniteClause.head_relabel]
    rfl

/-- A step of two searches. -/
theorem relates_next {x y : ForwardQuery × Names} (h : π.Relates (relabel π) x y) :
    π.Relates (relabel π) (next x) (next y) := by
  obtain ⟨q, s⟩ := x
  obtain ⟨q', s'⟩ := y
  obtain ⟨rfl, hs⟩ := h
  cases htask : q.task with
  | initial =>
    have htask' : (q.relabel π).task = .initial := congrArg (ForwardTask.relabel π) htask
    simp only [next, htask, htask']
    exact ⟨rfl, hs⟩
  | round new =>
    have htask' : (q.relabel π).task = .round (new.map (Atom.relabel π)) :=
      congrArg (ForwardTask.relabel π) htask
    have hrules : π.Relates (List.map (DefiniteClause.relabel π))
        (relevantRules new s q.store.rules)
        (relevantRules (new.map (Atom.relabel π)) s' (q.relabel π).store.rules) := by
      have h := relates_relevantRules hs new q.store.rules
      rwa [← ClauseStore.rules_relabel] at h
    simp only [next, htask, htask']
    refine ⟨?_, hrules.names⟩
    dsimp only
    rw [hrules.value]
    exact enterRules_relabel π q _ []
  | rules left new =>
    cases left with
    | nil =>
      have htask' : (q.relabel π).task = .rules [] (new.map (Atom.relabel π)) :=
        congrArg (ForwardTask.relabel π) htask
      simp only [next, htask, htask']
      exact ⟨rfl, hs⟩
    | cons rule left =>
      have htask' : (q.relabel π).task = .rules
          (rule.relabel π :: left.map (DefiniteClause.relabel π)) (new.map (Atom.relabel π)) :=
        congrArg (ForwardTask.relabel π) htask
      have his : π.Relates (List.map (Inference.relabel π)) (q.store.inferences s rule)
          ((q.relabel π).store.inferences s' (rule.relabel π)) := q.store.relates_inferences hs rule
      simp only [next, htask, htask', his.value, learn_relabel]
      -- the goal may be among what the rule has given
      generalize q.learn new (q.store.inferences s rule).1 = learned
      obtain ⟨new, q'⟩ := learned
      by_cases hc : q'.isComplete = true
      · have hc' : (q'.relabel π).isComplete = true := hc
        simp only [Prod.map, if_pos hc, if_pos hc']
        exact ⟨rfl, his.names⟩
      · have hc' : ¬ (q'.relabel π).isComplete = true := hc
        simp only [Prod.map, if_neg hc, if_neg hc']
        exact ⟨enterRules_relabel π q' left new, his.names⟩

end ForwardQuery

/-- Runs of two searches whose steps keep a relation between them. -/
theorem advance_rel {α β : Type} {R : α → β → Prop} {done : α → Bool} {done' : β → Bool}
    {next : α → α} {next' : β → β} (hdone : ∀ {x y}, R x y → done' y = done x)
    (hnext : ∀ {x y}, R x y → R (next x) (next' y)) {x : α} {y : β} (h : R x y) (n : Nat) :
    R (advance done next n x).2 (advance done' next' n y).2 := by
  induction n generalizing x y with
  | zero => exact h
  | succ n ih =>
    rw [advance, advance, hdone h]
    split
    next => exact h
    next => exact ih (hnext h)

/-- Searches that differ in labels come to the same answer, or to none. -/
theorem ForwardQuery.execute_relabel {π : Relabelling} {s s' : Names} (h : π.Aligned s s')
    (n : Nat) (q : ForwardQuery) : ((q.relabel π).execute n s').1 = (q.execute n s).1 := by
  by_cases hbegun : q.begun = true
  · have hq : q.execute n s = (.error .alreadyBegun, q, s) := if_pos hbegun
    have hq' : (q.relabel π).execute n s' = (.error .alreadyBegun, q.relabel π, s') :=
      if_pos hbegun
    rw [hq, hq']
  · have hbegun' : ¬ (q.relabel π).begun = true := hbegun
    -- labels play no part in when a search stops, so both take the same number of steps
    have hdone : ∀ {x y : ForwardQuery × Names}, π.Relates (relabel π) x y →
        y.1.isComplete = x.1.isComplete := fun hxy => by rw [hxy.value]; rfl
    have hrun : π.Relates (relabel π)
        (advance (fun x => x.1.isComplete) next n
          (({ q with begun := true } : ForwardQuery).enter s)).2
        (advance (fun x => x.1.isComplete) next n
          (({ q.relabel π with begun := true } : ForwardQuery).enter s')).2 :=
      advance_rel (R := π.Relates (relabel π)) hdone relates_next
        (relates_enter h { q with begun := true }) n
    unfold execute
    rw [if_neg hbegun, if_neg hbegun']
    dsimp only
    rw [hrun.value]
    generalize (advance (fun x => x.1.isComplete) next n
      (({ q with begun := true } : ForwardQuery).enter s)).2.1 = last
    have hresult : (last.relabel π).result = last.result := rfl
    rw [hresult]
    cases last.result <;> rfl

/-! ## Section 5: Backward chaining -/

/-- A proof with other labels. -/
def GoalProof.relabel (p : GoalProof) : GoalProof :=
  ⟨p.unifier.relabel π, p.steps.map (Prod.map (Atom.relabel π) (DefiniteClause.relabel π))⟩

/-- A task with other labels. -/
def ProofTask.relabel : ProofTask → ProofTask
  | .prove goal => .prove (goal.relabel π)
  | .attempt goal a => .attempt (goal.relabel π) (a.relabel π)
  | .close goal d => .close (goal.relabel π) (d.relabel π)

/-- A branch with other labels. -/
def Branch.relabel (b : Branch) : Branch :=
  ⟨b.tasks.map (ProofTask.relabel π), b.proof.relabel π⟩

private theorem closeGoals_relabel (ts : List ProofTask) (p : GoalProof) :
    closeGoals (ts.map (ProofTask.relabel π)) (p.relabel π) = (closeGoals ts p).relabel π := by
  fun_induction closeGoals ts p with
  | case1 goal d ts p ih =>
    rw [List.map_cons, ProofTask.relabel, closeGoals, ← ih]
    congr 1
    have hsteps := insertKey_map (Atom.keepsEq_relabel π) (DefiniteClause.relabel π)
      (p.unifier.applyAtom goal) d p.steps
    rw [Substitution.relabel_applyAtom] at hsteps
    exact congrArg (GoalProof.mk _) hsteps
  | case2 ts p hclose =>
    rcases ts with _ | ⟨_ | _ | ⟨goal, d⟩, ts⟩
    · rfl
    · rfl
    · rfl
    · exact absurd rfl (hclose goal d ts)

namespace ProofSearch

/-- The second search is the first one with other labels. -/
structure Follows (π : Relabelling) (x y : ProofSearch) : Prop where
  store : y.store = x.store.relabel π
  branches : y.branches = x.branches.map (Branch.relabel π)
  names : π.Aligned x.names y.names

variable {π}

theorem relates_choices {s s' : Names} (h : π.Aligned s s') (t : ClauseStore) (goal : Atom)
    (rest : List ProofTask) (p : GoalProof) :
    π.Relates (List.map (Branch.relabel π)) (choices t s goal rest p)
      (choices (t.relabel π) s' (goal.relabel π) (rest.map (ProofTask.relabel π))
        (p.relabel π)) := by
  have happs := t.relates_applications h goal p.unifier
  refine ⟨?_, happs.names⟩
  unfold choices
  dsimp only [GoalProof.relabel]
  rw [happs.value, List.map_map, List.map_map]
  rfl

private theorem follows_start {s s' : Names} (h : π.Aligned s s') (t : ClauseStore) (goal : Atom) :
    Follows π (start t s goal) (start (t.relabel π) s' (goal.relabel π)) := by
  have hchoices := relates_choices h t goal [] {}
  exact ⟨rfl, hchoices.value, hchoices.names⟩

/-- A step of two searches. -/
theorem Follows.next {x y : ProofSearch} (h : Follows π x y) : Follows π x.next y.next := by
  obtain ⟨t, bs, s⟩ := x
  obtain ⟨t', bs', s'⟩ := y
  obtain ⟨rfl, rfl, hs⟩ := h
  rcases bs with _ | ⟨⟨_ | ⟨k, ts⟩, p⟩, bs⟩
  · exact ⟨rfl, rfl, hs⟩
  · exact ⟨rfl, rfl, hs⟩
  · cases k with
    | prove goal =>
      have hchoices := relates_choices hs t (p.unifier.applyAtom goal) ts p
      rw [Substitution.relabel_applyAtom] at hchoices
      refine ⟨rfl, ?_, hchoices.names⟩
      show _ ++ bs.map (Branch.relabel π) = (_ ++ bs).map (Branch.relabel π)
      rw [List.map_append]
      exact congrArg (· ++ _) hchoices.value
    | attempt goal a =>
      have htasks : (a.clause.relabel π).body.map ProofTask.prove ++
            .close (goal.relabel π) (a.clause.relabel π) :: ts.map (ProofTask.relabel π) =
          (a.clause.body.map ProofTask.prove ++ .close goal a.clause :: ts).map
            (ProofTask.relabel π) := by
        rw [DefiniteClause.body_relabel, List.map_append, List.map_map, List.map_map]
        rfl
      -- the body of a fact is empty, so that its goal is closed at once
      have hclose := closeGoals_relabel π (a.clause.body.map .prove ++ .close goal a.clause :: ts)
        { p with unifier := a.unifier }
      rw [← htasks] at hclose
      exact ⟨rfl, congrArg (· :: bs.map (Branch.relabel π)) hclose, hs⟩
    | close goal d =>
      have hclose := closeGoals_relabel π (.close goal d :: ts) p
      exact ⟨rfl, congrArg (· :: bs.map (Branch.relabel π)) hclose, hs⟩

private theorem Follows.isSettled_eq {x y : ProofSearch} (h : Follows π x y) :
    y.isSettled = x.isSettled := by
  rw [isSettled, isSettled, h.branches]
  rcases x.branches with _ | ⟨⟨_ | _, _⟩, _⟩ <;> rfl

private theorem Follows.seek {x y : ProofSearch} (h : Follows π x y) (n : Nat) :
    Follows π (x.seek n).2 (y.seek n).2 :=
  advance_rel (R := Follows π) (fun h => h.isSettled_eq) (fun h => h.next) h n

end ProofSearch

/-- Searches that differ in labels come to the same answer, or to none. -/
theorem BackwardQuery.execute_relabel {π : Relabelling} {s s' : Names} (h : π.Aligned s s')
    (n : Nat) (t : ClauseStore) (goal : Atom) :
    (BackwardQuery.execute n (t.relabel π) s' { goal := goal.relabel π }).1 =
      (BackwardQuery.execute n t s { goal }).1 := by
  have hseek := (ProofSearch.follows_start h t goal).seek n
  unfold execute
  rw [if_neg (by simp), if_neg (by simp)]
  dsimp only
  generalize ((ProofSearch.start t s goal).seek n).2 = x at hseek ⊢
  generalize ((ProofSearch.start (t.relabel π) s' (goal.relabel π)).seek n).2 = y at hseek ⊢
  rw [ProofSearch.status, ProofSearch.status, hseek.branches]
  rcases x.branches with _ | ⟨⟨_ | _, _⟩, _⟩ <;> rfl

end Clausal
