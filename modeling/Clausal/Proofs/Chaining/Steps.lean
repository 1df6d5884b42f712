import Clausal.Chaining.Backward
import Clausal.Chaining.Forward
import Clausal.Proofs.Chaining.Store

/-!
# Steps of chaining

What one step of forward or backward chaining can do.  Invariants of a search are proved from these
cases and carried along a run by `advance_invariant`.

## Main statements

- `advance_invariant`: what a step preserves, a run preserves
- `exists_advance_done`: a run whose steps lower a measure comes to its end
- `ForwardQuery.learn_cases`: what becomes of the conclusions of a rule
- `ForwardQuery.next_of_rules`: what a step does with the first rule of a round
- `ForwardQuery.of_execute`: an answer comes from a state that steps lead to
- `ForwardQuery.exists_execute`: a measure that steps lower makes a search come to an answer
- `exists_closed`: closing goals takes tasks off a branch and nothing else
- `ProofSearch.next_eq`: what a step does with the first task of the first branch
- `ProofSearch.enumerate_invariant`: what is picked comes from proofs that steps lead to
- `ProofSearch.of_exhausted`: an enumeration that comes to its end has seen all proofs
-/

namespace Clausal

/-! ## Section 1: Runs -/

theorem advance_invariant {α : Type} {done : α → Bool} {next : α → α} {P : α → Prop}
    (hnext : ∀ x, done x = false → P x → P (next x)) (n : Nat) {x : α} (hx : P x) :
    P (advance done next n x).2 := by
  induction n generalizing x with
  | zero => exact hx
  | succ n ih =>
    unfold advance
    split
    next => exact hx
    next hdone => exact ih (hnext x (by simpa using hdone) hx)

/-- Once a run is done, more steps make no difference. -/
theorem advance_eq_of_done {α : Type} {done : α → Bool} {next : α → α} {n m : Nat} {x : α}
    (h : done (advance done next n x).2 = true) (hnm : n ≤ m) :
    (advance done next m x).2 = (advance done next n x).2 := by
  induction n generalizing m x with
  | zero =>
    have hx : done x = true := h
    cases m <;> simp [advance, hx]
  | succ n ih =>
    obtain ⟨m, rfl⟩ := Nat.exists_eq_add_of_le' hnm
    cases hx : done x with
    | true => simp [advance, hx]
    | false =>
      simp only [advance, hx, Bool.false_eq_true, if_false] at h ⊢
      exact ih h (Nat.le_add_left n m)

/-- If every step is the last one or lowers a measure, then a run comes to its end. -/
theorem exists_advance_done {α β : Type} [Preorder β] [WellFoundedLT β] {done : α → Bool}
    {next : α → α} {P : α → Prop} (μ : α → β)
    (hnext : ∀ x, done x = false → P x →
      done (next x) = true ∨ P (next x) ∧ μ (next x) < μ x) {x : α}
    (hx : done x = true ∨ P x) : ∃ n, done (advance done next n x).2 = true := by
  induction hμ : μ x using WellFoundedLT.induction generalizing x with
  | _ b ih =>
    cases hdone : done x with
    | true => exact ⟨0, hdone⟩
    | false =>
      have hx : P x := hx.resolve_left (by simp [hdone])
      obtain ⟨n, hn⟩ : ∃ n, done (advance done next n (next x)).2 = true := by
        rcases hnext x hdone hx with hlast | ⟨hP, hlt⟩
        · exact ⟨0, hlast⟩
        · exact ih _ (hμ ▸ hlt) (Or.inr hP) rfl
      refine ⟨n + 1, ?_⟩
      rwa [advance, if_neg (by simp [hdone])]

/-! ## Section 2: Facts and rules -/

namespace ClauseStore

variable {t : ClauseStore} {s : Names} {goal : Atom} {σ : Substitution} {d : DefiniteClause}

theorem mem_factApplications {a : Application} : a ∈ (t.factApplications s goal σ).1 ↔
    a ∈ (t.applications s goal σ).1 ∧ a.clause.isFact = true := by
  simp [factApplications]

theorem mem_facts {a : Atom} : a ∈ t.facts ↔ ∃ d ∈ t.toList, d.isFact = true ∧ d.head = a := by
  simp [facts, and_assoc]

theorem mem_rules : d ∈ t.rules ↔ d ∈ t.toList ∧ d.isFact = false := by
  simp [rules]

theorem next_le_next_matchBody (t : ClauseStore) (as : List Atom) (s : Names) (i : Inference) :
    s.next ≤ (t.matchBody as s i).2.next := by
  induction as generalizing s i with
  | nil => exact Nat.le_refl _
  | cons a as ih =>
    refine Nat.le_trans (t.next_le_next_applications s a i.unifier) ?_
    exact Names.next_le_next_flatMap (fun s _ => ih s _) _ _

/-- A fact that the first atom of a body was matched with. -/
theorem of_mem_matchBody_cons {a : Atom} {as : List Atom} {i j : Inference}
    (h : j ∈ (t.matchBody (a :: as) s i).1) :
    ∃ f ∈ (t.applications s a i.unifier).1, f.clause.isFact = true ∧ ∃ s',
      (t.applications s a i.unifier).2.next ≤ s'.next ∧
      (t.matchBody as s' ⟨i.rule, i.known ++ [f.clause.head], f.unifier⟩).2.next ≤
        (t.matchBody (a :: as) s i).2.next ∧
      j ∈ (t.matchBody as s' ⟨i.rule, i.known ++ [f.clause.head], f.unifier⟩).1 := by
  obtain ⟨f, hf, s', hle, hle', hj⟩ :=
    Names.exists_of_mem_flatMap (fun s _ => t.next_le_next_matchBody as s _) h
  obtain ⟨hf, hfact⟩ := mem_factApplications.mp hf
  exact ⟨f, hf, hfact, s', hle, hle', hj⟩

/-- Every fact that fits is tried for the first atom of a body. -/
theorem exists_mem_matchBody_cons {a : Atom} (as : List Atom) (i : Inference) {f : Application}
    (hf : f ∈ (t.applications s a i.unifier).1) (hfact : f.clause.isFact = true) :
    ∃ s', (t.applications s a i.unifier).2.next ≤ s'.next ∧
      ∀ j ∈ (t.matchBody as s' ⟨i.rule, i.known ++ [f.clause.head], f.unifier⟩).1,
        j ∈ (t.matchBody (a :: as) s i).1 := by
  obtain ⟨s', hle, -, hmem⟩ := Names.exists_supply
    (f := fun s f => t.matchBody as s ⟨i.rule, i.known ++ [f.clause.head], f.unifier⟩)
    (s := (t.applications s a i.unifier).2) (fun s _ => t.next_le_next_matchBody as s _)
    (mem_factApplications.mpr ⟨hf, hfact⟩)
  exact ⟨s', hle, hmem⟩

end ClauseStore

section RelevantRules

variable {new : List Atom} {s : Names} {rules : List DefiniteClause} {d e : DefiniteClause}

theorem next_le_next_relevantRules (new : List Atom) (s : Names) (rules : List DefiniteClause) :
    s.next ≤ (relevantRules new s rules).2.next :=
  Names.next_le_next_flatMap (fun s d => Nat.le_add_right s.next d.clause.vars.length) s rules

theorem of_mem_relevantRules (h : e ∈ (relevantRules new s rules).1) : ∃ d ∈ rules, ∃ s',
    s.next ≤ s'.next ∧ (d.renameApart s').2.next ≤ (relevantRules new s rules).2.next ∧
      (d.renameApart s').1 = e := by
  obtain ⟨d, hd, s', hle, hle', he⟩ :=
    Names.exists_of_mem_flatMap (fun s d => Nat.le_add_right s.next d.clause.vars.length) h
  refine ⟨d, hd, s', hle, hle', ?_⟩
  dsimp only at he
  split at he
  · exact (List.mem_singleton.mp he).symm
  · exact absurd he List.not_mem_nil

/-- A copy of a rule is kept if an atom of its body unifies with a new fact. -/
theorem exists_mem_relevantRules (new : List Atom) (s : Names) (hd : d ∈ rules) :
    ∃ s', s.next ≤ s'.next ∧ ∀ a ∈ (d.renameApart s').1.body, ∀ f ∈ new,
      (a.unify .empty f).isSome = true → (d.renameApart s').1 ∈ (relevantRules new s rules).1 := by
  obtain ⟨s', hle, -, hmem⟩ := Names.exists_supply (s := s)
    (f := fun s d => (if (d.renameApart s).1.body.any fun a => new.any fun f =>
      (a.unify .empty f).isSome then [(d.renameApart s).1] else [], (d.renameApart s).2))
    (fun s d => Nat.le_add_right s.next d.clause.vars.length) hd
  refine ⟨s', hle, fun a ha f hf hunify => hmem _ ?_⟩
  rw [if_pos]
  · exact List.mem_singleton.mpr rfl
  · exact List.any_eq_true.mpr ⟨a, ha, List.any_eq_true.mpr ⟨f, hf, hunify⟩⟩

end RelevantRules

/-! ## Section 3: Forward chaining -/

namespace ForwardQuery

/-- Of the conclusions of a rule, those are new facts that are no instances of known or new ones.
    Only the proofs are changed, unless a conclusion answers the question. -/
theorem learn_cases (new : List Atom) (is : List Inference) (q : ForwardQuery) :
    (∃ i ∈ is, ∃ proof, (i.conclusion.unify .empty q.goal).isSome = true ∧
        (q.learn new is).2 = ({ q with proof } : ForwardQuery).succeed i.conclusion) ∨
      (∃ proof, (q.learn new is).2 = { q with proof }) ∧
        (∀ a ∈ new, a ∈ (q.learn new is).1) ∧
        (∀ a ∈ (q.learn new is).1, a ∈ new ∨
          ∃ i ∈ is, i.conclusion = a ∧ q.store.states a = false ∧
            a.unify .empty q.goal = none) ∧
        ∀ i ∈ is, q.store.states i.conclusion = true ∨
          ∃ f ∈ (q.learn new is).1, f = i.conclusion ∨
            (f.match? .empty i.conclusion).isSome = true := by
  induction is generalizing new q with
  | nil => exact Or.inr ⟨⟨q.proof, rfl⟩, fun a ha => ha, fun a ha => Or.inl ha, by simp⟩
  | cons i is ih =>
    unfold learn
    dsimp only
    split
    next hknown =>
      rcases ih new q with ⟨j, hj, hrest⟩ | ⟨hproof, hnew, hfrom, hall⟩
      · exact Or.inl ⟨j, List.mem_cons_of_mem _ hj, hrest⟩
      · refine Or.inr ⟨hproof, hnew, fun a ha => ?_, List.forall_mem_cons.mpr ⟨?_, hall⟩⟩
        · refine (hfrom a ha).imp id ?_
          rintro ⟨j, hj, hrest⟩
          exact ⟨j, List.mem_cons_of_mem _ hj, hrest⟩
        · rw [Bool.or_eq_true, List.any_eq_true] at hknown
          refine hknown.imp id ?_
          rintro ⟨f, hf, hmatch⟩
          exact ⟨f, hnew f hf, Or.inr hmatch⟩
    next hunknown =>
      split
      next hgoal => exact Or.inl ⟨i, List.mem_cons_self, _, hgoal, rfl⟩
      next hgoal =>
        rcases ih (new ++ [i.conclusion])
            ({ q with proof := insertKey i.conclusion i q.proof } : ForwardQuery) with
          ⟨j, hj, proof, hrest⟩ | ⟨⟨proof, hproof⟩, hnew, hfrom, hall⟩
        · exact Or.inl ⟨j, List.mem_cons_of_mem _ hj, proof, hrest⟩
        · have hself := hnew i.conclusion (by simp)
          refine Or.inr ⟨⟨proof, hproof⟩, fun a ha => hnew a (List.mem_append_left _ ha),
            fun a ha => ?_, List.forall_mem_cons.mpr ⟨Or.inr ⟨_, hself, Or.inl rfl⟩, hall⟩⟩
          rcases hfrom a ha with ha | ⟨j, hj, hrest⟩
          · rcases List.mem_append.mp ha with ha | ha
            · exact Or.inl ha
            · obtain rfl := List.mem_singleton.mp ha
              refine Or.inr ⟨i, List.mem_cons_self, rfl, ?_, by simpa using hgoal⟩
              exact Bool.eq_false_iff.mpr fun hknown => hunknown (by simp [hknown])
          · exact Or.inr ⟨j, List.mem_cons_of_mem _ hj, hrest⟩

/-- What a step does with the first rule of a round: a conclusion answers the question, or the
    conclusions are taken in and the other rules are left. -/
theorem next_of_rules {q : ForwardQuery} {r : DefiniteClause} {left : List DefiniteClause}
    {new : List Atom} (htask : q.task = .rules (r :: left) new) (hopen : q.isComplete = false)
    (s : Names) : (next (q, s)).1.result = some true ∨
      ∃ proof new', next (q, s) = (({ q with proof } : ForwardQuery).enterRules left new',
          (q.store.inferences s r).2) ∧
        (∀ a ∈ new, a ∈ new') ∧
        (∀ a ∈ new', a ∈ new ∨ ∃ i ∈ (q.store.inferences s r).1, i.conclusion = a ∧
          q.store.states a = false ∧ a.unify .empty q.goal = none) ∧
        ∀ i ∈ (q.store.inferences s r).1, q.store.states i.conclusion = true ∨
          ∃ f ∈ new', f = i.conclusion ∨ (f.match? .empty i.conclusion).isSome = true := by
  have hstep : next (q, s) =
      if (q.learn new (q.store.inferences s r).1).2.isComplete then
        ((q.learn new (q.store.inferences s r).1).2, (q.store.inferences s r).2)
      else ((q.learn new (q.store.inferences s r).1).2.enterRules left
        (q.learn new (q.store.inferences s r).1).1, (q.store.inferences s r).2) := by
    simp only [next, htask]
  rcases q.learn_cases new (q.store.inferences s r).1 with
    ⟨i, -, proof, -, hlearn⟩ | ⟨⟨proof, hlearn⟩, hrest⟩
  · rw [hstep, hlearn]
    exact Or.inl rfl
  · refine Or.inr ⟨proof, _, ?_, hrest⟩
    rw [hstep, hlearn]
    exact if_neg (by simpa [isComplete] using hopen)

/-- An answer is the result of a state that steps have led to. -/
theorem execute_invariant {P : ForwardQuery × Names → Prop} {n : Nat} {s : Names}
    {q : ForwardQuery} {b : Bool} {x : ForwardQuery × Names} (h : q.execute n s = (.ok b, x))
    (henter : P (({ q with begun := true } : ForwardQuery).enter s))
    (hnext : ∀ x, x.1.isComplete = false → P x → P (next x)) : P x ∧ x.1.result = some b := by
  unfold execute at h
  split at h
  next => cases h
  next =>
    dsimp only at h
    split at h
    next c hc =>
      cases h
      exact ⟨advance_invariant hnext n henter, hc⟩
    next => cases h

theorem of_execute {P : ForwardQuery × Names → Prop} {n : Nat} {s : Names} {q : ForwardQuery}
    {b : Bool} (h : (q.execute n s).1 = .ok b)
    (henter : P (({ q with begun := true } : ForwardQuery).enter s))
    (hnext : ∀ x, x.1.isComplete = false → P x → P (next x)) :
    ∃ x, P x ∧ x.1.result = some b :=
  ⟨_, execute_invariant (Prod.ext h rfl) henter hnext⟩

/-- If every step is the last one or lowers a measure, then there is an answer, and from some number
    of steps on it is the same. -/
theorem exists_execute {β : Type} [Preorder β] [WellFoundedLT β]
    {P : ForwardQuery × Names → Prop} {q : ForwardQuery} (hq : q.begun = false) {s : Names}
    (μ : ForwardQuery × Names → β)
    (henter : let x := ({ q with begun := true } : ForwardQuery).enter s
      x.1.isComplete = true ∨ P x)
    (hnext : ∀ x, x.1.isComplete = false → P x →
      (next x).1.isComplete = true ∨ P (next x) ∧ μ (next x) < μ x) :
    ∃ n b y, ∀ m, n ≤ m → q.execute m s = (.ok b, y) := by
  obtain ⟨n, hn⟩ := exists_advance_done μ hnext henter
  obtain ⟨b, hb⟩ := Option.isSome_iff_exists.mp hn
  refine ⟨n, b, (advance (fun x => x.1.isComplete) next n
    (({ q with begun := true } : ForwardQuery).enter s)).2, fun m hnm => ?_⟩
  have hsame : (advance (fun x => x.1.isComplete) next m
      (({ q with begun := true } : ForwardQuery).enter s)).2 =
      (advance (fun x => x.1.isComplete) next n
        (({ q with begun := true } : ForwardQuery).enter s)).2 :=
    advance_eq_of_done hn hnm
  rw [execute, if_neg (by simp [hq])]
  simp only [hsame, hb]

end ForwardQuery

/-! ## Section 4: Backward chaining -/

/-- Closing goals takes tasks off a branch that only note something, and leaves the unifier. -/
theorem exists_closed (ts : List ProofTask) (p : GoalProof) :
    (closeGoals ts p).proof.unifier = p.unifier ∧
      ∃ done, ts = done ++ (closeGoals ts p).tasks ∧ ∀ t ∈ done, ∃ goal d, t = .close goal d := by
  fun_induction closeGoals ts p with
  | case1 goal d ts p ih =>
    obtain ⟨hunifier, done, hts, hdone⟩ := ih
    refine ⟨hunifier, .close goal d :: done, congrArg _ hts, ?_⟩
    exact List.forall_mem_cons.mpr ⟨⟨goal, d, rfl⟩, hdone⟩
  | case2 ts p => exact ⟨rfl, [], rfl, by simp⟩

namespace ProofSearch

/-- A search that is not settled has a task to do. -/
theorem exists_task {x : ProofSearch} (h : x.isSettled = false) :
    ∃ b bs k ts, x.branches = b :: bs ∧ b.tasks = k :: ts := by
  unfold isSettled at h
  split at h
  next => cases h
  next b bs hbs =>
    obtain ⟨k, ts, htasks⟩ := List.exists_cons_of_ne_nil (l := b.tasks) (by simpa using h)
    exact ⟨b, bs, k, ts, hbs, htasks⟩

section Next

variable {x : ProofSearch} {b : Branch} {bs : List Branch} {k : ProofTask} {ts : List ProofTask}

/-- What a step does with the first task of the first branch. -/
theorem next_eq (hbs : x.branches = b :: bs) (htasks : b.tasks = k :: ts) :
    x.next = match k with
      | .prove g =>
        let c := choices x.store x.names (b.proof.unifier.applyAtom g) ts b.proof
        ⟨x.store, c.1 ++ bs, c.2⟩
      | .attempt g a =>
        let tasks := a.clause.body.map .prove ++ .close g a.clause :: ts
        { x with branches := closeGoals tasks { b.proof with unifier := a.unifier } :: bs }
      | .close g d => { x with branches := closeGoals (.close g d :: ts) b.proof :: bs } := by
  unfold next
  simp only [hbs, htasks]
  cases k <;> rfl

theorem store_next (hbs : x.branches = b :: bs) (htasks : b.tasks = k :: ts) :
    x.next.store = x.store := by
  rw [next_eq hbs htasks]
  cases k <;> rfl

theorem next_le_next_next (hbs : x.branches = b :: bs) (htasks : b.tasks = k :: ts) :
    x.names.next ≤ x.next.names.next := by
  rw [next_eq hbs htasks]
  cases k with
  | prove g => exact x.store.next_le_next_applications x.names _ _
  | attempt g a => exact Nat.le_refl _
  | close g d => exact Nat.le_refl _

/-- The branches behind the first one stay as they are. -/
theorem mem_branches_next (hbs : x.branches = b :: bs) (htasks : b.tasks = k :: ts) {c : Branch}
    (hc : c ∈ bs) : c ∈ x.next.branches := by
  rw [next_eq hbs htasks]
  cases k with
  | prove g => exact List.mem_append_right _ hc
  | attempt g a => exact List.mem_cons_of_mem _ hc
  | close g d => exact List.mem_cons_of_mem _ hc

end Next

end ProofSearch

/-- What an enumeration picks, it picks out of proofs that steps have led to. -/
theorem ProofSearch.enumerate_invariant {α : Type} {pick : List α → GoalProof → Option α}
    {P : ProofSearch → Prop} {Q : α → Prop}
    (hnext : ∀ x : ProofSearch, x.isSettled = false → P x → P x.next)
    (hfound : ∀ (x : ProofSearch) (b : Branch) (bs : List Branch), P x → x.branches = b :: bs →
      b.tasks = [] → P { x with branches := bs } ∧
        ∀ found a, pick found b.proof = some a → Q a)
    (n limit steps : Nat) {found : List α} {x : ProofSearch} (hx : P x) (hQ : ∀ a ∈ found, Q a) :
    ∀ a ∈ (x.enumerate pick n limit steps found).items, Q a := by
  induction n generalizing steps found x with
  | zero => exact hQ
  | succ n ih =>
    unfold enumerate
    split
    next => exact hQ
    next =>
      have hseek : P (x.seek steps).2 := advance_invariant hnext steps hx
      dsimp only
      unfold status
      cases hbs : (x.seek steps).2.branches with
      | nil => exact hQ
      | cons b bs =>
        dsimp only
        cases htasks : b.tasks with
        | cons t ts => exact hQ
        | nil =>
          obtain ⟨hrest, hpick⟩ := hfound _ b bs hseek hbs htasks
          simp only [List.isEmpty_nil, if_true]
          split
          next => exact ih _ hrest hQ
          next a ha =>
            refine ih _ hrest (List.forall_mem_append.mpr ⟨hQ, ?_⟩)
            exact List.forall_mem_singleton.mpr (hpick found a ha)

/-- What an exhausted enumeration has picked is all that was picked out of the proofs on the way to a
    search without branches. -/
theorem ProofSearch.of_exhausted {α : Type} {pick : List α → GoalProof → Option α}
    {P : List α → ProofSearch → Prop}
    (hnext : ∀ found (x : ProofSearch), x.isSettled = false → P found x → P found x.next)
    (hfound : ∀ found (x : ProofSearch) (b : Branch) (bs : List Branch), P found x →
      x.branches = b :: bs → b.tasks = [] →
        P (found ++ (pick found b.proof).toList) { x with branches := bs })
    (n limit steps : Nat) {found : List α} {x : ProofSearch} (hx : P found x)
    (hstop : (x.enumerate pick n limit steps found).stop = .exhausted) :
    ∃ y : ProofSearch, y.branches = [] ∧ P (x.enumerate pick n limit steps found).items y := by
  induction n generalizing steps found x with
  | zero => cases hstop
  | succ n ih =>
    unfold enumerate at hstop ⊢
    split at hstop
    next => cases hstop
    next hlimit =>
      have hseek : P found (x.seek steps).2 := advance_invariant (hnext found) steps hx
      rw [if_neg hlimit]
      dsimp only at hstop ⊢
      unfold status at hstop ⊢
      cases hbs : (x.seek steps).2.branches with
      | nil => exact ⟨_, hbs, hseek⟩
      | cons b bs =>
        rw [hbs] at hstop
        dsimp only at hstop ⊢
        cases htasks : b.tasks with
        | cons t ts =>
          rw [htasks] at hstop
          cases hstop
        | nil =>
          have hrest := hfound found _ b bs hseek hbs htasks
          simp only [htasks, List.isEmpty_nil, if_true] at hstop ⊢
          cases hpick : pick found b.proof with
          | none =>
            rw [hpick] at hstop hrest
            exact ih _ (by simpa using hrest) hstop
          | some a =>
            rw [hpick] at hstop hrest
            exact ih _ hrest hstop

end Clausal
