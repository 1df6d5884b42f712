import Clausal.Proofs.Chaining.Steps
import Clausal.Proofs.Vocabulary
import Mathlib.Data.Prod.Lex
import Mathlib.Data.Set.Card
import Mathlib.Order.WithBot

/-!
# Termination of forward chaining

From clauses without functions that have arguments, only atoms over the vocabulary of these clauses
are inferred, and of these there are finitely many up to the names of variables.  A conclusion is
kept only if it is no instance of a stored fact, so it has a form that no stored fact has.  Every
round but the last one stores such a conclusion.

## Main definitions

- `DefiniteClause.FunctionFree`: all arguments are flat
- `vocabulary`: the terms and symbols of clauses
- `ClauseStore.missing`: the number of forms that no fact has yet
- `ForwardQuery.Confined`: a search that stays within a vocabulary

## Main statements

- `ClauseStore.missing_addAll_lt`: new facts lower the number of missing forms
- `ForwardQuery.Confined.next`: a step is the last one or lowers a measure
- `forward_chaining_terminates`: a search comes to its end
-/

namespace Clausal

variable {V : Vocabulary}

/-! ## Section 1: Clauses over a vocabulary -/

namespace DefiniteClause

/-- No function in a definite clause has arguments. -/
def FunctionFree (d : DefiniteClause) : Prop :=
  ∀ l ∈ d.clause.literals, ∀ t ∈ l.atom.args, t.Flat

instance (d : DefiniteClause) : Decidable d.FunctionFree :=
  inferInstanceAs (Decidable (∀ l ∈ d.clause.literals, ∀ t ∈ l.atom.args, t.Flat))

/-- The atoms of a definite clause are over the vocabulary. -/
def FlatIn (V : Vocabulary) (d : DefiniteClause) : Prop :=
  ∀ l ∈ d.clause.literals, l.atom.FlatIn V

variable {d : DefiniteClause}

theorem FlatIn.head (h : d.FlatIn V) : d.head.FlatIn V :=
  h ⟨true, d.head⟩ (mem_literals.mpr rfl)

private theorem FlatIn.body (h : d.FlatIn V) {a : Atom} (ha : a ∈ d.body) : a.FlatIn V :=
  h ⟨false, a⟩ (mem_body.mp ha)

private theorem FlatIn.ofAtom {a : Atom} (h : a.FlatIn V) : (ofAtom a).FlatIn V := by
  intro l hl
  obtain rfl := List.mem_singleton.mp hl
  exact h

theorem FlatIn.renameApart (h : d.FlatIn V) (s : Names) : (d.renameApart s).1.FlatIn V := by
  intro l hl
  obtain ⟨k, hk, rfl⟩ := List.mem_map.mp (mem_of_mem_dedup hl)
  exact (h k hk).subst fun x => Term.flatIn_var V _

end DefiniteClause

/-- The terms and symbols of clauses. -/
def vocabulary (ds : List DefiniteClause) : Vocabulary :=
  let atoms := ds.flatMap fun d => d.clause.literals.map Literal.atom
  ⟨atoms.flatMap Atom.args, atoms.map fun a => (a.symbol, a.args.length)⟩

private theorem flatIn_vocabulary {ds : List DefiniteClause} {d : DefiniteClause} (hd : d ∈ ds)
    (h : d.FunctionFree) : d.FlatIn (vocabulary ds) := by
  intro l hl
  have hatom : l.atom ∈ ds.flatMap fun d => d.clause.literals.map Literal.atom :=
    List.mem_flatMap.mpr ⟨d, hd, List.mem_map_of_mem hl⟩
  refine ⟨List.mem_map.mpr ⟨l.atom, hatom, rfl⟩, fun t ht => ⟨h l hl t ht, fun _ => ?_⟩⟩
  exact List.mem_flatMap.mpr ⟨l.atom, hatom, ht⟩

/-! ## Section 2: Conclusions over a vocabulary -/

namespace ClauseStore

variable {t : ClauseStore} {s : Names}

/-- The clauses of a store are over the vocabulary. -/
def FlatIn (V : Vocabulary) (t : ClauseStore) : Prop :=
  ∀ d ∈ t.toList, d.FlatIn V

theorem FlatIn.unifier (ht : t.FlatIn V) {goal : Atom} (hgoal : goal.FlatIn V) {σ : Substitution}
    (hσ : σ.FlatIn V) {a : Application} (ha : a ∈ (t.applications s goal σ).1) :
    a.unifier.FlatIn V := by
  obtain ⟨d, hd, s', -, -, hclause, hunify⟩ := of_mem_applications ha
  have hhead : a.clause.head.FlatIn V := hclause ▸ ((ht d hd).renameApart s').head
  exact Atom.flatIn_of_unify hσ hhead hgoal hunify

private theorem FlatIn.matchBody (ht : t.FlatIn V) {as : List Atom} (has : ∀ a ∈ as, a.FlatIn V)
    {i j : Inference} (hj : j ∈ (t.matchBody as s i).1) (hi : i.unifier.FlatIn V) :
    j.rule = i.rule ∧ j.unifier.FlatIn V := by
  induction as generalizing s i with
  | nil =>
    obtain rfl := List.mem_singleton.mp hj
    exact ⟨rfl, hi⟩
  | cons a as ih =>
    obtain ⟨ha, has⟩ := List.forall_mem_cons.mp has
    obtain ⟨f, hf, -, s', -, -, hj⟩ := of_mem_matchBody_cons hj
    exact (ih has hj (ht.unifier ha hi hf) :)

/-- Whatever a rule infers is over the vocabulary of the facts and the rule. -/
theorem FlatIn.conclusion (ht : t.FlatIn V) {r : DefiniteClause} (hr : r.FlatIn V) {i : Inference}
    (hi : i ∈ (t.inferences s r).1) : i.conclusion.FlatIn V := by
  obtain ⟨hrule, hunifier⟩ :=
    ht.matchBody (fun a ha => hr.body ha) hi (Substitution.flatIn_empty V)
  have hhead : i.rule.head.FlatIn V := by
    rw [hrule]
    exact hr.head
  exact hhead.subst hunifier.value

private theorem FlatIn.addAll (ht : t.FlatIn V) {new : List Atom} (hnew : ∀ a ∈ new, a.FlatIn V) :
    (t.addAll (new.map .ofAtom)).FlatIn V := by
  intro d hd
  rcases mem_addAll hd with hd | hd
  · exact ht d hd
  · obtain ⟨a, ha, rfl⟩ := List.mem_map.mp hd
    exact .ofAtom (hnew a ha)

/-! ## Section 3: Missing forms -/

/-- Instances of facts are stated. -/
theorem Keyed.states_of_mapsTo (ht : t.Keyed) {f a : Atom} (hf : f ∈ t.facts)
    {ρ : Ident → Term} (h : f.MapsTo ρ a) : t.states a = true := by
  obtain ⟨d, hd, hfact, rfl⟩ := mem_facts.mp hf
  refine List.any_eq_true.mpr ⟨d, ht.mem_candidates hd h.1, ?_⟩
  have hmatch := h.match?_ne_none (Substitution.agrees_empty ρ)
  simp [hfact, Option.isSome_iff_ne_none, hmatch]

/-- A fact that is not stated yet is stored as it is. -/
theorem Keyed.mem_facts_add (ht : t.Keyed) {a : Atom} (ha : t.states a = false) :
    a ∈ (t.add (.ofAtom a)).2.facts := by
  obtain ⟨d, hd, hbeq⟩ := t.exists_mem_add (.ofAtom a)
  obtain ⟨hfact, hhead⟩ := DefiniteClause.isFact_of_beq rfl hbeq
  rcases mem_add hd with hold | rfl
  · -- an equal clause of the store would state the atom
    have hmaps : d.head.MapsTo .var a := Atom.mapsTo_of_beq (by rwa [Atom.subst_var])
    have hstates := ht.states_of_mapsTo (mem_facts.mpr ⟨d, hold, hfact, rfl⟩) hmaps
    rw [ha] at hstates
    cases hstates
  · exact mem_facts.mpr ⟨_, hd, hfact, rfl⟩

private theorem mem_facts_addAll {f : Atom} (hf : f ∈ t.facts) (ds : List DefiniteClause) :
    f ∈ (t.addAll ds).facts := by
  obtain ⟨d, hd, hrest⟩ := mem_facts.mp hf
  exact mem_facts.mpr ⟨d, mem_addAll_of_mem hd, hrest⟩

/-- The number of forms that no fact has yet. -/
noncomputable def missing (V : Vocabulary) (t : ClauseStore) : Nat :=
  (V.forms \ Atom.form '' {f | f ∈ t.facts}).ncard

/-- If some facts are stored that were not stated, then fewer forms are missing. -/
theorem missing_addAll_lt (ht : t.Keyed) {new : List Atom} (hne : new ≠ [])
    (hnew : ∀ a ∈ new, a.FlatIn V ∧ t.states a = false) :
    (t.addAll (new.map .ofAtom)).missing V < t.missing V := by
  obtain ⟨a, rest, rfl⟩ := List.exists_cons_of_ne_nil hne
  obtain ⟨hflat, hstates⟩ := hnew a List.mem_cons_self
  have hstored : a ∈ (t.addAll ((a :: rest).map .ofAtom)).facts :=
    mem_facts_addAll (ht.mem_facts_add hstates) (rest.map .ofAtom)
  have hmissing : a.form ∉ Atom.form '' {f | f ∈ t.facts} := by
    -- a fact of the same form would state the atom, whatever its variables are called
    rintro ⟨f, hf, hform⟩
    obtain ⟨ρ, hρ⟩ := Atom.mapsTo_of_form_eq hform
    rw [ht.states_of_mapsTo hf hρ] at hstates
    cases hstates
  apply Set.ncard_lt_ncard _ (V.finite_forms.subset Set.sdiff_subset)
  apply (Set.ssubset_iff_of_subset _).mpr
  · exact ⟨a.form, ⟨⟨a, hflat, rfl⟩, hmissing⟩, fun h => h.2 ⟨a, hstored, rfl⟩⟩
  · apply Set.sdiff_subset_sdiff_right
    apply Set.image_mono
    exact fun f hf => mem_facts_addAll hf _

end ClauseStore

/-! ## Section 4: A search within a vocabulary -/

/-- How far a task is from the end of its round. -/
def ForwardTask.rank : ForwardTask → WithTop Nat
  | .rules left _ => left.length
  | _ => ⊤

namespace ForwardQuery

/-- What is to be done stays within the vocabulary, and the facts of this round are not stated yet. -/
def TaskIn (V : Vocabulary) (t : ClauseStore) : ForwardTask → Prop
  | .initial => False
  | .round _ => True
  | .rules left new => left ≠ [] ∧ (∀ d ∈ left, d.FlatIn V) ∧
      ∀ a ∈ new, a.FlatIn V ∧ t.states a = false

/-- A search that stays within a vocabulary. -/
structure Confined (V : Vocabulary) (q : ForwardQuery) : Prop where
  keyed : q.store.Keyed
  store : q.store.FlatIn V
  task : TaskIn V q.store q.task

/-- The measure of a search: first the number of missing forms, then what is left of a round. -/
noncomputable def measure (V : Vocabulary) (q : ForwardQuery) : Nat ×ₗ WithTop Nat :=
  toLex (q.store.missing V, q.task.rank)

variable {q : ForwardQuery} {left : List DefiniteClause} {new : List Atom}

/-- Going on with a round, or with the next one. -/
theorem Confined.enterRules (h : q.Confined V) (hleft : ∀ d ∈ left, d.FlatIn V)
    (hnew : ∀ a ∈ new, a.FlatIn V ∧ q.store.states a = false)
    (hrank : (left.length : WithTop Nat) < q.task.rank) :
    (q.enterRules left new).isComplete = true ∨
      (q.enterRules left new).Confined V ∧ (q.enterRules left new).measure V < q.measure V := by
  unfold ForwardQuery.enterRules
  split
  next =>
    unfold enterRound
    split
    next => exact Or.inl rfl
    next hne =>
      -- the facts of this round have forms that were missing
      have hlt := q.store.missing_addAll_lt h.keyed (by simpa using hne) hnew
      exact Or.inr ⟨⟨h.keyed.addAll, h.store.addAll fun a ha => (hnew a ha).1, trivial⟩,
        Prod.Lex.left _ _ hlt⟩
  next hne =>
    exact Or.inr ⟨⟨h.keyed, h.store, by simpa using hne, hleft, hnew⟩, Prod.Lex.right _ hrank⟩

/-- A step is the last one or lowers the measure. -/
theorem Confined.next (h : q.Confined V) (hopen : q.isComplete = false) (s : Names) :
    (ForwardQuery.next (q, s)).1.isComplete = true ∨
      (ForwardQuery.next (q, s)).1.Confined V ∧
        (ForwardQuery.next (q, s)).1.measure V < q.measure V := by
  have htask := h.task
  cases heq : q.task with
  | initial =>
    rw [heq] at htask
    exact htask.elim
  | round new =>
    -- the store stays as it is, and from now on the rules that are left can be counted
    simp only [ForwardQuery.next, heq]
    apply h.enterRules
    · intro e he
      obtain ⟨d, hd, s', -, -, rfl⟩ := of_mem_relevantRules he
      exact (h.store d (ClauseStore.mem_rules.mp hd).1).renameApart s'
    · simp
    · rw [heq]
      exact WithTop.coe_lt_top _
  | rules left new =>
    rw [heq] at htask
    obtain ⟨hne, hleft, hnew⟩ := htask
    obtain ⟨r, left, rfl⟩ := List.exists_cons_of_ne_nil hne
    obtain ⟨hr, hleft⟩ := List.forall_mem_cons.mp hleft
    rcases next_of_rules heq hopen s with htrue | ⟨proof, new', hstep, -, hfrom, -⟩
    · exact Or.inl (by simp [isComplete, htrue])
    · rw [hstep]
      have hq : ({ q with proof } : ForwardQuery).Confined V := ⟨h.keyed, h.store, h.task⟩
      apply hq.enterRules hleft
      · intro a ha
        rcases hfrom a ha with ha | ⟨i, hi, rfl, hstates, -⟩
        · exact hnew a ha
        · exact ⟨h.store.conclusion hr hi, hstates⟩
      · rw [heq]
        exact WithTop.coe_lt_coe.mpr (Nat.lt_succ_self _)

/-- The beginning of a search. -/
theorem confined_enter (hkeyed : q.store.Keyed) (hstore : q.store.FlatIn V) (s : Names) :
    (q.enter s).1.isComplete = true ∨ (q.enter s).1.Confined V := by
  unfold ForwardQuery.enter
  dsimp only
  split
  next => exact Or.inl rfl
  next =>
    unfold enterRound
    split
    next => exact Or.inl rfl
    next => exact Or.inr ⟨hkeyed, hstore, trivial⟩

end ForwardQuery

/-! ## Section 5: Termination -/

/-- Forward chaining from clauses without functions that have arguments comes to an answer, whatever
    the goal: there is a number of steps from which on the search is always the same. -/
theorem forward_chaining_terminates (t : ClauseStore) (goal : Atom) (s : Names)
    (h : ∀ d ∈ t.toList, d.FunctionFree) :
    ∃ n b y, ∀ m, n ≤ m → (ForwardQuery.start t goal).execute m s = (.ok b, y) := by
  have hflat : (ClauseStore.ofList t.toList).FlatIn (vocabulary t.toList) := by
    intro d hd
    have hd := ClauseStore.mem_ofList hd
    exact flatIn_vocabulary hd (h d hd)
  apply ForwardQuery.exists_execute (P := fun x => x.1.Confined (vocabulary t.toList)) rfl
    fun x => x.1.measure (vocabulary t.toList)
  · exact ForwardQuery.confined_enter (ClauseStore.keyed_ofList _) hflat s
  · exact fun x hx hconfined => hconfined.next hx x.2

/-- A function without arguments meets everything, whatever is met meets everything, and those that
    meet are equal. -/
def meetings : ClauseStore :=
  .ofList [.ofAtom (.pred (.num 0) [.app (.num 1) [], .var (.num 5)]),
    ⟨.ofList [⟨false, .pred (.num 0) [.var (.num 5), .var (.num 6)]⟩,
      ⟨true, .pred (.num 0) [.var (.num 6), .var (.num 7)]⟩] .rule, by decide⟩,
    ⟨.ofList [⟨false, .pred (.num 0) [.var (.num 5), .var (.num 6)]⟩,
      ⟨true, .eq (.var (.num 5)) (.var (.num 6))⟩] .rule, by decide⟩]

theorem forward_chaining_terminates_meetings :
    (∀ d ∈ meetings.toList, d.FunctionFree) ∧
      ∃ n b y, ∀ m, n ≤ m → (ForwardQuery.start meetings
        (.pred (.num 2) [.app (.num 1) [.const (.num 3)]])).execute m {} = (.ok b, y) := by
  have hfree : ∀ d ∈ meetings.toList, d.FunctionFree := by decide
  exact ⟨hfree, forward_chaining_terminates meetings _ {} hfree⟩

end Clausal
