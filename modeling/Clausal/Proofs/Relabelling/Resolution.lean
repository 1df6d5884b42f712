import Clausal.Proofs.Relabelling.Normal
import Clausal.Proofs.Relabelling.Unification
import Clausal.Proofs.Respelling.Resolution
import Clausal.Proofs.Resolution.Search

/-!
# Refutations under relabelling

Two searches for a contradiction that start from clauses with different labels, and with supplies in
step, stay equal up to labels: they do the same resolutions in the same order and come to the same
result.  This needs a strategy that does not look at labels, and no strategy of those that have
names does.

## Main definitions

- `relabel` for resolutions, agendas and refutations
- `Strategy.Blind`: strategies that do not look at labels

## Main statements

- `Clause.relates_resolve`, `Agenda.relates_queue`
- `Refutation.relates_next`: a step of two searches
- `Refutation.relates_start`, `Refutation.execute_relabel`: from the question to the answer
-/

namespace Clausal

open Relabelling

variable (π : Relabelling)

/-! ## Section 1: Resolutions -/

/-- A resolution with other labels. -/
def Resolution.relabel (r : Resolution) : Resolution where
  first := r.first.relabel π
  second := r.second.relabel π
  unifier := r.unifier.relabel π
  resolvent := r.resolvent.relabel π

namespace Clause

private theorem sharesVars_relabel (c d : Clause) :
    (c.relabel π).sharesVars (d.relabel π) = c.sharesVars d := by
  rw [sharesVars, vars_relabel, vars_relabel, List.any_map]
  exact congrArg c.vars.any (funext ((Ident.keepsEq_relabel π).contains_map d.vars))

private theorem resolveApart_relabel (c d : Clause) :
    (c.relabel π).resolveApart (d.relabel π) =
      (c.resolveApart d).map (Prod.map (Substitution.relabel π) (relabel π)) := by
  rw [relabel_eq_respell, Substitution.relabel_eq_respell]
  exact c.resolveApart_respell π.respelling d

variable {π} {s s' : Names}

private theorem relates_apartFrom (h : π.Aligned s s') (c d : Clause) :
    π.Relates (relabel π) (c.apartFrom s d) ((c.relabel π).apartFrom s' (d.relabel π)) := by
  rw [apartFrom, apartFrom, sharesVars_relabel]
  split
  next => exact d.relates_renameApart h
  next => exact ⟨rfl, h⟩

theorem relates_resolve (h : π.Aligned s s') (c d : Clause) :
    π.Relates (List.map (Resolution.relabel π)) (c.resolve s d)
      ((c.relabel π).resolve s' (d.relabel π)) := by
  have hd := c.relates_apartFrom h d
  refine ⟨?_, hd.names⟩
  show (((c.relabel π).resolveApart ((c.relabel π).apartFrom s' (d.relabel π)).1).map _) =
    ((c.resolveApart (c.apartFrom s d).1).map _).map _
  rw [hd.value, resolveApart_relabel, List.map_map, List.map_map]
  rfl

end Clause

/-! ## Section 2: Agendas -/

/-- Strategies that do not look at labels. -/
structure Strategy.Blind (strategy : Strategy) : Prop where
  accepts : ∀ π r, strategy.accepts (r.relabel π) = strategy.accepts r
  outranks : ∀ π r q, strategy.outranks (r.relabel π) (q.relabel π) = strategy.outranks r q

/-- Named filters and priorities count literals. -/
theorem StrategyChoice.blind_strategy (c : StrategyChoice) : c.strategy.Blind := by
  have hunit : ∀ π (r : Resolution), (r.relabel π).hasUnitParent = r.hasUnitParent := fun π r => by
    simp [Resolution.hasUnitParent, Resolution.relabel]
  have hsize : ∀ π (r : Resolution), (r.relabel π).parentSize = r.parentSize := fun π r => by
    simp [Resolution.parentSize, Resolution.relabel]
  obtain ⟨filter, priority⟩ := c
  have hurgency : ∀ π r, urgency ⟨filter, priority⟩ (r.relabel π) = urgency ⟨filter, priority⟩ r := by
    intro π r
    rcases priority with _ | _ | _
    · rfl
    · simp [urgency, ResolutionPriority.value, hunit]
    · simp [urgency, ResolutionPriority.value, hsize]
  constructor
  · intro π r
    cases filter with
    | all => rfl
    | unitParent => exact hunit π r
  · intro π r q
    simp only [strategy, hurgency]

private theorem Strategy.Blind.takeUrgent?_relabel {strategy : Strategy} (hblind : strategy.Blind)
    (rs : List Resolution) : strategy.takeUrgent? (rs.map (Resolution.relabel π)) =
      (strategy.takeUrgent? rs).map
        (Prod.map (Resolution.relabel π) (List.map (Resolution.relabel π))) := by
  induction rs with
  | nil => rfl
  | cons r rs ih =>
    rw [List.map_cons, takeUrgent?, takeUrgent?, ih]
    cases strategy.takeUrgent? rs with
    | none => rfl
    | some taken =>
      simp only [Option.map_some, Prod.map, hblind.outranks]
      split <;> rfl

private theorem pairings_map {α β : Type} (f : α → β) (l : List α) :
    pairings (l.map f) = (pairings l).map (Prod.map f f) := by
  induction l with
  | nil => rfl
  | cons a l ih =>
    rw [List.map_cons, pairings, pairings, ih, ← List.map_cons, List.map_append, List.map_map,
      List.map_map]
    rfl

private theorem Strategy.Blind.filter_relabel {strategy : Strategy} (hblind : strategy.Blind)
    (rs : List Resolution) : (rs.map (Resolution.relabel π)).filter strategy.accepts =
      (rs.filter strategy.accepts).map (Resolution.relabel π) := by
  rw [List.filter_map, show strategy.accepts ∘ Resolution.relabel π = strategy.accepts from
    funext (hblind.accepts π)]

namespace Agenda

/-- An agenda with other labels. -/
def relabel (a : Agenda) : Agenda where
  clauses := a.clauses.map (Clause.relabel π)
  pending := a.pending.map (Resolution.relabel π)

@[simp]
theorem contains_relabel (a : Agenda) (c : Clause) :
    (a.relabel π).contains (c.relabel π) = a.contains c :=
  (Clause.keepsEq_relabel π).contains_map a.clauses c

@[simp]
theorem isEmpty_relabel (a : Agenda) : (a.relabel π).isEmpty = a.isEmpty := by
  simp [isEmpty, relabel]

private theorem relabel_ofClauses (cs : List Clause) :
    (ofClauses cs).relabel π = ofClauses (cs.map (Clause.relabel π)) := by
  simp only [relabel, ofClauses, (Clause.keepsEq_relabel π).dedup_map, List.map_nil]

private theorem next?_relabel {strategy : Strategy} (hblind : strategy.Blind) (a : Agenda) :
    (a.relabel π).next? strategy =
      (a.next? strategy).map (Prod.map (Resolution.relabel π) (relabel π)) := by
  simp only [next?, relabel, hblind.takeUrgent?_relabel, Option.map_map]
  rfl

variable {π} {s s' : Names} {strategy : Strategy}

theorem relates_queue (hblind : strategy.Blind) (h : π.Aligned s s') (ps : List (Clause × Clause))
    (a : Agenda) : π.Relates (relabel π) (a.queue strategy s ps) ((a.relabel π).queue strategy s'
      (ps.map (Prod.map (Clause.relabel π) (Clause.relabel π)))) := by
  have hpairs : π.Relates (List.map (Resolution.relabel π)) (resolvePairs s ps)
      (resolvePairs s' (ps.map (Prod.map (Clause.relabel π) (Clause.relabel π)))) :=
    Relates.flatMap (fun p hs => p.1.relates_resolve hs p.2) h ps
  refine ⟨?_, hpairs.names⟩
  show Agenda.mk _ (_ ++ (resolvePairs s' _).1.filter strategy.accepts) =
    Agenda.mk _ ((a.pending ++ (resolvePairs s ps).1.filter strategy.accepts).map _)
  rw [hpairs.value, hblind.filter_relabel, List.map_append]
  rfl

private theorem relates_start (hblind : strategy.Blind) (h : π.Aligned s s') (new : List Clause)
    (a : Agenda) : π.Relates (relabel π) (a.start strategy s new)
      ((a.relabel π).start strategy s' (new.map (Clause.relabel π))) := by
  have hclauses : dedup ((a.relabel π).clauses ++ new.map (Clause.relabel π)) =
      (dedup (a.clauses ++ new)).map (Clause.relabel π) := by
    rw [← (Clause.keepsEq_relabel π).dedup_map, List.map_append]
    rfl
  rw [start, start]
  dsimp only
  rw [hclauses, pairings_map]
  exact relates_queue hblind h _ { a with clauses := dedup (a.clauses ++ new) }

theorem relates_extend (hblind : strategy.Blind) (h : π.Aligned s s') (c : Clause) (a : Agenda) :
    π.Relates (relabel π) (a.extend strategy s c)
      ((a.relabel π).extend strategy s' (c.relabel π)) := by
  have hclauses : (a.relabel π).clauses ++ [c.relabel π] =
      (a.clauses ++ [c]).map (Clause.relabel π) := by
    rw [List.map_append]
    rfl
  have hpairs : ((a.clauses ++ [c]).map (Clause.relabel π)).map (c.relabel π, ·) =
      ((a.clauses ++ [c]).map (c, ·)).map (Prod.map (Clause.relabel π) (Clause.relabel π)) := by
    rw [List.map_map, List.map_map]
    rfl
  rw [extend, extend]
  dsimp only
  rw [hclauses, hpairs]
  exact relates_queue hblind h _ { a with clauses := a.clauses ++ [c] }

end Agenda

/-! ## Section 3: Refutations -/

namespace Refutation

/-- A search with other labels. -/
def relabel (q : Refutation) : Refutation where
  strategy := q.strategy
  negated := q.negated.relabel π
  agenda := q.agenda.relabel π
  steps := q.steps.map (Resolution.relabel π)
  result := q.result
  begun := q.begun

theorem settle_relabel (q : Refutation) : (q.relabel π).settle = q.settle.relabel π := by
  have hempty : (q.relabel π).agenda.isEmpty = q.agenda.isEmpty := q.agenda.isEmpty_relabel π
  rw [settle, hempty, settle]
  split <;> rfl

private theorem isSome_find?_relabel (q : Refutation) (c : Clause) :
    ((q.relabel π).find? (c.relabel π)).isSome = (q.find? c).isSome := by
  rw [find?, relabel, List.find?_map, Option.isSome_map, find?]
  have heq : (fun r : Resolution => r.resolvent == c.relabel π) ∘ Resolution.relabel π =
      fun r => r.resolvent == c :=
    funext fun r => Clause.keepsEq_relabel π r.resolvent c
  rw [heq]

variable {π} {s s' : Names}

private theorem relates_record {q : Refutation} (hblind : q.strategy.Blind) (h : π.Aligned s s')
    (r : Resolution) :
    π.Relates (relabel π) (q.record s r) ((q.relabel π).record s' (r.relabel π)) := by
  have hknown : (((q.relabel π).find? (r.resolvent.relabel π)).isSome ||
        (q.agenda.relabel π).contains (r.resolvent.relabel π)) =
      ((q.find? r.resolvent).isSome || q.agenda.contains r.resolvent) := by
    rw [isSome_find?_relabel, Agenda.contains_relabel]
  have hempty : (r.relabel π).resolvent.isEmpty = r.resolvent.isEmpty :=
    r.resolvent.isEmpty_relabel π
  have hsteps : (q.relabel π).steps ++ [r.relabel π] =
      (q.steps ++ [r]).map (Resolution.relabel π) := by
    rw [List.map_append]
    rfl
  by_cases hk : ((q.find? r.resolvent).isSome || q.agenda.contains r.resolvent) = true
  · -- the clause is known, and nothing is recorded
    have hq : q.record s r = (q.settle, s) := if_pos hk
    have hq' : (q.relabel π).record s' (r.relabel π) = ((q.relabel π).settle, s') :=
      if_pos (hknown.trans hk)
    rw [hq, hq']
    exact ⟨q.settle_relabel π, h⟩
  · have hk' := mt hknown.symm.trans hk
    by_cases he : r.resolvent.isEmpty = true
    · -- a contradiction, and no names are used up
      have hq : q.record s r = ({ q with steps := q.steps ++ [r], result := some true }, s) :=
        (if_neg hk).trans (if_pos he)
      have hq' : (q.relabel π).record s' (r.relabel π) = ({ q.relabel π with
          steps := (q.relabel π).steps ++ [r.relabel π], result := some true }, s') :=
        (if_neg hk').trans (if_pos (hempty.trans he))
      rw [hq, hq', hsteps]
      exact ⟨rfl, h⟩
    · -- the clause is paired with all others, for which copies are made
      have hextend := q.agenda.relates_extend hblind h r.resolvent
      have hq : q.record s r = (settle { q with
          steps := q.steps ++ [r], agenda := (q.agenda.extend q.strategy s r.resolvent).1 },
          (q.agenda.extend q.strategy s r.resolvent).2) := (if_neg hk).trans (if_neg he)
      have hq' : (q.relabel π).record s' (r.relabel π) = (settle { q.relabel π with
          steps := (q.relabel π).steps ++ [r.relabel π]
          agenda := ((q.agenda.relabel π).extend q.strategy s' (r.resolvent.relabel π)).1 },
          ((q.agenda.relabel π).extend q.strategy s' (r.resolvent.relabel π)).2) :=
        (if_neg hk').trans (if_neg (mt hempty.symm.trans he))
      rw [hq, hq', hextend.value, hsteps]
      exact ⟨settle_relabel π { q with
        steps := q.steps ++ [r], agenda := (q.agenda.extend q.strategy s r.resolvent).1 },
        hextend.names⟩

/-- A step of two searches. -/
theorem relates_next {x y : Refutation × Names} (hblind : x.1.strategy.Blind)
    (h : π.Relates (relabel π) x y) : π.Relates (relabel π) (next x) (next y) := by
  obtain ⟨q, s⟩ := x
  obtain ⟨q', s'⟩ := y
  obtain ⟨rfl, hs⟩ := h
  have hnext : (q.relabel π).agenda.next? (q.relabel π).strategy =
      (q.agenda.next? q.strategy).map (Prod.map (Resolution.relabel π) (Agenda.relabel π)) :=
    q.agenda.next?_relabel π hblind
  by_cases hc : q.isComplete = true
  · have hc' : (q.relabel π).isComplete = true := hc
    rw [next_of_complete hc, next_of_complete hc']
    exact ⟨rfl, hs⟩
  · have hc' : ¬ (q.relabel π).isComplete = true := hc
    unfold next step
    dsimp only
    rw [if_neg hc, if_neg hc', hnext]
    cases q.agenda.next? q.strategy with
    | none => exact ⟨rfl, hs⟩
    | some taken => exact relates_record (q := { q with agenda := taken.2 }) hblind hs taken.1

/-- A run of two searches. -/
theorem relates_iterate {q : Refutation} (hblind : q.strategy.Blind) (h : π.Aligned s s')
    (n : Nat) : π.Relates (relabel π) (next^[n] (q, s)) (next^[n] (q.relabel π, s')) := by
  -- the strategy stays what it is
  have hstrategy : ∀ n, (next^[n] (q, s)).1.strategy = q.strategy := by
    intro n
    induction n with
    | zero => rfl
    | succ n ih => rw [Function.iterate_succ_apply', strategy_next, ih]
  induction n with
  | zero => exact ⟨rfl, h⟩
  | succ n ih =>
    rw [Function.iterate_succ_apply', Function.iterate_succ_apply']
    exact relates_next (hstrategy n ▸ hblind) ih

/-- Searches that differ in labels come to the same answer, or to none. -/
theorem execute_relabel {q : Refutation} (hblind : q.strategy.Blind) (h : π.Aligned s s')
    (n : Nat) : ((q.relabel π).execute n s').1 = (q.execute n s).1 := by
  cases hbegun : q.begun with
  | true =>
    have hq : q.execute n s = (.error .alreadyBegun, q, s) := if_pos hbegun
    have hq' : (q.relabel π).execute n s' = (.error .alreadyBegun, q.relabel π, s') :=
      if_pos hbegun
    rw [hq, hq']
  | false =>
    have hbegun' : (q.relabel π).begun = false := hbegun
    rw [execute_eq hbegun, execute_eq hbegun', (relates_iterate hblind h n).value]
    rfl

theorem relates_start {strategy : Strategy} (hblind : strategy.Blind) (h : π.Aligned s s')
    (cs : List Clause) (f : Formula) : π.Relates (relabel π) (start strategy cs s f)
      (start strategy (cs.map (Clause.relabel π)) s' (f.relabel π)) := by
  -- the negated question comes first, and the clauses are paired with the names it leaves
  have hcnf := (Formula.not f).relates_toCnf h
  have hclauses : ((Formula.not (f.relabel π)).toCnf s').1.clauses =
      ((Formula.not f).toCnf s).1.clauses.map (Clause.relabel π) :=
    congrArg Cnf.clauses hcnf.value
  have hagenda := (Agenda.ofClauses cs).relates_start hblind hcnf.names
    ((Formula.not f).toCnf s).1.clauses
  rw [Agenda.relabel_ofClauses, ← hclauses] at hagenda
  refine ⟨?_, hagenda.names⟩
  calc (start strategy (cs.map (Clause.relabel π)) s' (f.relabel π)).1
      = settle ⟨strategy, _, _, [], none, false⟩ := congrArg₂
        (fun c a => settle ⟨strategy, c, a, [], none, false⟩) hcnf.value hagenda.value
    _ = (start strategy cs s f).1.relabel π := settle_relabel π ⟨strategy, _, _, [], none, false⟩

end Refutation

end Clausal
