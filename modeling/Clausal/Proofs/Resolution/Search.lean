import Clausal.Proofs.Clause
import Clausal.Resolution.Refutation
import Mathlib.Logic.Function.Iterate

/-!
# Steps of a search

What one step of a search for a contradiction can do.  It takes the most urgent resolution from the
agenda; the resolvent is known already, or is the empty clause and ends the search, or becomes a
known clause whose resolutions with all known clauses are queued.  Invariants of a search are proved
from these cases and carried along a run by `Refutation.iterate_next`.

## Main statements

- `Strategy.takeUrgent?_perm`: the agenda loses the resolution that is taken, and nothing else
- `Names.exists_supply`, `Names.exists_of_mem_flatMap`: each element is dealt with under some supply
- `Refutation.next_cases`, `Refutation.record_cases`: the cases of a step
- `Refutation.iterate_next`: what a step preserves, a run preserves
- `Refutation.run_eq_iterate`, `Refutation.execute_eq`: runs are iterated steps
-/

namespace Clausal

/-! ## Section 1: The most urgent resolution -/

namespace Strategy

variable {strategy : Strategy} {rs rest : List Resolution} {r : Resolution}

/-- Something is taken if there is anything. -/
theorem takeUrgent?_ne_none (hrs : rs ≠ []) : strategy.takeUrgent? rs ≠ none := by
  cases rs with
  | nil => exact absurd rfl hrs
  | cons q rs =>
    unfold takeUrgent?
    split
    next => simp
    next => split <;> simp

/-- Taking the most urgent resolution takes it off the agenda, and nothing else. -/
theorem takeUrgent?_perm (h : strategy.takeUrgent? rs = some (r, rest)) : rs.Perm (r :: rest) := by
  induction rs generalizing r rest with
  | nil => simp [takeUrgent?] at h
  | cons q rs ih =>
    unfold takeUrgent? at h
    cases htail : strategy.takeUrgent? rs with
    | none =>
      -- nothing follows, since something would have been taken of it
      obtain rfl : rs = [] := by_contra fun hrs => takeUrgent?_ne_none hrs htail
      obtain ⟨rfl, rfl⟩ := Prod.mk.inj (Option.some.inj h)
      exact .refl _
    | some taken =>
      obtain ⟨best, others⟩ := taken
      simp only [htail] at h
      split at h
      next =>
        obtain ⟨rfl, rfl⟩ := Prod.mk.inj (Option.some.inj h)
        exact ((ih htail).cons q).trans (.swap _ _ _)
      next =>
        obtain ⟨rfl, rfl⟩ := Prod.mk.inj (Option.some.inj h)
        exact .refl _

end Strategy

/-! ## Section 2: Queues -/

namespace Names

variable {α β : Type} {f : Names → α → List β × Names} {s : Names} {l : List α}

theorem next_le_next_flatMap (hf : ∀ s a, s.next ≤ (f s a).2.next) (s : Names) (l : List α) :
    s.next ≤ (s.flatMap f l).2.next := by
  induction l generalizing s with
  | nil => exact Nat.le_refl _
  | cons a l ih => exact Nat.le_trans (hf s a) (ih _)

/-- Every element is dealt with, under a supply that is handed on. -/
theorem exists_supply (hf : ∀ s a, s.next ≤ (f s a).2.next) {a : α} (ha : a ∈ l) :
    ∃ s', s.next ≤ s'.next ∧ (f s' a).2.next ≤ (s.flatMap f l).2.next ∧
      ∀ b ∈ (f s' a).1, b ∈ (s.flatMap f l).1 := by
  induction l generalizing s with
  | nil => simp at ha
  | cons c l ih =>
    rcases List.mem_cons.mp ha with rfl | ha
    · exact ⟨s, Nat.le_refl _, next_le_next_flatMap hf _ l, fun b => List.mem_append_left _⟩
    · obtain ⟨s', hle, hle', hmem⟩ := ih (s := (f s c).2) ha
      exact ⟨s', Nat.le_trans (hf s c) hle, hle', fun b hb => List.mem_append_right _ (hmem b hb)⟩

/-- Everything that comes out comes from an element, under a supply that is handed on. -/
theorem exists_of_mem_flatMap (hf : ∀ s a, s.next ≤ (f s a).2.next) {b : β}
    (hb : b ∈ (s.flatMap f l).1) : ∃ a ∈ l, ∃ s', s.next ≤ s'.next ∧
      (f s' a).2.next ≤ (s.flatMap f l).2.next ∧ b ∈ (f s' a).1 := by
  induction l generalizing s with
  | nil => simp [flatMap] at hb
  | cons c l ih =>
    rcases List.mem_append.mp hb with hb | hb
    · exact ⟨c, List.mem_cons_self, s, Nat.le_refl _, next_le_next_flatMap hf _ l, hb⟩
    · obtain ⟨a, ha, s', hle, hle', hb⟩ := ih hb
      exact ⟨a, List.mem_cons_of_mem _ ha, s', Nat.le_trans (hf s c) hle, hle', hb⟩

end Names

theorem Clause.next_le_next_resolve (s : Names) (c d : Clause) :
    s.next ≤ (c.resolve s d).2.next := by
  simp only [resolve, apartFrom]
  split
  · exact Nat.le_add_right _ _
  · exact Nat.le_refl _

namespace Agenda

variable {strategy : Strategy} {s : Names} {ps : List (Clause × Clause)} {a : Agenda}

@[simp]
theorem clauses_queue : (a.queue strategy s ps).1.clauses = a.clauses := rfl

theorem next_le_next_queue : s.next ≤ (a.queue strategy s ps).2.next :=
  Names.next_le_next_flatMap (fun s p => p.1.next_le_next_resolve s p.2) s ps

/-- What is to be done was to be done before or is a resolution of one of the pairs. -/
theorem of_mem_queue {r : Resolution} (h : r ∈ (a.queue strategy s ps).1.pending) :
    r ∈ a.pending ∨ ∃ e ∈ ps, ∃ s', s.next ≤ s'.next ∧
      (e.1.resolve s' e.2).2.next ≤ (a.queue strategy s ps).2.next ∧
      r ∈ (e.1.resolve s' e.2).1 := by
  rcases List.mem_append.mp h with h | h
  · exact Or.inl h
  · exact Or.inr (Names.exists_of_mem_flatMap (fun s p => p.1.next_le_next_resolve s p.2)
      (List.mem_filter.mp h).1)

theorem pending_subset_queue : a.pending ⊆ (a.queue strategy s ps).1.pending :=
  List.subset_append_left _ _

/-- The accepted resolutions of every pair are to be done. -/
theorem exists_queued {e : Clause × Clause} (he : e ∈ ps) : ∃ s', s.next ≤ s'.next ∧
    ∀ r ∈ (e.1.resolve s' e.2).1, strategy.accepts r = true →
      r ∈ (a.queue strategy s ps).1.pending := by
  obtain ⟨s', hle, -, hmem⟩ := Names.exists_supply (s := s)
    (fun s (p : Clause × Clause) => p.1.next_le_next_resolve s p.2) he
  refine ⟨s', hle, fun r hr hacc => ?_⟩
  exact List.mem_append_right _ (List.mem_filter.mpr ⟨hmem r hr, hacc⟩)

end Agenda

/-! ## Section 3: Steps -/

namespace Refutation

/-- Whether a clause has been derived or is among the known ones. -/
def Known (q : Refutation) (c : Clause) : Prop :=
  (∃ r ∈ q.steps, (r.resolvent == c) = true) ∨ ∃ d ∈ q.agenda.clauses, (c == d) = true

@[simp]
theorem agenda_settle (q : Refutation) : q.settle.agenda = q.agenda := by
  unfold settle
  split <;> rfl

@[simp]
theorem strategy_settle (q : Refutation) : q.settle.strategy = q.strategy := by
  unfold settle
  split <;> rfl

@[simp]
theorem steps_settle (q : Refutation) : q.settle.steps = q.steps := by
  unfold settle
  split <;> rfl

theorem known_iff {q : Refutation} {c : Clause} :
    q.Known c ↔ ((q.find? c).isSome || q.agenda.contains c) = true := by
  rw [Bool.or_eq_true_iff]
  exact or_congr List.find?_isSome.symm List.contains_iff_exists_mem_beq.symm

theorem beq_eq_false_of_not_known {q : Refutation} {c : Clause} (h : ¬ q.Known c) :
    ∀ d ∈ q.agenda.clauses, (d == c) = false :=
  fun d hd => Bool.eq_false_iff.mpr fun hbeq => h (Or.inr ⟨d, hd, BEq.symm hbeq⟩)

/-- The cases of taking in a resolution. -/
theorem record_cases (s : Names) (r : Resolution) (q : Refutation) :
    (q.Known r.resolvent ∧ q.record s r = (q.settle, s)) ∨
    ¬ q.Known r.resolvent ∧
      (r.resolvent.isEmpty = true ∧
          q.record s r = ({ q with steps := q.steps ++ [r], result := some true }, s) ∨
        r.resolvent.isEmpty = false ∧
          q.record s r = (settle { q with
            steps := q.steps ++ [r], agenda := (q.agenda.extend q.strategy s r.resolvent).1 },
            (q.agenda.extend q.strategy s r.resolvent).2)) := by
  rw [known_iff]
  unfold record
  split
  next h => exact Or.inl ⟨h, rfl⟩
  next h =>
    refine Or.inr ⟨h, ?_⟩
    dsimp only
    split
    next hempty => exact Or.inl ⟨hempty, rfl⟩
    next hempty => exact Or.inr ⟨Bool.eq_false_iff.mpr hempty, rfl⟩

/-- The cases of a step: the search has ended, or one resolution is taken from the agenda. -/
theorem next_cases (q : Refutation) (s : Names) :
    next (q, s) = (q, s) ∨ ∃ r rest, q.result = none ∧ q.agenda.pending.Perm (r :: rest) ∧
      next (q, s) = record s r { q with agenda := { q.agenda with pending := rest } } := by
  unfold next step
  dsimp only
  by_cases hc : q.isComplete = true
  · rw [if_pos hc]
    exact Or.inl rfl
  · rw [if_neg hc]
    unfold Agenda.next?
    cases ht : q.strategy.takeUrgent? q.agenda.pending with
    | none => exact Or.inl rfl
    | some taken =>
      have hnone : q.result = none := by simpa [isComplete] using hc
      exact Or.inr ⟨taken.1, taken.2, hnone, Strategy.takeUrgent?_perm ht, rfl⟩

theorem strategy_next (q : Refutation) (s : Names) : (next (q, s)).1.strategy = q.strategy := by
  rcases next_cases q s with heq | ⟨r, rest, -, -, heq⟩
  · rw [heq]
  · rw [heq]
    rcases record_cases s r { q with agenda := { q.agenda with pending := rest } } with
      ⟨-, heq⟩ | ⟨-, ⟨-, heq⟩ | ⟨-, heq⟩⟩ <;> simp [heq]

/-- A search that has ended stands still. -/
theorem next_of_complete {q : Refutation} (h : q.isComplete = true) (s : Names) :
    next (q, s) = (q, s) := by
  unfold next step
  dsimp only
  rw [if_pos h]

/-- As long as something is to be done, a step does it. -/
theorem exists_next_eq_record {q : Refutation} (hnone : q.result = none)
    (hpending : q.agenda.pending ≠ []) (s : Names) : ∃ r rest,
      q.agenda.pending.Perm (r :: rest) ∧
      next (q, s) = record s r { q with agenda := { q.agenda with pending := rest } } := by
  have hsome : q.strategy.takeUrgent? q.agenda.pending ≠ none :=
    Strategy.takeUrgent?_ne_none hpending
  obtain ⟨taken, ht⟩ := Option.ne_none_iff_exists'.mp hsome
  refine ⟨taken.1, taken.2, Strategy.takeUrgent?_perm ht, ?_⟩
  unfold next step Agenda.next?
  dsimp only
  rw [if_neg (by simp [isComplete, hnone]), ht]
  rfl

/-- What every step preserves is preserved by a run. -/
theorem iterate_next {P : Refutation → Names → Prop}
    (hstep : ∀ q s, P q s → P (next (q, s)).1 (next (q, s)).2) {q : Refutation} {s : Names}
    (h : P q s) (n : Nat) : P (next^[n] (q, s)).1 (next^[n] (q, s)).2 := by
  induction n with
  | zero => exact h
  | succ n ih =>
    rw [Function.iterate_succ_apply']
    exact hstep _ _ ih

theorem run_eq_iterate (n : Nat) (s : Names) (q : Refutation) : run n s q = next^[n] (q, s) := by
  have hadvance : ∀ n x, (advance (fun x => x.1.isComplete) next n x).2 = next^[n] x := by
    intro n
    induction n with
    | zero => exact fun _ => rfl
    | succ n ih =>
      intro x
      unfold advance
      split
      next h => exact (Function.iterate_fixed (next_of_complete h x.2) (n + 1)).symm
      next => rw [ih, Function.iterate_succ_apply]
  exact hadvance n (q, s)

/-- The search after execution has been asked for, which has no bearing on its steps. -/
def ask (q : Refutation) : Refutation :=
  { q with begun := true }

private theorem settle_ask (q : Refutation) : q.ask.settle = q.settle.ask := by
  by_cases h : q.agenda.isEmpty = true
  · have hq : q.settle = { q with result := some false } := if_pos h
    have hask : q.ask.settle = { q.ask with result := some false } := if_pos h
    rw [hq, hask]
    rfl
  · have hq : q.settle = q := if_neg h
    have hask : q.ask.settle = q.ask := if_neg h
    rw [hq, hask]

private theorem record_ask (q : Refutation) (s : Names) (r : Resolution) :
    q.ask.record s r = ((q.record s r).1.ask, (q.record s r).2) := by
  by_cases hk : ((q.find? r.resolvent).isSome || q.agenda.contains r.resolvent) = true
  · have hq : q.record s r = (q.settle, s) := if_pos hk
    have hask : q.ask.record s r = (q.ask.settle, s) := if_pos hk
    rw [hq, hask, settle_ask]
  · by_cases he : r.resolvent.isEmpty = true
    · have hq : q.record s r = ({ q with steps := q.steps ++ [r], result := some true }, s) :=
        (if_neg hk).trans (if_pos he)
      rw [hq]
      exact (if_neg hk).trans (if_pos he)
    · have hq : q.record s r = (settle { q with
          steps := q.steps ++ [r], agenda := (q.agenda.extend q.strategy s r.resolvent).1 },
          (q.agenda.extend q.strategy s r.resolvent).2) := (if_neg hk).trans (if_neg he)
      rw [hq, ← settle_ask]
      exact (if_neg hk).trans (if_neg he)

private theorem next_ask (q : Refutation) (s : Names) :
    next (q.ask, s) = ((next (q, s)).1.ask, (next (q, s)).2) := by
  by_cases hc : q.isComplete = true
  · have hask : q.ask.isComplete = true := hc
    rw [next_of_complete hc, next_of_complete hask]
  · unfold next step
    have hask : ¬ q.ask.isComplete = true := hc
    have hnext : q.ask.agenda.next? q.ask.strategy = q.agenda.next? q.strategy := rfl
    dsimp only
    rw [if_neg hc, if_neg hask, hnext]
    cases q.agenda.next? q.strategy with
    | none => rfl
    | some taken => exact record_ask { q with agenda := taken.2 } s taken.1

/-- The answer of an execution is the result of the search after as many steps. -/
theorem execute_eq {q : Refutation} (h : q.begun = false) (n : Nat) (s : Names) :
    (q.execute n s).1 = match (next^[n] (q, s)).1.result with
      | some b => .ok b
      | none => .error .cancelled := by
  have hiterate : next^[n] (q.ask, s) = ((next^[n] (q, s)).1.ask, (next^[n] (q, s)).2) := by
    induction n with
    | zero => rfl
    | succ n ih => rw [Function.iterate_succ_apply', ih, next_ask, Function.iterate_succ_apply']
  have hrun : run n s { q with begun := true } = _ := (run_eq_iterate n s q.ask).trans hiterate
  unfold execute
  rw [if_neg (by simp [h]), hrun]
  dsimp only [ask]
  cases (next^[n] (q, s)).1.result <;> rfl

end Refutation

end Clausal
