import Clausal.Proofs.Clause
import Clausal.Proofs.Resolution.Soundness

/-!
# What a search records

A search records every resolution whose resolvent is new.  The record is a derivation: each of its
resolutions is between clauses that were given at the beginning or are resolvents of earlier
resolutions, and no resolvent is equal to a given clause or to another resolvent.  A search that has
ended with a contradiction has recorded the empty clause last.

## Main definitions

- `Derivation`: resolutions in an order in which they can be done
- `Refutation.Recorded`: searches whose record is a derivation
- `Refutation.Reached`: searches after any number of steps

## Main statements

- `Derivation.of_eq_append`: a resolution and what was derived before it
- `Refutation.Recorded.next`: a step keeps the record a derivation
- `Refutation.Reached.recorded`: and so does a run
-/

namespace Clausal

/-! ## Section 1: Derivations -/

/-- The resolution is one of two of the given clauses. -/
structure Resolution.Among (cs : List Clause) (r : Resolution) : Prop where
  first : r.first ∈ cs
  second : r.second ∈ cs
  resolves : ∃ s : Names, r ∈ (r.first.resolve s r.second).1

private theorem Resolution.among_of_mem_resolve {cs : List Clause} {c d : Clause} (hc : c ∈ cs)
    (hd : d ∈ cs) {s : Names} {r : Resolution} (h : r ∈ (c.resolve s d).1) : r.Among cs := by
  obtain ⟨-, -, -, -, -, rfl, rfl⟩ := Clause.mem_resolve.mp h
  exact ⟨hc, hd, s, h⟩

theorem Resolution.Among.mono {cs ds : List Clause} {r : Resolution} (h : r.Among cs)
    (hsub : cs ⊆ ds) : r.Among ds :=
  ⟨hsub h.first, hsub h.second, h.resolves⟩

/-- A resolvent without literals is the empty clause. -/
theorem Resolution.Among.resolvent_eq_empty {cs : List Clause} {r : Resolution} (h : r.Among cs)
    (hempty : r.resolvent.isEmpty = true) : r.resolvent = .empty := by
  obtain ⟨s, hr⟩ := h.resolves
  obtain ⟨l, -, m, -, he, -, -⟩ := Clause.mem_resolve.mp hr
  obtain ⟨-, -, hresolvent⟩ := Clause.resolveOn_eq_some.mp he
  rw [hresolvent] at hempty ⊢
  have hnil := List.isEmpty_iff.mp hempty
  simp only [Clause.ofList] at hnil ⊢
  simp only [hnil]
  rfl

/-- The empty clause is not resolved with anything. -/
theorem Resolution.Among.ne_empty {cs : List Clause} {r : Resolution} (h : r.Among cs) :
    r.first ≠ .empty ∧ r.second ≠ .empty := by
  obtain ⟨s, hr⟩ := h.resolves
  obtain ⟨l, hl, m, hm, -, -, -⟩ := Clause.mem_resolve.mp hr
  constructor
  · intro hfirst
    rw [hfirst] at hl
    cases hl
  · intro hsecond
    obtain ⟨θ, hθ⟩ := Clause.exists_isImage_apartFrom s r.first r.second
    obtain ⟨k, hk, -⟩ := hθ.into m hm
    rw [hsecond] at hk
    cases hk

/-- Resolutions in an order in which they can be done: each is one of given clauses and earlier
    resolvents, and its own resolvent is not among them. -/
inductive Derivation (given : List Clause) : List Resolution → Prop
  | nil : Derivation given []
  | snoc {rs : List Resolution} {r : Resolution} (before : Derivation given rs)
      (among : r.Among (given ++ rs.map Resolution.resolvent))
      (new : ∀ c ∈ given ++ rs.map Resolution.resolvent, (c == r.resolvent) = false) :
      Derivation given (rs ++ [r])

namespace Derivation

variable {given : List Clause} {rs : List Resolution}

theorem distinct (hgiven : Distinct given) (h : Derivation given rs) :
    Distinct (given ++ rs.map Resolution.resolvent) := by
  induction h with
  | nil => simpa using hgiven
  | snoc before among new ih =>
    rw [List.map_append, List.map_singleton, ← List.append_assoc]
    exact ih.append_singleton new

/-- Each resolution is one of given clauses and of what was derived before it. -/
theorem among_of_eq_append (h : Derivation given rs) {l l' : List Resolution} {r : Resolution}
    (hsplit : rs = l ++ r :: l') : r.Among (given ++ l.map Resolution.resolvent) := by
  induction h generalizing l' with
  | nil => simp at hsplit
  | @snoc rs r' before among new ih =>
    rcases List.eq_nil_or_concat l' with rfl | ⟨l'', r'', rfl⟩
    · obtain ⟨rfl, hr⟩ := List.append_inj' hsplit rfl
      obtain rfl : r' = r := by simpa using hr
      exact among
    · have hsplit : rs ++ [r'] = (l ++ r :: l'') ++ [r''] := by simpa using hsplit
      exact ih (List.append_inj' hsplit rfl).1

end Derivation

/-! ## Section 2: Steps -/

/-- All that is to be done is between known clauses. -/
def Agenda.Closed (a : Agenda) : Prop :=
  ∀ r ∈ a.pending, r.Among a.clauses

namespace Agenda.Closed

variable {a : Agenda} {strategy : Strategy} {s : Names}

theorem queue (h : a.Closed) {ps : List (Clause × Clause)}
    (hps : ∀ e ∈ ps, e.1 ∈ a.clauses ∧ e.2 ∈ a.clauses) : (a.queue strategy s ps).1.Closed := by
  intro r hr
  rcases of_mem_queue hr with hr | ⟨e, he, s', -, -, hr⟩
  · exact h r hr
  · exact Resolution.among_of_mem_resolve (hps e he).1 (hps e he).2 hr

private theorem extend (h : a.Closed) (c : Clause) : (a.extend strategy s c).1.Closed := by
  have hext : ({ a with clauses := a.clauses ++ [c] } : Agenda).Closed :=
    fun r hr => (h r hr).mono (List.subset_append_left _ _)
  refine hext.queue fun e he => ?_
  obtain ⟨d, hd, rfl⟩ := List.mem_map.mp he
  exact ⟨by simp, hd⟩

end Agenda.Closed

namespace Refutation

/-- The record is a derivation from given clauses without repetitions.  As long as there is no contradiction, the
    known clauses are those and the resolvents, and all that is to be done is between known clauses.
    A contradiction is recorded last. -/
structure Recorded (given : List Clause) (q : Refutation) : Prop where
  distinct : Distinct given
  derivation : Derivation given q.steps
  clauses : q.result ≠ some true → q.agenda.clauses = given ++ q.steps.map Resolution.resolvent
  closed : q.result ≠ some true → q.agenda.Closed
  refuted : q.result = some true → ∃ rs r, q.steps = rs ++ [r] ∧ r.resolvent = .empty

namespace Recorded

variable {given : List Clause} {q : Refutation}

theorem settle (h : q.Recorded given) (hresult : q.result ≠ some true) :
    q.settle.Recorded given := by
  unfold Refutation.settle
  split
  next =>
    exact ⟨h.distinct, h.derivation, fun _ => h.clauses hresult, fun _ => h.closed hresult,
      fun htrue => by cases htrue⟩
  next => exact h

/-- Taking in a resolution of known clauses keeps the record a derivation. -/
theorem record (h : q.Recorded given) (hnone : q.result = none) (s : Names) {r : Resolution}
    (hr : r.Among q.agenda.clauses) : (q.record s r).1.Recorded given := by
  have hresult : q.result ≠ some true := by simp [hnone]
  have hclauses := h.clauses hresult
  rcases q.record_cases s r with ⟨-, heq⟩ | ⟨hnew, hcases⟩
  · rw [heq]
    exact h.settle hresult
  · have hderivation : Derivation given (q.steps ++ [r]) :=
      .snoc h.derivation (hclauses ▸ hr) (hclauses ▸ beq_eq_false_of_not_known hnew)
    rcases hcases with ⟨hempty, heq⟩ | ⟨-, heq⟩
    · rw [heq]
      exact ⟨h.distinct, hderivation, fun hne => absurd rfl hne, fun hne => absurd rfl hne,
        fun _ => ⟨q.steps, r, rfl, hr.resolvent_eq_empty hempty⟩⟩
    · -- the resolvent is known from now on, and is resolved with all known clauses
      rw [heq]
      refine settle ⟨h.distinct, hderivation, fun _ => ?_, fun _ => ?_,
        fun htrue => absurd htrue hresult⟩ hresult
      · simp [Agenda.extend, hclauses]
      · exact (h.closed hresult).extend r.resolvent

theorem next (h : q.Recorded given) (s : Names) : (Refutation.next (q, s)).1.Recorded given := by
  rcases next_cases q s with heq | ⟨r, rest, hnone, hperm, heq⟩
  · rw [heq]
    exact h
  · have hresult : q.result ≠ some true := by simp [hnone]
    have hpending : ∀ r' ∈ r :: rest, r'.Among q.agenda.clauses :=
      fun r' hr' => h.closed hresult r' (hperm.mem_iff.mpr hr')
    have hrest : Recorded given { q with agenda := { q.agenda with pending := rest } } :=
      ⟨h.distinct, h.derivation, h.clauses,
        fun _ r' hr' => hpending r' (List.mem_cons_of_mem _ hr'), h.refuted⟩
    rw [heq]
    exact hrest.record hnone s (hpending r List.mem_cons_self)

end Recorded

/-- The clauses that a search starts from: the given ones and those of the negated query. -/
def initial (cs : List Clause) (s : Names) (query : Formula) : List Clause :=
  dedup (dedup cs ++ ((Formula.not query).toCnf s).1.clauses)

theorem recorded_start (strategy : Strategy) (cs : List Clause) (s : Names) (query : Formula) :
    (start strategy cs s query).1.Recorded (initial cs s query) := by
  refine Recorded.settle ⟨pairwise_dedup _, .nil, fun _ => ?_, fun _ => ?_,
    fun htrue => by cases htrue⟩ (by simp)
  · exact (List.append_nil _).symm
  · refine Agenda.Closed.queue ?_ fun e he => mem_of_mem_pairings he
    exact fun r hr => absurd hr List.not_mem_nil

/-! ## Section 3: Runs -/

/-- A search after any number of steps.  Execution to the end may have been asked for at any time. -/
inductive Reached (strategy : Strategy) (cs : List Clause) (s : Names) (query : Formula) :
    Refutation → Names → Prop
  | start : Reached strategy cs s query (start strategy cs s query).1 (start strategy cs s query).2
  | step {q q' : Refutation} {s' s'' : Names} {r : Resolution}
      (before : Reached strategy cs s query q s') (h : q.step s' = .ok (r, q', s'')) :
      Reached strategy cs s query q' s''
  | ask {q : Refutation} {s' : Names} (before : Reached strategy cs s query q s') :
      Reached strategy cs s query q.ask s'

namespace Reached

variable {strategy : Strategy} {cs : List Clause} {s : Names} {query : Formula} {q : Refutation}
  {s' : Names}

private theorem next (h : Reached strategy cs s query q s') :
    Reached strategy cs s query (Refutation.next (q, s')).1 (Refutation.next (q, s')).2 := by
  unfold Refutation.next
  dsimp only
  cases hstep : q.step s' with
  | ok y => exact .step h hstep
  | error e => exact h

/-- Execution to the end is a number of steps. -/
theorem execute (h : Reached strategy cs s query q s') (n : Nat) :
    Reached strategy cs s query (q.execute n s').2.1 (q.execute n s').2.2 := by
  unfold Refutation.execute
  split
  next => exact h
  next =>
    have hrun : Reached strategy cs s query (run n s' q.ask).1 (run n s' q.ask).2 := by
      rw [run_eq_iterate]
      exact iterate_next (P := Reached strategy cs s query) (fun _ _ h => h.next) h.ask n
    dsimp only
    split <;> exact hrun

theorem recorded (h : Reached strategy cs s query q s') : q.Recorded (initial cs s query) := by
  induction h with
  | start => exact recorded_start strategy cs s query
  | @step q q' s' s'' r _ hstep ih =>
    have hnext : Refutation.next (q, s') = (q', s'') := by
      unfold Refutation.next
      rw [hstep]
    have := ih.next s'
    rwa [hnext] at this
  | ask _ ih => exact ⟨ih.distinct, ih.derivation, ih.clauses, ih.closed, ih.refuted⟩

end Reached

end Refutation

end Clausal
