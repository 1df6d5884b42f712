import Clausal.Proofs.Resolution.Saturation

/-!
# Every pair is resolved once

A search resolves any two of its clauses, a clause and itself included, in one order and once only.
To say so, the search is given a journal: which clauses have been resolved with each other, and which
resolutions have been taken from the agenda.  Without its journal it is the search itself.

Nothing is lost on the way.  The accepted resolutions of all pairs are those that are still to be
done together with those that have been taken, and what has been taken has led to a known clause or
to the contradiction that ended the search.

## Main definitions

- `Attempt`: two clauses that have been resolved, with the supply of names at that time
- `Run`, `Run.start`, `Run.next`: a search with a journal
- `Run.Accounted`: the journal accounts for everything on the agenda
- `Run.Owing`: it does so but for one resolution, which has been taken

## Main statements

- `countP_joins_pairings`: all pairs of different elements, each in one order
- `Run.erase_next`, `Run.erase_start`: without its journal, a run is a search
- `Run.Accounted.take`, `Run.Owing.record`, `Run.Accounted.next`: a step keeps the accounts
- `resolution_pairs_once`: a search neither loses nor repeats a pair
-/

namespace Clausal

/-! ## Section 1: Pairs of different elements -/

section Pairs

variable {α : Type} [BEq α] {l : List α} {a b c : α}

/-- A pair joins two elements, in one order or the other. -/
def joins (b c : α) (p : α × α) : Bool :=
  (p.1 == b && p.2 == c) || (p.1 == c && p.2 == b)

/-- Pairs of elements of a list do not join an element that is not in it to anything. -/
theorem countP_joins_eq_zero {ps : List (α × α)} (hps : ∀ p ∈ ps, p.1 ∈ l ∧ p.2 ∈ l)
    (h : (∀ e ∈ l, (e == b) = false) ∨ ∀ e ∈ l, (e == c) = false) :
    ps.countP (joins b c) = 0 := by
  apply List.countP_eq_zero.mpr
  intro p hp
  obtain ⟨h₁, h₂⟩ := hps p hp
  rcases h with h | h
  · simp [joins, h _ h₁, h _ h₂]
  · simp [joins, h _ h₁, h _ h₂]

variable [EquivBEq α]

private theorem countP_beq_of_mem (h : Distinct l) (hb : b ∈ l) : l.countP (· == b) = 1 := by
  induction l with
  | nil => simp at hb
  | cons a l ih =>
    obtain ⟨ha, hl⟩ := List.pairwise_cons.mp h
    rcases List.mem_cons.mp hb with rfl | hb
    · have hzero : l.countP (· == b) = 0 :=
        List.countP_eq_zero.mpr fun c hc => by simp [BEq.symm_false (ha c hc)]
      rw [List.countP_cons_of_pos (p := (· == b)) BEq.rfl, hzero]
    · rw [List.countP_cons_of_neg (by simp [ha b hb]), ih hl hb]

/-- If one element is paired with all elements, then once with each. -/
theorem countP_joins_map (h : Distinct l) (hb : b ∈ l) (hc : c ∈ l) :
    (l.map (a, ·)).countP (joins b c) = if a == b || a == c then 1 else 0 := by
  rw [List.countP_map]
  have hjoins : joins b c ∘ (a, ·) = fun e => (a == b && e == c) || (a == c && e == b) := rfl
  rw [hjoins]
  cases hab : a == b with
  | true =>
    cases hac : a == c with
    | true =>
      -- the two are equal to the one
      have hsame : (fun e => (true && e == c) || (true && e == b)) = fun e => e == b := by
        funext e
        have : (e == c) = (e == b) := by
          rw [Bool.eq_iff_iff]
          exact ⟨fun he => BEq.trans (BEq.trans he (BEq.symm hac)) hab,
            fun he => BEq.trans (BEq.trans he (BEq.symm hab)) hac⟩
        simp [this]
      rw [hsame, countP_beq_of_mem h hb]
      rfl
    | false => simpa using countP_beq_of_mem h hc
  | false =>
    cases hac : a == c with
    | true => simpa using countP_beq_of_mem h hb
    | false => simp

theorem countP_joins_pairings (h : Distinct l) (hb : b ∈ l) (hc : c ∈ l) :
    (pairings l).countP (joins b c) = 1 := by
  induction l with
  | nil => simp at hb
  | cons a l ih =>
    obtain ⟨ha, hl⟩ := List.pairwise_cons.mp h
    have hmap := countP_joins_map (a := a) h hb hc
    have ha' : ∀ e ∈ l, (e == a) = false := fun e he => BEq.symm_false (ha e he)
    have hwithin : ∀ p ∈ pairings l, p.1 ∈ l ∧ p.2 ∈ l := fun p => mem_of_mem_pairings
    rw [pairings, List.countP_append, hmap]
    rcases List.mem_cons.mp hb with rfl | hb'
    · rw [countP_joins_eq_zero hwithin (.inl ha')]
      simp
    · rcases List.mem_cons.mp hc with rfl | hc'
      · rw [countP_joins_eq_zero hwithin (.inr ha')]
        simp
      · simp [ha b hb', ha c hc', ih hl hb' hc']

end Pairs

/-! ## Section 2: Searches with a journal -/

/-- Two clauses that have been resolved, with the supply of names at that time. -/
structure Attempt where
  names : Names
  first : Clause
  second : Clause

namespace Attempt

/-- The two clauses, in the order in which they have been resolved. -/
def pair (t : Attempt) : Clause × Clause :=
  (t.first, t.second)

/-- The resolutions of the two clauses. -/
def resolutions (t : Attempt) : List Resolution :=
  (t.first.resolve t.names t.second).1

end Attempt

/-- A search that keeps a journal of what it has done. -/
structure Run where
  search : Refutation
  names : Names
  /-- The clauses that have been resolved with each other, in order. -/
  tried : List Attempt := []
  /-- The resolutions that have been taken from the agenda, in order. -/
  taken : List Resolution := []

namespace Run

/-- Resolve two clauses and queue their resolutions. -/
def tryPair (x : Run) (p : Clause × Clause) : Run where
  search := { x.search with
    agenda := { x.search.agenda with
      pending := x.search.agenda.pending ++
        (p.1.resolve x.names p.2).1.filter x.search.strategy.accepts } }
  names := (p.1.resolve x.names p.2).2
  tried := x.tried ++ [⟨x.names, p.1, p.2⟩]
  taken := x.taken

/-- Resolve pairs of clauses, one after the other. -/
def tryPairs (x : Run) (ps : List (Clause × Clause)) : Run :=
  ps.foldl tryPair x

/-- End the search without a contradiction if nothing is left to do. -/
def settle (x : Run) : Run :=
  { x with search := x.search.settle }

/-- Know the given clauses. -/
def know (x : Run) (cs : List Clause) : Run :=
  { x with search := { x.search with agenda := { x.search.agenda with clauses := cs } } }

/-- Look for a contradiction between clauses and the negation of a formula. -/
def start (strategy : Strategy) (clauses : List Clause) (s : Names) (query : Formula) : Run :=
  let (negated, s) := (Formula.not query).toCnf s
  let known := dedup (dedup clauses ++ negated.clauses)
  let x : Run := { search := { strategy, negated, agenda := { clauses := known } }, names := s }
  (x.tryPairs (pairings known)).settle

/-- Take in a resolution. -/
def record (x : Run) (r : Resolution) : Run :=
  if (x.search.find? r.resolvent).isSome || x.search.agenda.contains r.resolvent then x.settle
  else
    let x := { x with search := { x.search with steps := x.search.steps ++ [r] } }
    if r.resolvent.isEmpty then { x with search := { x.search with result := some true } }
    else
      let known := x.search.agenda.clauses ++ [r.resolvent]
      ((x.know known).tryPairs (known.map (r.resolvent, ·))).settle

/-- Take a resolution from the agenda, which has the given rest. -/
def take (x : Run) (r : Resolution) (rest : Agenda) : Run :=
  { x with search := { x.search with agenda := rest }, taken := x.taken ++ [r] }

/-- One step of the search, which stands still at its end. -/
def next (x : Run) : Run :=
  if x.search.isComplete then x
  else
    match x.search.agenda.next? x.search.strategy with
    | none => x
    | some (r, rest) => (x.take r rest).record r

/-- The search without its journal. -/
def erase (x : Run) : Refutation × Names :=
  (x.search, x.names)

theorem tryPairs_cons (x : Run) (p : Clause × Clause) (ps : List (Clause × Clause)) :
    x.tryPairs (p :: ps) = (x.tryPair p).tryPairs ps := rfl

theorem erase_tryPairs (x : Run) (ps : List (Clause × Clause)) :
    (x.tryPairs ps).erase =
      ({ x.search with agenda := (x.search.agenda.queue x.search.strategy x.names ps).1 },
        (x.search.agenda.queue x.search.strategy x.names ps).2) := by
  induction ps generalizing x with
  | nil => simp [tryPairs, erase, Agenda.queue, resolvePairs, Names.flatMap]
  | cons p ps ih =>
    rw [tryPairs_cons, ih]
    simp [tryPair, Agenda.queue, resolvePairs, Names.flatMap]

theorem search_tryPairs (x : Run) (ps : List (Clause × Clause)) :
    (x.tryPairs ps).search =
      { x.search with agenda := (x.search.agenda.queue x.search.strategy x.names ps).1 } :=
  congrArg Prod.fst (x.erase_tryPairs ps)

theorem erase_settle (x : Run) : x.settle.erase = (x.erase.1.settle, x.erase.2) := rfl

/-- Without its journal, a run starts like a search. -/
theorem erase_start (strategy : Strategy) (clauses : List Clause) (s : Names) (query : Formula) :
    (start strategy clauses s query).erase = Refutation.start strategy clauses s query := by
  simp only [start, erase_settle, erase_tryPairs]
  rfl

private theorem erase_record (x : Run) (r : Resolution) :
    (x.record r).erase = x.search.record x.names r := by
  unfold record Refutation.record
  split
  next => rfl
  next =>
    dsimp only
    split
    next => rfl
    next =>
      simp only [erase_settle, erase_tryPairs]
      rfl

/-- Without its journal, a run makes the steps of a search. -/
theorem erase_next (x : Run) : x.next.erase = Refutation.next x.erase := by
  unfold next
  by_cases hc : x.search.isComplete = true
  · rw [if_pos hc]
    exact (Refutation.next_of_complete hc x.names).symm
  · rw [if_neg hc]
    unfold Refutation.next Refutation.step erase
    dsimp only
    rw [if_neg hc]
    cases x.search.agenda.next? x.search.strategy with
    | none => rfl
    | some taken => exact erase_record (x.take taken.1 taken.2) taken.1

/-! ## Section 3: Accounts -/

/-- The accepted resolutions of all pairs are those to be done and those that have been taken. -/
def Balanced (x : Run) : Prop :=
  (x.search.agenda.pending ++ x.taken).Perm
    ((x.tried.flatMap Attempt.resolutions).filter x.search.strategy.accepts)

/-- A resolution has led to a known clause, or to the contradiction that ended the search. -/
def Handled (x : Run) (r : Resolution) : Prop :=
  x.search.agenda.contains r.resolvent = true ∨
    (r.resolvent.isEmpty = true ∧ x.search.result = some true)

/-- The journal accounts for everything: any two known clauses have been resolved once, nothing of
    that is missing from the agenda unless it has been taken, and what has been taken is dealt
    with. -/
structure Accounted (x : Run) : Prop where
  distinct : Distinct x.search.agenda.clauses
  within : ∀ p ∈ x.tried.map Attempt.pair,
    p.1 ∈ x.search.agenda.clauses ∧ p.2 ∈ x.search.agenda.clauses
  once : ∀ c ∈ x.search.agenda.clauses, ∀ d ∈ x.search.agenda.clauses,
    (x.tried.map Attempt.pair).countP (joins c d) = 1
  balanced : x.Balanced
  taken : ∀ r ∈ x.taken, x.Handled r
  steps : ∀ r ∈ x.search.steps, x.Handled r
  ended : x.search.result = some false → x.search.agenda.pending = []

variable {x : Run} {ps : List (Clause × Clause)} {r : Resolution}

theorem Balanced.tryPair (h : x.Balanced) (p : Clause × Clause) : (x.tryPair p).Balanced := by
  have hresolutions : (x.tried ++ [(⟨x.names, p.1, p.2⟩ : Attempt)]).flatMap Attempt.resolutions =
      x.tried.flatMap Attempt.resolutions ++ (p.1.resolve x.names p.2).1 := by
    simp [Attempt.resolutions]
  unfold Balanced Run.tryPair
  rw [hresolutions, List.filter_append, List.append_assoc]
  -- what is queued now stands before what has been taken
  exact ((List.perm_append_comm.append_left _).trans
    (List.Perm.of_eq (List.append_assoc _ _ _).symm)).trans (h.append_right _)

private theorem Balanced.tryPairs (h : x.Balanced) (ps : List (Clause × Clause)) :
    (x.tryPairs ps).Balanced := by
  induction ps generalizing x with
  | nil => exact h
  | cons p ps ih => exact ih (h.tryPair p)

private theorem tried_tryPairs (x : Run) (ps : List (Clause × Clause)) :
    (x.tryPairs ps).tried.map Attempt.pair = x.tried.map Attempt.pair ++ ps := by
  induction ps generalizing x with
  | nil => exact (List.append_nil _).symm
  | cons p ps ih =>
    rw [tryPairs_cons, ih]
    simp [tryPair, Attempt.pair]

private theorem taken_tryPairs (x : Run) (ps : List (Clause × Clause)) :
    (x.tryPairs ps).taken = x.taken := by
  induction ps generalizing x with
  | nil => rfl
  | cons p ps ih => exact ih (x.tryPair p)

theorem Handled.contains (h : x.Handled r) (hnone : x.search.result = none) :
    x.search.agenda.contains r.resolvent = true := by
  rcases h with h | ⟨-, htrue⟩
  · exact h
  · rw [hnone] at htrue
    cases htrue

/-- Resolving the pairs that are missing completes the accounts. -/
theorem accounted_tryPairs (hdistinct : Distinct x.search.agenda.clauses)
    (hwithin : ∀ p ∈ x.tried.map Attempt.pair ++ ps,
      p.1 ∈ x.search.agenda.clauses ∧ p.2 ∈ x.search.agenda.clauses)
    (honce : ∀ c ∈ x.search.agenda.clauses, ∀ d ∈ x.search.agenda.clauses,
      (x.tried.map Attempt.pair ++ ps).countP (joins c d) = 1)
    (hbalanced : x.Balanced) (htaken : ∀ r ∈ x.taken, x.Handled r)
    (hsteps : ∀ r ∈ x.search.steps, x.Handled r) (hnone : x.search.result = none) :
    (x.tryPairs ps).Accounted := by
  have hsearch := x.search_tryPairs ps
  have hclauses : (x.tryPairs ps).search.agenda.clauses = x.search.agenda.clauses := by
    rw [hsearch]
    rfl
  have hresult : (x.tryPairs ps).search.result = none := by rw [hsearch, hnone]
  have hhandled : ∀ r, x.Handled r → (x.tryPairs ps).Handled r := by
    intro r hr
    left
    rw [Agenda.contains, hclauses]
    exact hr.contains hnone
  refine ⟨?_, ?_, ?_, hbalanced.tryPairs ps, ?_, ?_, ?_⟩
  · rwa [hclauses]
  · rwa [tried_tryPairs, hclauses]
  · rwa [tried_tryPairs, hclauses]
  · rw [taken_tryPairs]
    exact fun r hr => hhandled r (htaken r hr)
  · rw [hsearch]
    exact fun r hr => hhandled r (hsteps r hr)
  · rw [hresult]
    exact fun hfalse => by cases hfalse

theorem Accounted.settle (h : x.Accounted) (hnone : x.search.result = none) :
    x.settle.Accounted := by
  have hagenda : x.settle.search.agenda = x.search.agenda := x.search.agenda_settle
  have hhandled : ∀ r, x.Handled r → x.settle.Handled r := by
    intro r hr
    left
    rw [hagenda]
    exact hr.contains hnone
  refine ⟨?_, ?_, ?_, ?_, fun r hr => hhandled r (h.taken r hr), fun r hr => ?_, ?_⟩
  · rw [hagenda]
    exact h.distinct
  · rw [hagenda]
    exact h.within
  · rw [hagenda]
    exact h.once
  · show (x.settle.search.agenda.pending ++ x.taken).Perm
      ((x.tried.flatMap Attempt.resolutions).filter x.search.settle.strategy.accepts)
    rw [hagenda, Refutation.strategy_settle]
    exact h.balanced
  · exact hhandled r (h.steps r (x.search.steps_settle ▸ hr))
  · rw [hagenda]
    unfold Run.settle Refutation.settle
    split
    next hempty => exact fun _ => List.isEmpty_iff.mp hempty
    next => exact h.ended

/-- The accounts are in order, except that a resolution has been taken and not yet dealt with. -/
structure Owing (x : Run) (r : Resolution) : Prop where
  distinct : Distinct x.search.agenda.clauses
  within : ∀ p ∈ x.tried.map Attempt.pair,
    p.1 ∈ x.search.agenda.clauses ∧ p.2 ∈ x.search.agenda.clauses
  once : ∀ c ∈ x.search.agenda.clauses, ∀ d ∈ x.search.agenda.clauses,
    (x.tried.map Attempt.pair).countP (joins c d) = 1
  balanced : x.Balanced
  taken : ∀ r' ∈ x.taken, r' = r ∨ x.search.agenda.contains r'.resolvent = true
  steps : ∀ r' ∈ x.search.steps, x.search.agenda.contains r'.resolvent = true
  unfinished : x.search.result = none

theorem Accounted.take (h : x.Accounted) (hnone : x.search.result = none)
    {rest : List Resolution} (hperm : x.search.agenda.pending.Perm (r :: rest)) :
    (x.take r { x.search.agenda with pending := rest }).Owing r where
  distinct := h.distinct
  within := h.within
  once := h.once
  balanced := by
    have hmoved : (rest ++ (x.taken ++ [r])).Perm (x.search.agenda.pending ++ x.taken) := by
      rw [← List.append_assoc]
      refine List.perm_append_comm.trans ?_
      exact hperm.symm.append_right x.taken
    exact hmoved.trans h.balanced
  taken r' hr' := by
    rcases List.mem_append.mp hr' with hr' | hr'
    · exact .inr ((h.taken r' hr').contains hnone)
    · exact .inl (List.mem_singleton.mp hr')
  steps r' hr' := (h.steps r' hr').contains hnone
  unfinished := hnone

/-- If the resolvent is known, nothing is left to be done about it. -/
theorem Owing.of_known (h : x.Owing r) (hknown : x.search.Known r.resolvent) : x.Accounted := by
  have hcontains : x.search.agenda.contains r.resolvent = true := by
    rcases hknown with ⟨r', hr', hbeq⟩ | hmem
    · obtain ⟨e, he, hre⟩ := List.contains_iff_exists_mem_beq.mp (h.steps r' hr')
      exact List.contains_iff_exists_mem_beq.mpr ⟨e, he, BEq.trans (BEq.symm hbeq) hre⟩
    · exact List.contains_iff_exists_mem_beq.mpr hmem
  refine ⟨h.distinct, h.within, h.once, h.balanced, fun r' hr' => ?_,
    fun r' hr' => .inl (h.steps r' hr'), fun hfalse => ?_⟩
  · rcases h.taken r' hr' with rfl | hr'
    · exact .inl hcontains
    · exact .inl hr'
  · exact absurd (h.unfinished.symm.trans hfalse) (by simp)

/-- The contradiction ends the search. -/
theorem Owing.of_isEmpty (h : x.Owing r) (hempty : r.resolvent.isEmpty = true) :
    Accounted { x with search :=
      { x.search with steps := x.search.steps ++ [r], result := some true } } := by
  refine ⟨h.distinct, h.within, h.once, h.balanced, fun r' hr' => ?_, fun r' hr' => ?_, by simp⟩
  · rcases h.taken r' hr' with rfl | hr'
    · exact .inr ⟨hempty, rfl⟩
    · exact .inl hr'
  · rcases List.mem_append.mp hr' with hr' | hr'
    · exact .inl (h.steps r' hr')
    · exact .inr ⟨List.mem_singleton.mp hr' ▸ hempty, rfl⟩

/-- A clause that is not known, once it has been resolved with all known clauses and itself, is
    accounted for. -/
theorem Owing.countP_joins (h : x.Owing r) {c : Clause}
    (hc : ∀ d ∈ x.search.agenda.clauses, (d == c) = false) {a b : Clause}
    (ha : a ∈ x.search.agenda.clauses ++ [c]) (hb : b ∈ x.search.agenda.clauses ++ [c]) :
    (x.tried.map Attempt.pair ++
      (x.search.agenda.clauses ++ [c]).map (c, ·)).countP (joins a b) = 1 := by
  rw [List.countP_append, countP_joins_map (h.distinct.append_singleton hc) ha hb]
  rcases List.mem_append.mp ha with ha | ha
  · rcases List.mem_append.mp hb with hb | hb
    · -- both were known before
      simp [h.once a ha b hb, BEq.symm_false (hc a ha), BEq.symm_false (hc b hb)]
    · obtain rfl := List.mem_singleton.mp hb
      simp [countP_joins_eq_zero h.within (.inr hc)]
  · obtain rfl := List.mem_singleton.mp ha
    simp [countP_joins_eq_zero h.within (.inl hc)]

/-- A new resolvent becomes known, and is resolved with all known clauses. -/
theorem Owing.of_not_known (h : x.Owing r) (hnew : ¬ x.search.Known r.resolvent) :
    ((know { x with search := { x.search with steps := x.search.steps ++ [r] } }
      (x.search.agenda.clauses ++ [r.resolvent])).tryPairs
        ((x.search.agenda.clauses ++ [r.resolvent]).map (r.resolvent, ·))).Accounted := by
  have hself : r.resolvent ∈ x.search.agenda.clauses ++ [r.resolvent] :=
    List.mem_append_right _ (List.mem_singleton_self _)
  have hcontains : ∀ r', r' = r ∨ x.search.agenda.contains r'.resolvent = true →
      (x.search.agenda.clauses ++ [r.resolvent]).contains r'.resolvent = true := by
    rintro r' (rfl | hr')
    · exact List.contains_iff_exists_mem_beq.mpr ⟨_, hself, BEq.rfl⟩
    · obtain ⟨d, hd, hbeq⟩ := List.contains_iff_exists_mem_beq.mp hr'
      exact List.contains_iff_exists_mem_beq.mpr ⟨d, List.mem_append_left _ hd, hbeq⟩
  have hdifferent := Refutation.beq_eq_false_of_not_known hnew
  apply accounted_tryPairs
  · exact h.distinct.append_singleton hdifferent
  · intro e he
    rcases List.mem_append.mp he with he | he
    · exact ⟨List.mem_append_left _ (h.within e he).1, List.mem_append_left _ (h.within e he).2⟩
    · obtain ⟨d, hd, rfl⟩ := List.mem_map.mp he
      exact ⟨hself, hd⟩
  · exact fun a ha b hb => h.countP_joins hdifferent ha hb
  · exact h.balanced
  · exact fun r' hr' => .inl (hcontains r' (h.taken r' hr'))
  · intro r' hr'
    rcases List.mem_append.mp hr' with hr' | hr'
    · exact .inl (hcontains r' (.inr (h.steps r' hr')))
    · exact .inl (hcontains r' (.inl (List.mem_singleton.mp hr')))
  · exact h.unfinished

/-- Dealing with the resolution that was taken puts the accounts in order. -/
theorem Owing.record (h : x.Owing r) : (x.record r).Accounted := by
  unfold Run.record
  split
  next hknown => exact (h.of_known (Refutation.known_iff.mpr hknown)).settle h.unfinished
  next hnew =>
    dsimp only
    split
    next hempty => exact h.of_isEmpty hempty
    next =>
      apply (h.of_not_known (mt Refutation.known_iff.mp hnew)).settle
      rw [search_tryPairs]
      exact h.unfinished

/-- A step keeps the accounts. -/
theorem Accounted.next (h : x.Accounted) : x.next.Accounted := by
  unfold Run.next
  split
  next => exact h
  next hc =>
    have hnone : x.search.result = none := by simpa [Refutation.isComplete] using hc
    unfold Agenda.next?
    cases htake : x.search.strategy.takeUrgent? x.search.agenda.pending with
    | none => exact h
    | some taken => exact (h.take hnone (Strategy.takeUrgent?_perm htake)).record

private theorem accounted_start (strategy : Strategy) (clauses : List Clause) (s : Names)
    (query : Formula) : (start strategy clauses s query).Accounted := by
  apply Accounted.settle
  · apply accounted_tryPairs
    · exact pairwise_dedup _
    · exact fun p hp => mem_of_mem_pairings hp
    · exact fun c hc d hd => countP_joins_pairings (pairwise_dedup _) hc hd
    · exact List.Perm.refl []
    · simp
    · simp
    · rfl
  · rw [search_tryPairs]

/-- A run keeps the accounts. -/
theorem accounted_iterate (strategy : Strategy) (clauses : List Clause) (s : Names)
    (query : Formula) (n : Nat) : (next^[n] (start strategy clauses s query)).Accounted := by
  induction n with
  | zero => exact accounted_start strategy clauses s query
  | succ n ih =>
    rw [Function.iterate_succ_apply']
    exact ih.next

theorem erase_iterate (x : Run) (n : Nat) : (next^[n] x).erase = Refutation.next^[n] x.erase := by
  induction n with
  | zero => rfl
  | succ n ih => rw [Function.iterate_succ_apply', erase_next, ih, Function.iterate_succ_apply']

end Run

/-! ## Section 4: Every pair is resolved once -/

namespace Refutation

/-- A contradiction never becomes a known clause. -/
theorem nonempty_next {q : Refutation} (h : ∀ c ∈ q.agenda.clauses, c.isEmpty = false)
    (s : Names) : ∀ c ∈ (next (q, s)).1.agenda.clauses, c.isEmpty = false := by
  rcases next_cases q s with heq | ⟨r, rest, -, -, heq⟩
  · rw [heq]
    exact h
  · rw [heq]
    rcases record_cases s r { q with agenda := { q.agenda with pending := rest } } with
      ⟨-, heq⟩ | ⟨-, ⟨-, heq⟩ | ⟨hnonempty, heq⟩⟩
    · simpa [heq] using h
    · simpa [heq] using h
    · intro c hc
      rw [heq, agenda_settle] at hc
      rcases List.mem_append.mp hc with hc | hc
      · exact h c hc
      · exact List.mem_singleton.mp hc ▸ hnonempty

theorem nonempty_start {strategy : Strategy} {clauses : List Clause} (s : Names) (query : Formula)
    (h : ∀ c ∈ clauses, c.isEmpty = false) :
    ∀ c ∈ (start strategy clauses s query).1.agenda.clauses, c.isEmpty = false := by
  have hknown : (start strategy clauses s query).1.agenda.clauses =
      dedup (dedup clauses ++ ((Formula.not query).toCnf s).1.clauses) :=
    congrArg Agenda.clauses (agenda_settle _)
  intro c hc
  rw [hknown] at hc
  rcases List.mem_append.mp (mem_of_mem_dedup hc) with hc | hc
  · exact h c (mem_of_mem_dedup hc)
  · exact Formula.isEmpty_of_mem_toCnf hc

end Refutation

/-- A search neither loses nor repeats a pair of clauses, whatever it filters and prefers.  Any two
    known clauses have been resolved in one order and once; the accepted resolutions are, each once,
    still to be done or have been taken; and what has been taken has led to a known clause or to the
    contradiction that ended the search.  So a search that has ended without a contradiction knows
    the resolvent of every accepted resolution, and no empty clause. -/
theorem resolution_pairs_once (strategy : Strategy) (clauses : List Clause) (s : Names)
    (query : Formula) (n : Nat) :
    let x := Run.next^[n] (Run.start strategy clauses s query)
    x.erase = Refutation.next^[n] (Refutation.start strategy clauses s query) ∧
      (∀ t ∈ x.tried, t.first ∈ x.search.agenda.clauses ∧ t.second ∈ x.search.agenda.clauses) ∧
      (∀ c ∈ x.search.agenda.clauses, ∀ d ∈ x.search.agenda.clauses,
        (x.tried.map Attempt.pair).countP (joins c d) = 1) ∧
      (x.search.agenda.pending ++ x.taken).Perm
        ((x.tried.flatMap Attempt.resolutions).filter strategy.accepts) ∧
      (∀ r ∈ x.taken, x.search.agenda.contains r.resolvent = true ∨
        (r.resolvent.isEmpty = true ∧ x.search.result = some true)) ∧
      (x.search.result = some false →
        (∀ t ∈ x.tried, ∀ r ∈ t.resolutions, strategy.accepts r = true →
          x.search.agenda.contains r.resolvent = true) ∧
        ((∀ c ∈ clauses, c.isEmpty = false) →
          ∀ c ∈ x.search.agenda.clauses, c.isEmpty = false)) := by
  intro x
  have h : x.Accounted := Run.accounted_iterate strategy clauses s query n
  have herase : x.erase = Refutation.next^[n] (Refutation.start strategy clauses s query) := by
    rw [← Run.erase_start]
    exact Run.erase_iterate _ n
  have hsearch : x.search =
      (Refutation.next^[n] (Refutation.start strategy clauses s query)).1 :=
    congrArg Prod.fst herase
  have hstrategy : x.search.strategy = strategy := by
    rw [hsearch]
    refine Refutation.iterate_next (P := fun q _ => q.strategy = strategy) (fun q s hq => ?_) ?_ n
    · rw [Refutation.strategy_next, hq]
    · exact Refutation.strategy_settle _
  have hbalanced := h.balanced
  rw [Run.Balanced, hstrategy] at hbalanced
  refine ⟨herase, fun t ht => h.within _ (List.mem_map_of_mem ht), h.once, hbalanced, h.taken,
    fun hfalse => ⟨fun t ht r hr haccepts => ?_, fun hclauses => ?_⟩⟩
  · -- nothing is left to do, so the resolution has been taken
    have hmem := hbalanced.mem_iff.mpr (List.mem_filter.mpr
      ⟨List.mem_flatMap.mpr ⟨t, ht, hr⟩, haccepts⟩)
    rw [h.ended hfalse, List.nil_append] at hmem
    rcases h.taken r hmem with hcontains | ⟨-, htrue⟩
    · exact hcontains
    · rw [hfalse] at htrue
      cases htrue
  · rw [hsearch]
    exact Refutation.iterate_next (P := fun q _ => ∀ c ∈ q.agenda.clauses, c.isEmpty = false)
      (fun q s hq => Refutation.nonempty_next hq s) (Refutation.nonempty_start s query hclauses) n

end Clausal
