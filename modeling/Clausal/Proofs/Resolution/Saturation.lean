import Clausal.Proofs.Clause
import Clausal.Proofs.Resolution.Soundness

/-!
# Saturation

A search that does all resolutions ends without a contradiction only when its clauses are closed
under resolution: any two of them have been resolved, the one with the other or the other way round,
and every resolvent is among them.  The variables of clauses are older than those that rename a
clause apart, so no two clauses are ever mixed up by a resolution.

## Main definitions

- `Agenda.Resolved`: the resolutions of two clauses are known or to be done
- `Agenda.Inherited`: a property that resolvents have if the clauses have it
- `Agenda.Saturating`, `Refutation.Saturating`: what a search keeps on its way

## Main statements

- `Clause.Below.resolve`: the variables of resolvents
- `Refutation.Saturating.next`: a step keeps a search saturating
- `saturating_searchAfter`: a search after formulas have been told
-/

namespace Clausal

/-! ## Section 1: The variables of resolvents -/

/-- All variables of the given literals satisfy `p`. -/
def LiteralsOver (p : Ident → Prop) (ls : List Literal) : Prop :=
  ∀ l ∈ ls, ∀ x ∈ l.vars, p x

section Variables

variable {p : Ident → Prop} {ls : List Literal}

/-- A unifier is about the variables of the literals that it unifies. -/
theorem Literal.over_of_unify {l m : Literal} {σ : Substitution} (h : l.unify .empty m = some σ)
    (hl : ∀ x ∈ l.vars, p x) (hm : ∀ x ∈ m.vars, p x) : σ.Acyclic ∧ σ.Over p := by
  obtain ⟨-, h⟩ := Literal.unify_eq_some.mp h
  exact Atom.over_of_unify Substitution.acyclic_empty (Substitution.over_empty p) hl hm h

theorem LiteralsOver.map (h : LiteralsOver p ls) {σ : Substitution} (hσ : σ.Acyclic)
    (hover : σ.Over p) : LiteralsOver p (ls.map (Literal.subst σ.value)) := by
  intro k hk y hy
  obtain ⟨l, hl, rfl⟩ := List.mem_map.mp hk
  obtain ⟨x, hx, hy⟩ := Atom.mem_vars_subst.mp hy
  exact hover.value hσ (h l hl x hx) y hy

theorem LiteralsOver.dedup (h : LiteralsOver p ls) : LiteralsOver p (dedup ls) :=
  fun l hl => h l (mem_of_mem_dedup hl)

private theorem exists_of_firstUnifier? {σ : Substitution} (h : firstUnifier? ls = some σ) :
    ∃ l ∈ ls, ∃ m ∈ ls, l.unify .empty m = some σ := by
  induction ls with
  | nil => simp [firstUnifier?] at h
  | cons l ls ih =>
    unfold firstUnifier? at h
    split at h
    next τ hτ =>
      obtain ⟨m, hm, hlm⟩ := List.exists_of_findSome?_eq_some hτ
      exact ⟨l, List.mem_cons_self, m, List.mem_cons_of_mem _ hm, hlm.trans h⟩
    next =>
      obtain ⟨k, hk, m, hm, hkm⟩ := ih h
      exact ⟨k, List.mem_cons_of_mem _ hk, m, List.mem_cons_of_mem _ hm, hkm⟩

private theorem LiteralsOver.factor (h : LiteralsOver p ls) : LiteralsOver p (factor ls) := by
  have hfor : ∀ n ls, LiteralsOver p ls → LiteralsOver p (factorFor n ls) := by
    intro n
    induction n with
    | zero => exact fun ls h => h
    | succ n ih =>
      intro ls h
      unfold factorFor
      split
      next => exact h
      next σ hσ =>
        obtain ⟨l, hl, m, hm, hlm⟩ := exists_of_firstUnifier? hσ
        obtain ⟨hacyclic, hover⟩ := Literal.over_of_unify hlm (h l hl) (h m hm)
        exact ih _ (h.map hacyclic hover).dedup
  exact hfor _ _ h.dedup

namespace Clause

theorem below_iff {n : Nat} {c : Clause} : c.Below n ↔ LiteralsOver (·.Below n) c.literals := by
  simp only [Below, LiteralsOver, mem_vars]
  exact ⟨fun h l hl x hx => h x ⟨l, hl, hx⟩, fun h x ⟨l, hl, hx⟩ => h l hl x hx⟩

private theorem Below.apartFrom {s : Names} {c d : Clause} (hd : d.Below s.next) :
    (c.apartFrom s d).1.Below (c.apartFrom s d).2.next := by
  unfold Clause.apartFrom
  split
  next => exact Below.renameApart s
  next => exact hd

/-- The variables of a resolvent are variables of the clauses. -/
theorem literalsOver_of_resolveOn {c d e : Clause} {l m : Literal} {σ : Substitution}
    (hc : LiteralsOver p c.literals) (hd : LiteralsOver p d.literals) (hl : l ∈ c.literals)
    (hm : m ∈ d.literals) (h : c.resolveOn d l m = some (σ, e)) : LiteralsOver p e.literals := by
  obtain ⟨hσ, -, rfl⟩ := resolveOn_eq_some.mp h
  obtain ⟨hacyclic, hover⟩ := Literal.over_of_unify hσ (hc l hl) (hd m hm)
  refine LiteralsOver.dedup (LiteralsOver.factor (LiteralsOver.map ?_ hacyclic hover))
  intro k hk
  rcases List.mem_append.mp hk with hk | hk
  · exact hc k (mem_without.mp hk).1
  · exact hd k (mem_without.mp hk).1

/-- The variables of a resolvent are those of the clauses or have been handed out since. -/
theorem Below.resolve {s : Names} {c d : Clause} (hc : c.Below s.next) (hd : d.Below s.next)
    {r : Resolution} (h : r ∈ (c.resolve s d).1) :
    r.resolvent.Below (c.resolve s d).2.next := by
  obtain ⟨l, hl, m, hm, he, -, -⟩ := mem_resolve.mp h
  exact below_iff.mpr (literalsOver_of_resolveOn
    (below_iff.mp (hc.mono (next_le_next_resolve s c d))) (below_iff.mp hd.apartFrom) hl hm he)

end Clause

end Variables

/-! ## Section 2: Saturating agendas -/

namespace Agenda

/-- The first clause has been resolved with the second, whose variables were renamed to new ones if
    they had to be, and every resolution is to be done or has led to a known clause. -/
def Resolved (a : Agenda) (c d : Clause) : Prop :=
  ∃ s : Names, c.Below s.next ∧ d.Below s.next ∧ ∀ r ∈ (c.resolve s d).1,
    r ∈ a.pending ∨ ∃ e ∈ a.clauses, (r.resolvent == e) = true

theorem Resolved.mono {a b : Agenda} {c d : Clause} (h : a.Resolved c d)
    (hpending : ∀ r ∈ a.pending, r ∈ b.pending ∨ ∃ e ∈ b.clauses, (r.resolvent == e) = true)
    (hclauses : a.clauses ⊆ b.clauses) : b.Resolved c d := by
  obtain ⟨s, hc, hd, hr⟩ := h
  refine ⟨s, hc, hd, fun r hmem => ?_⟩
  rcases hr r hmem with hr | ⟨e, he, hre⟩
  · exact hpending r hr
  · exact Or.inr ⟨e, hclauses he, hre⟩

/-- An agenda on which nothing is lost: the clauses satisfy `P` and are older than the serial `n`,
    and so are the resolvents to come, and any two clauses have been resolved. -/
structure Saturating (P : Clause → Prop) (n : Nat) (a : Agenda) : Prop where
  clauses : ∀ c ∈ a.clauses, c.Below n ∧ P c
  pending : ∀ r ∈ a.pending, r.resolvent.Below n ∧ P r.resolvent
  resolved : ∀ c ∈ a.clauses, ∀ d ∈ a.clauses, a.Resolved c d ∨ a.Resolved d c

/-- A property of clauses that resolvents inherit. -/
def Inherited (P : Clause → Prop) : Prop :=
  ∀ ⦃c d : Clause⦄, P c → P d → ∀ ⦃s : Names⦄ ⦃r : Resolution⦄, r ∈ (c.resolve s d).1 →
    P r.resolvent

variable {P : Clause → Prop} {strategy : Strategy} {s : Names} {a : Agenda}

/-- Queueing the resolutions of pairs of clauses makes up for the pairs that were missing. -/
theorem Saturating.queue (hP : Inherited P) (haccepts : ∀ r, strategy.accepts r = true)
    (hclauses : ∀ c ∈ a.clauses, c.Below s.next ∧ P c)
    (hpending : ∀ r ∈ a.pending, r.resolvent.Below s.next ∧ P r.resolvent)
    {ps : List (Clause × Clause)} (hps : ∀ e ∈ ps, e.1 ∈ a.clauses ∧ e.2 ∈ a.clauses)
    (hpairs : ∀ c ∈ a.clauses, ∀ d ∈ a.clauses,
      (a.Resolved c d ∨ (c, d) ∈ ps) ∨ a.Resolved d c ∨ (d, c) ∈ ps) :
    (a.queue strategy s ps).1.Saturating P (a.queue strategy s ps).2.next where
  clauses c hc := ⟨(hclauses c hc).1.mono next_le_next_queue, (hclauses c hc).2⟩
  pending r hr := by
    rcases of_mem_queue hr with hr | ⟨e, he, s', hle, hle', hr⟩
    · exact ⟨(hpending r hr).1.mono next_le_next_queue, (hpending r hr).2⟩
    · have hc := hclauses _ (hps e he).1
      have hd := hclauses _ (hps e he).2
      exact ⟨(Clause.Below.resolve (hc.1.mono hle) (hd.1.mono hle) hr).mono hle', hP hc.2 hd.2 hr⟩
  resolved := by
    have hdone : ∀ c d, a.Resolved c d ∨ (c, d) ∈ ps → (a.queue strategy s ps).1.Resolved c d := by
      rintro c d (h | h)
      · exact h.mono (fun r hr => Or.inl (pending_subset_queue hr)) fun c hc => hc
      · have hqueued : ∃ s', s.next ≤ s'.next ∧ ∀ r ∈ (c.resolve s' d).1,
            strategy.accepts r = true → r ∈ (a.queue strategy s ps).1.pending := exists_queued h
        obtain ⟨s', hle, hr⟩ := hqueued
        exact ⟨s', (hclauses c (hps _ h).1).1.mono hle, (hclauses d (hps _ h).2).1.mono hle,
          fun r hmem => Or.inl (hr r hmem (haccepts r))⟩
    intro c hc d hd
    exact (hpairs c hc d hd).imp (hdone c d) (hdone d c)

private theorem Saturating.extend (hP : Inherited P) (haccepts : ∀ r, strategy.accepts r = true)
    {c : Clause} (hclauses : ∀ d ∈ a.clauses ++ [c], d.Below s.next ∧ P d)
    (hpending : ∀ r ∈ a.pending, r.resolvent.Below s.next ∧ P r.resolvent)
    (hresolved : ∀ d ∈ a.clauses, ∀ e ∈ a.clauses,
      ({ a with clauses := a.clauses ++ [c] } : Agenda).Resolved d e ∨
        ({ a with clauses := a.clauses ++ [c] } : Agenda).Resolved e d) :
    (a.extend strategy s c).1.Saturating P (a.extend strategy s c).2.next := by
  refine Saturating.queue (a := { a with clauses := a.clauses ++ [c] }) hP haccepts hclauses
    hpending ?_ ?_
  · rintro e he
    obtain ⟨d, hd, rfl⟩ := List.mem_map.mp he
    exact ⟨List.mem_append_right _ (List.mem_singleton_self c), hd⟩
  · -- a pair with the new clause is queued, any other pair has been resolved
    intro d hd e he
    rcases List.mem_append.mp hd with hd' | hd'
    · rcases List.mem_append.mp he with he' | he'
      · exact (hresolved d hd' e he').imp Or.inl Or.inl
      · obtain rfl := List.mem_singleton.mp he'
        exact Or.inr (Or.inr (List.mem_map_of_mem hd))
    · obtain rfl := List.mem_singleton.mp hd'
      exact Or.inl (Or.inr (List.mem_map_of_mem he))

/-- A resolution may be taken from an agenda once its resolvent is known: pairs that have been
    resolved stay so. -/
theorem Saturating.resolved_take {n : Nat} (h : a.Saturating P n) {r : Resolution}
    {rest : List Resolution} (hperm : a.pending.Perm (r :: rest)) {cs : List Clause}
    (hcs : a.clauses ⊆ cs) (hknown : ∃ e ∈ cs, (r.resolvent == e) = true) :
    ∀ c ∈ a.clauses, ∀ d ∈ a.clauses,
      (⟨cs, rest⟩ : Agenda).Resolved c d ∨ (⟨cs, rest⟩ : Agenda).Resolved d c := by
  have hleft : ∀ r' ∈ a.pending, r' ∈ rest ∨ ∃ e ∈ cs, (r'.resolvent == e) = true := by
    intro r' hr'
    rcases List.mem_cons.mp (hperm.mem_iff.mp hr') with rfl | hr'
    · exact Or.inr hknown
    · exact Or.inl hr'
  intro c hc d hd
  exact (h.resolved c hc d hd).imp (fun hcd => hcd.mono hleft hcs) fun hdc => hdc.mono hleft hcs

end Agenda

private theorem mem_pairings {α : Type} {l : List α} {a b : α} (ha : a ∈ l) (hb : b ∈ l) :
    (a, b) ∈ pairings l ∨ (b, a) ∈ pairings l := by
  induction l with
  | nil => simp at ha
  | cons c l ih =>
    rcases List.mem_cons.mp ha with rfl | ha'
    · exact Or.inl (List.mem_append_left _ (List.mem_map_of_mem hb))
    · rcases List.mem_cons.mp hb with rfl | hb'
      · exact Or.inr (List.mem_append_left _ (List.mem_map_of_mem ha))
      · exact (ih ha' hb').imp (List.mem_append_right _) (List.mem_append_right _)

/-! ## Section 3: Saturating searches -/

namespace Refutation

/-- A search that has not lost anything: its agenda is saturating and has all of the given clauses,
    none of the clauses is a contradiction, and it ends only when nothing is left to do. -/
structure Saturating (P : Clause → Prop) (cs : List Clause) (q : Refutation) (s : Names) :
    Prop where
  accepts : ∀ r, q.strategy.accepts r = true
  agenda : q.agenda.Saturating P s.next
  given : ∀ c ∈ cs, ∃ e ∈ q.agenda.clauses, (c == e) = true
  nonempty : ∀ c ∈ q.agenda.clauses, c.isEmpty = false
  steps : ∀ r ∈ q.steps, r.resolvent ∈ q.agenda.clauses
  ended : q.result = some false → q.agenda.pending = []

namespace Saturating

variable {P : Clause → Prop} {cs : List Clause} {q : Refutation} {s : Names}

private theorem given_of_beq (h : q.Saturating P cs s) {ds : List Clause}
    (hds : ∀ d ∈ ds, ∃ c ∈ cs, (d == c) = true) : q.Saturating P ds s where
  __ := h
  given d hd := by
    obtain ⟨c, hc, hdc⟩ := hds d hd
    obtain ⟨e, he, hce⟩ := h.given c hc
    exact ⟨e, he, BEq.trans hdc hce⟩

theorem settle (h : q.Saturating P cs s) : q.settle.Saturating P cs s := by
  unfold Refutation.settle
  split
  next hempty =>
    exact ⟨h.accepts, h.agenda, h.given, h.nonempty, h.steps,
      fun _ => List.isEmpty_iff.mp hempty⟩
  next => exact h

/-- A step keeps a search saturating, unless it finds a contradiction. -/
theorem next (hP : Agenda.Inherited P) (h : q.Saturating P cs s) :
    (Refutation.next (q, s)).1.result = some true ∨
      (Refutation.next (q, s)).1.Saturating P cs (Refutation.next (q, s)).2 := by
  rcases next_cases q s with heq | ⟨r, rest, hnone, hperm, heq⟩
  · rw [heq]
    exact Or.inr h
  rw [heq]
  have hr : r ∈ q.agenda.pending := hperm.mem_iff.mpr List.mem_cons_self
  have hrest : ∀ r' ∈ rest, r' ∈ q.agenda.pending := fun r' hr' =>
    hperm.mem_iff.mpr (List.mem_cons_of_mem _ hr')
  have hresult : q.result ≠ some false := by simp [hnone]
  rcases record_cases s r { q with agenda := { q.agenda with pending := rest } } with
    ⟨hknown, heq⟩ | ⟨-, ⟨-, heq⟩ | ⟨hnonempty, heq⟩⟩
  · -- the resolvent is known already
    have hclause : ∃ e ∈ q.agenda.clauses, (r.resolvent == e) = true := by
      rcases hknown with ⟨r', hr', hbeq⟩ | hmem
      · exact ⟨r'.resolvent, h.steps r' hr', BEq.symm hbeq⟩
      · exact hmem
    rw [heq]
    have hagenda : Agenda.Saturating P s.next { q.agenda with pending := rest } :=
      ⟨h.agenda.clauses, fun r' hr' => h.agenda.pending r' (hrest r' hr'),
        h.agenda.resolved_take hperm (fun c hc => hc) hclause⟩
    exact Or.inr (settle ⟨h.accepts, hagenda, h.given, h.nonempty, h.steps,
      fun hfalse => absurd hfalse hresult⟩)
  · rw [heq]
    exact Or.inl rfl
  · rw [heq]
    have hold : q.agenda.clauses ⊆ q.agenda.clauses ++ [r.resolvent] :=
      List.subset_append_left _ _
    have hnew : r.resolvent ∈ q.agenda.clauses ++ [r.resolvent] :=
      List.mem_append_right _ (List.mem_singleton_self _)
    refine Or.inr (settle ⟨h.accepts, ?_, fun c hc => ?_, fun c hc => ?_, fun r' hr' => ?_,
      fun hfalse => absurd hfalse hresult⟩)
    · refine Agenda.Saturating.extend hP h.accepts ?_
        (fun r' hr' => h.agenda.pending r' (hrest r' hr'))
        (h.agenda.resolved_take hperm hold ⟨_, hnew, BEq.rfl⟩)
      rw [List.forall_mem_append, List.forall_mem_singleton]
      exact ⟨h.agenda.clauses, h.agenda.pending r hr⟩
    · obtain ⟨e, he, hce⟩ := h.given c hc
      exact ⟨e, hold he, hce⟩
    · rcases List.mem_append.mp hc with hc | hc
      · exact h.nonempty c hc
      · exact List.mem_singleton.mp hc ▸ hnonempty
    · rcases List.mem_append.mp hr' with hr' | hr'
      · exact hold (h.steps r' hr')
      · exact List.mem_singleton.mp hr' ▸ hnew

private theorem iterate (hP : Agenda.Inherited P) (h : q.Saturating P cs s) (n : Nat) :
    (Refutation.next^[n] (q, s)).1.result = some true ∨
      (Refutation.next^[n] (q, s)).1.Saturating P cs (Refutation.next^[n] (q, s)).2 := by
  refine iterate_next (P := fun q s => q.result = some true ∨ q.Saturating P cs s) ?_ (Or.inr h) n
  rintro q s (htrue | h)
  · -- a search that has found a contradiction stands still
    rcases next_cases q s with heq | ⟨-, -, hnone, -, -⟩
    · rw [heq]
      exact Or.inl htrue
    · rw [hnone] at htrue
      cases htrue
  · exact h.next hP

private theorem start (hP : Agenda.Inherited P) {strategy : Strategy}
    (haccepts : ∀ r, strategy.accepts r = true) {query : Formula}
    (h : ∀ c ∈ cs ++ ((Formula.not query).toCnf s).1.clauses,
      (c.Below ((Formula.not query).toCnf s).2.next ∧ P c) ∧ c.isEmpty = false) :
    (Refutation.start strategy cs s query).1.Saturating P
      (cs ++ ((Formula.not query).toCnf s).1.clauses) (Refutation.start strategy cs s query).2 := by
  have hmem : ∀ c ∈ dedup (dedup cs ++ ((Formula.not query).toCnf s).1.clauses),
      c ∈ cs ++ ((Formula.not query).toCnf s).1.clauses := by
    intro c hc
    rcases List.mem_append.mp (mem_of_mem_dedup hc) with hc | hc
    · exact List.mem_append_left _ (mem_of_mem_dedup hc)
    · exact List.mem_append_right _ hc
  refine settle ⟨haccepts, ?_, fun c hc => ?_, fun c hc => (h c (hmem c hc)).2, by simp, by simp⟩
  · refine Agenda.Saturating.queue hP haccepts (fun c hc => (h c (hmem c hc)).1)
      (by simp [Agenda.ofClauses]) (fun e => mem_of_mem_pairings) fun c hc d hd => ?_
    exact (mem_pairings hc hd).imp Or.inr Or.inr
  · rcases List.mem_append.mp hc with hc | hc
    · obtain ⟨d, hd, hcd⟩ := exists_beq_mem_dedup hc
      obtain ⟨e, he, hde⟩ := exists_beq_mem_dedup (List.mem_append_left
        ((Formula.not query).toCnf s).1.clauses hd)
      exact ⟨e, he, BEq.trans hcd hde⟩
    · exact exists_beq_mem_dedup (List.mem_append_right (dedup cs) hc)

end Saturating

end Refutation

/-! ## Section 4: Telling and asking -/

namespace Formula

variable {s : Names} {f : Formula}

theorem below_of_mem_toCnf {c : Clause} (hc : c ∈ (f.toCnf s).1.clauses) :
    c.Below (f.toCnf s).2.next := by
  intro x hx
  obtain ⟨l, hl, hx⟩ := Clause.mem_vars.mp hx
  obtain ⟨-, -, -, hvars, -⟩ := mem_atoms_matrix (atom_mem_atoms_matrix hc hl)
  exact hvars x hx

theorem isEmpty_of_mem_toCnf {c : Clause} (hc : c ∈ (f.toCnf s).1.clauses) : c.isEmpty = false :=
  List.isEmpty_eq_false_iff.mpr ((f.toCnf_ne_nil s).2 c hc)

end Formula

private theorem below_of_mem_clausesOf {s : Names} {fs : List Formula} {c : Clause}
    (hc : c ∈ (clausesOf s fs).1) : c.Below (clausesOf s fs).2.next ∧ c.isEmpty = false := by
  obtain ⟨f, -, s', -, hle, hc⟩ := Names.exists_of_mem_flatMap
    (fun s (f : Formula) => f.next_le_next_toCnf s) hc
  exact ⟨(Formula.below_of_mem_toCnf hc).mono hle, Formula.isEmpty_of_mem_toCnf hc⟩

/-- All clauses of what is told are there afterwards, and nothing is lost. -/
theorem ClauseBase.exists_mem_tellAll (b : ClauseBase) (s : Names) (fs : List Formula) {c : Clause}
    (hc : c ∈ b.clauses ∨ c ∈ (clausesOf s fs).1) :
    ∃ d ∈ (b.tellAll s fs).1.clauses, (c == d) = true := by
  induction fs generalizing b s c with
  | nil =>
    rcases hc with hc | hc
    · exact ⟨c, hc, BEq.rfl⟩
    · simp [clausesOf, Names.flatMap] at hc
  | cons f fs ih =>
    rw [clausesOf_cons, List.mem_append, ← or_assoc, ← List.mem_append] at hc
    rcases hc with hc | hc
    · obtain ⟨d, hd, hcd⟩ := exists_beq_mem_dedup hc
      obtain ⟨e, he, hde⟩ := ih (b.tell s f).1 (b.tell s f).2 (Or.inl hd)
      exact ⟨e, he, BEq.trans hcd hde⟩
    · exact ih (b.tell s f).1 (b.tell s f).2 (Or.inr hc)

/-- A search that does all resolutions finds a contradiction or keeps saturating. -/
theorem saturating_searchAfter {P : Clause → Prop} (hP : Agenda.Inherited P) {strategy : Strategy}
    (haccepts : ∀ r, strategy.accepts r = true) {s : Names} {fs : List Formula} {query : Formula}
    (h : ∀ c ∈ (clausesOf s (fs ++ [.not query])).1, P c) (n : Nat) :
    (searchAfter strategy s fs query n).1.result = some true ∨
      (searchAfter strategy s fs query n).1.Saturating P (clausesOf s (fs ++ [.not query])).1
        (searchAfter strategy s fs query n).2 := by
  rw [clausesOf_append, List.forall_mem_append] at h
  rw [clausesOf_append]
  obtain ⟨hs, hstrategy, hmem⟩ := ClauseBase.tellAll_eq ⟨strategy, []⟩ s fs
  have htold : ∀ c ∈ (ClauseBase.tellAll ⟨strategy, []⟩ s fs).1.clauses,
      c ∈ (clausesOf s fs).1 := fun c hc => (hmem c hc).resolve_left List.not_mem_nil
  refine (Refutation.Saturating.iterate hP (Refutation.Saturating.start hP ?_ ?_) n).imp id
    fun hsat => hsat.given_of_beq ?_
  · rw [hstrategy]
    exact haccepts
  · rw [hs, List.forall_mem_append]
    refine ⟨fun c hc => ?_, fun c hc => ?_⟩
    · obtain ⟨hbelow, hempty⟩ := below_of_mem_clausesOf (htold c hc)
      exact ⟨⟨hbelow.mono (Formula.next_le_next_toCnf _ _), h.1 c (htold c hc)⟩, hempty⟩
    · exact ⟨⟨Formula.below_of_mem_toCnf hc, h.2 c hc⟩, Formula.isEmpty_of_mem_toCnf hc⟩
  · rw [hs, List.forall_mem_append]
    refine ⟨fun c hc => ?_, fun c hc => ⟨c, List.mem_append_right _ hc, BEq.rfl⟩⟩
    obtain ⟨d, hd, hcd⟩ := ClauseBase.exists_mem_tellAll ⟨strategy, []⟩ s fs (Or.inr hc)
    exact ⟨d, List.mem_append_left _ hd, hcd⟩

end Clausal
