import Clausal.Proofs.Normal.Cnf
import Clausal.Proofs.Resolution.Resolvent
import Clausal.Proofs.Resolution.Search
import Clausal.Resolution.Base

/-!
# Soundness of resolution

A search that finds a contradiction is right: in every interpretation in which what was told is
true, the question has a true instance.  If it had none, its negation would be true too, and Skolem
symbols could be chosen so that all clauses of the search are true.  Resolvents of true clauses are
true, so the empty clause is never derived.

## Main definitions

- `searchAfter`: the search for an answer after formulas have been told
- `Interpretation.Accepts`: a clause that is true under every valuation and in which equality has its
  name to itself
- `Refutation.Sound`: every clause that is known or about to be known is accepted

## Main statements

- `Refutation.Sound.next`: a step keeps a search sound
- `resolution_sound`
- `resolution_answers_about_skolem`: a question must not name a symbol that the telling introduces
-/

namespace Clausal

universe u

/-! ## Section 1: Accepted clauses -/

/-- No ordinary predicate of a formula has the name of equality. -/
def Formula.Proper (f : Formula) : Prop :=
  ∀ a ∈ f.atoms, a.Proper

instance (f : Formula) : Decidable f.Proper :=
  inferInstanceAs (Decidable (∀ a ∈ f.atoms, a.Proper))

private theorem Formula.Proper.toCnf {f : Formula} (hf : f.Proper) (s : Names) :
    ∀ c ∈ (f.toCnf s).1.clauses, c.Proper := by
  intro c hc l hl
  obtain ⟨a, ha, ⟨θ, hθ⟩, -, -⟩ := mem_atoms_matrix (atom_mem_atoms_matrix hc hl)
  rw [hθ, Atom.proper_subst]
  exact hf a ha

/-- A clause is true under every valuation, and equality has its name to itself there. -/
structure Interpretation.Accepts {D : Type u} (I : Interpretation D) (c : Clause) : Prop where
  models : I.ModelsClause c
  proper : c.Proper

variable {D : Type u} {I : Interpretation D}

theorem Interpretation.Accepts.resolve (hI : I.SymmetricEq) {c d : Clause} (hc : I.Accepts c)
    (hd : I.Accepts d) {s : Names} {r : Resolution} (h : r ∈ (c.resolve s d).1) :
    I.Accepts r.resolvent where
  models := modelsClause_of_mem_resolve hI hc.proper hd.proper hc.models hd.models h
  proper := hc.proper.resolve hd.proper h

/-- A clause that is true somewhere has a literal. -/
theorem Interpretation.Accepts.isEmpty_eq_false {c : Clause} (hc : I.Accepts c) :
    c.isEmpty = false := by
  obtain ⟨l, hl, -⟩ := hc.models I.const
  simp [Clause.isEmpty, List.ne_nil_of_mem hl]

/-! ## Section 2: Sound searches -/

/-- Every clause of an agenda is accepted, and so is every resolvent that is to be looked at. -/
structure Agenda.Sound (I : Interpretation D) (a : Agenda) : Prop where
  clauses : ∀ c ∈ a.clauses, I.Accepts c
  pending : ∀ r ∈ a.pending, I.Accepts r.resolvent

namespace Agenda.Sound

variable {a : Agenda} {strategy : Strategy} {s : Names}

theorem queue (hI : I.SymmetricEq) (h : a.Sound I) {ps : List (Clause × Clause)}
    (hps : ∀ e ∈ ps, e.1 ∈ a.clauses ∧ e.2 ∈ a.clauses) : (a.queue strategy s ps).1.Sound I where
  clauses := h.clauses
  pending r hr := by
    rcases of_mem_queue hr with hr | ⟨e, he, s', -, -, hr⟩
    · exact h.pending r hr
    · exact (h.clauses _ (hps e he).1).resolve hI (h.clauses _ (hps e he).2) hr

private theorem extend (hI : I.SymmetricEq) (h : a.Sound I) {c : Clause} (hc : I.Accepts c) :
    (a.extend strategy s c).1.Sound I := by
  have hext : ({ a with clauses := a.clauses ++ [c] } : Agenda).Sound I := by
    refine ⟨fun d hd => ?_, h.pending⟩
    rcases List.mem_append.mp hd with hd | hd
    · exact h.clauses d hd
    · exact List.mem_singleton.mp hd ▸ hc
  refine hext.queue hI fun e he => ?_
  obtain ⟨d, hd, rfl⟩ := List.mem_map.mp he
  exact ⟨by simp, hd⟩

end Agenda.Sound

theorem mem_of_mem_pairings {α : Type} {l : List α} {e : α × α} (h : e ∈ pairings l) :
    e.1 ∈ l ∧ e.2 ∈ l := by
  induction l with
  | nil => simp [pairings] at h
  | cons a l ih =>
    rcases List.mem_append.mp h with h | h
    · obtain ⟨b, hb, rfl⟩ := List.mem_map.mp h
      exact ⟨List.mem_cons_self, hb⟩
    · exact ⟨List.mem_cons_of_mem _ (ih h).1, List.mem_cons_of_mem _ (ih h).2⟩

namespace Refutation

/-- A search among accepted clauses, which has not ended with a contradiction. -/
structure Sound (I : Interpretation D) (q : Refutation) : Prop where
  agenda : q.agenda.Sound I
  result : q.result ≠ some true

namespace Sound

theorem settle {q : Refutation} (h : q.Sound I) : q.settle.Sound I := by
  unfold Refutation.settle
  split
  · exact ⟨h.agenda, by simp⟩
  · exact h

theorem record (hI : I.SymmetricEq) {q : Refutation} (h : q.Sound I) (s : Names) {r : Resolution}
    (hr : I.Accepts r.resolvent) : (q.record s r).1.Sound I := by
  rcases q.record_cases s r with ⟨-, heq⟩ | ⟨-, ⟨hempty, -⟩ | ⟨-, heq⟩⟩
  · rw [heq]
    exact h.settle
  · rw [hr.isEmpty_eq_false] at hempty
    cases hempty
  · rw [heq]
    exact settle ⟨h.agenda.extend hI hr, h.result⟩

/-- A step keeps a search sound. -/
theorem next (hI : I.SymmetricEq) {q : Refutation} {s : Names} (h : q.Sound I) :
    (Refutation.next (q, s)).1.Sound I := by
  rcases next_cases q s with heq | ⟨r, rest, -, hperm, heq⟩
  · rw [heq]
    exact h
  · have hpending : ∀ r' ∈ r :: rest, I.Accepts r'.resolvent :=
      fun r' hr' => h.agenda.pending r' (hperm.mem_iff.mpr hr')
    have hrest : ({ q with agenda := { q.agenda with pending := rest } } : Refutation).Sound I :=
      ⟨⟨h.agenda.clauses, fun r' hr' => hpending r' (List.mem_cons_of_mem _ hr')⟩, h.result⟩
    rw [heq]
    exact hrest.record hI s (hpending r List.mem_cons_self)

theorem iterate (hI : I.SymmetricEq) {q : Refutation} {s : Names} (h : q.Sound I) (n : Nat) :
    (Refutation.next^[n] (q, s)).1.Sound I :=
  iterate_next (P := fun q _ => q.Sound I) (fun _ _ => next hI) h n

private theorem start (hI : I.SymmetricEq) {strategy : Strategy} {cs : List Clause} {s : Names}
    {query : Formula} (hcs : ∀ c ∈ cs, I.Accepts c)
    (hquery : ∀ c ∈ ((Formula.not query).toCnf s).1.clauses, I.Accepts c) :
    (Refutation.start strategy cs s query).1.Sound I := by
  refine settle ⟨Agenda.Sound.queue hI ⟨fun c hc => ?_, by simp [Agenda.ofClauses]⟩
    fun e => mem_of_mem_pairings, by simp⟩
  rcases List.mem_append.mp (mem_of_mem_dedup hc) with hc | hc
  · exact hcs c (mem_of_mem_dedup hc)
  · exact hquery c hc

end Sound

end Refutation

/-! ## Section 3: Telling and asking -/

/-- A base of clauses after formulas have been told one after the other. -/
def ClauseBase.tellAll (b : ClauseBase) (s : Names) (fs : List Formula) : ClauseBase × Names :=
  fs.foldl (fun x f => x.1.tell x.2 f) (b, s)

/-- The search for an answer to a question after formulas have been told, `n` steps after its
    beginning. -/
def searchAfter (strategy : Strategy) (s : Names) (fs : List Formula) (query : Formula) (n : Nat) :
    Refutation × Names :=
  let told := ClauseBase.tellAll ⟨strategy, []⟩ s fs
  Refutation.next^[n] (told.1.query told.2 query)

/-- The clauses of a base are those of what was told, up to repetitions. -/
theorem ClauseBase.tellAll_eq (b : ClauseBase) (s : Names) (fs : List Formula) :
    (b.tellAll s fs).2 = (clausesOf s fs).2 ∧ (b.tellAll s fs).1.strategy = b.strategy ∧
      ∀ c ∈ (b.tellAll s fs).1.clauses, c ∈ b.clauses ∨ c ∈ (clausesOf s fs).1 := by
  induction fs generalizing b s with
  | nil => exact ⟨rfl, rfl, fun c hc => Or.inl hc⟩
  | cons f fs ih =>
    obtain ⟨hs, hstrategy, hmem⟩ := ih (b.tell s f).1 (b.tell s f).2
    refine ⟨hs, hstrategy, fun c hc => ?_⟩
    rcases hmem c hc with hc | hc
    · rcases List.mem_append.mp (mem_of_mem_dedup hc) with hc | hc
      · exact Or.inl hc
      · exact Or.inr (List.mem_append_left _ hc)
    · exact Or.inr (List.mem_append_right _ hc)

theorem proper_clausesOf {s : Names} {fs : List Formula} (hfs : ∀ f ∈ fs, f.Proper) :
    ∀ c ∈ (clausesOf s fs).1, c.Proper := by
  intro c hc
  obtain ⟨f, hf, s', -, -, hc⟩ := Names.exists_of_mem_flatMap
    (fun s (f : Formula) => f.next_le_next_toCnf s) hc
  exact (hfs f hf).toCnf s' c hc

/-- Where the clauses of what was told and of the negated question are true, the search is sound. -/
theorem sound_searchAfter (hI : I.SymmetricEq) (strategy : Strategy) {s : Names}
    {fs : List Formula} {query : Formula} (hproper : ∀ f ∈ fs ++ [.not query], f.Proper)
    (h : ∀ c ∈ (clausesOf s (fs ++ [.not query])).1, I.ModelsClause c) (n : Nat) :
    (searchAfter strategy s fs query n).1.Sound I := by
  have haccepts : ∀ c ∈ (clausesOf s (fs ++ [.not query])).1, I.Accepts c := fun c hc =>
    ⟨h c hc, proper_clausesOf hproper c hc⟩
  rw [clausesOf_append, List.forall_mem_append] at haccepts
  obtain ⟨hs, -, hmem⟩ := ClauseBase.tellAll_eq ⟨strategy, []⟩ s fs
  refine Refutation.Sound.iterate hI (Refutation.Sound.start hI (fun c hc => ?_) ?_) n
  · rcases hmem c hc with hc | hc
    · simp at hc
    · exact haccepts.1 c hc
  · rw [hs]
    exact haccepts.2

/-- Soundness of resolution: if a search ends with a contradiction, then in every interpretation in
    which all that was told is true the question has a true instance. -/
theorem resolution_sound (strategy : Strategy) (s : Names) (fs : List Formula) (query : Formula)
    (hissued : ∀ f ∈ query :: fs, f.Issued s) (hproper : ∀ f ∈ query :: fs, f.Proper) (n : Nat)
    (h : (searchAfter strategy s fs query n).1.result = some true)
    {D : Type u} (I : Interpretation D) (hI : I.SymmetricEq) (hfs : ∀ f ∈ fs, I.Models f) :
    ∃ v, I.Holds v query := by
  by_contra hquery
  rw [List.forall_mem_cons] at hissued hproper
  have hneg : I.Models (.not query) := fun v hv => hquery ⟨v, hv⟩
  have hall {P : Formula → Prop} (hq : P (.not query)) (hfs : ∀ f ∈ fs, P f) :
      ∀ f ∈ fs ++ [.not query], P f :=
    List.forall_mem_append.mpr ⟨hfs, List.forall_mem_singleton.mpr hq⟩
  obtain ⟨J, hJ, hclauses⟩ := I.exists_models_clausesOf hI
    (hall (P := fun f => f.Issued s) hissued.1 hissued.2) (hall hneg hfs)
  exact (sound_searchAfter (hJ.symmetricEq hI) strategy (hall hproper.1 hproper.2) hclauses n).result h

/-- Everything is below something, and nothing is below what is below it. -/
def endlessOrder : List Formula :=
  [.all (.num 0) (.ex (.num 1) (.atom (.pred (.num 2) [.var (.num 0), .var (.num 1)]))),
    .imp (.atom (.pred (.num 2) [.var (.num 0), .var (.num 1)]))
      (.not (.atom (.pred (.num 2) [.var (.num 1), .var (.num 0)])))]

/-- Something is not below a given thing. -/
def someNotBelow : Formula :=
  .ex (.num 0) (.not (.atom (.pred (.num 2) [.var (.num 0), .const (.num 3)])))

/-- Five steps refute that everything is below the given thing, and among the natural numbers there is
    indeed something that is not. -/
theorem resolution_sound_endlessOrder :
    (searchAfter (StrategyChoice.strategy {}) {} endlessOrder someNotBelow 5).1.result = some true ∧
      (∀ f ∈ endlessOrder, strictOrder.Models f) ∧ ∃ v, strictOrder.Holds v someNotBelow := by
  have hresult : (searchAfter (StrategyChoice.strategy {}) {} endlessOrder someNotBelow 5).1.result =
      some true := by decide +kernel
  have hmodels : ∀ f ∈ endlessOrder, strictOrder.Models f := by
    intro f hf v
    simp only [endlessOrder, List.mem_cons, List.not_mem_nil, or_false] at hf
    rcases hf with rfl | rfl
    · exact fun d => ⟨d + 1, d, d + 1, rfl, Nat.lt_succ_self d⟩
    · rintro ⟨a, b, hab, hlt⟩ ⟨c, d, hcd, hlt'⟩
      simp only [List.map_cons, List.map_nil, List.cons.injEq, and_true] at hab hcd
      omega
  exact ⟨hresult, hmodels, resolution_sound _ {} endlessOrder someNotBelow (by decide) (by decide) 5
    hresult strictOrder (fun _ _ h => h.symm) hmodels⟩

/-- A question must not use a name that the telling has introduced: after being told that something
    has a property, a search finds at once that the thing of the new name has it, which does not
    follow. -/
theorem resolution_answers_about_skolem :
    (searchAfter (StrategyChoice.strategy {}) {} [somethingHas] namedHas 1).1.result = some true ∧
      somethingHas.Proper ∧ namedHas.Proper ∧ loneWitness.SymmetricEq ∧
      loneWitness.Models somethingHas ∧ ¬ ∃ v, loneWitness.Holds v namedHas := by
  refine ⟨by decide +kernel, by decide, by decide, fun a b h => h.symm, fun v => ⟨false, rfl⟩, ?_⟩
  rintro ⟨v, hv⟩
  cases hv

end Clausal
