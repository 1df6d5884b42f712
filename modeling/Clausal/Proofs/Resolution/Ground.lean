import Clausal.Proofs.Resolution.Completeness
import Mathlib.Data.Set.Card

/-!
# Resolution without variables

For formulas without variables and quantifiers resolution is a decision procedure.  All literals of a
search are literals of the clauses it starts from, so there are only finitely many clauses, up to
equality, and each step adds a clause or does one of the resolutions that are left.  Without variables
factoring only drops repetitions, so the search is complete as well as sound.

## Main definitions

- `Formula.IsGround`, `Formula.TrueUnder`: truth by truth values of the atoms
- `GroundEntails`: propositional entailment, where equal atoms have one truth value
- `Refutation.Tidy`: known clauses are not repeated, and a search with nothing to do has ended

## Main statements

- `Interpretation.models_clausesOf`: without quantifiers the clauses hold wherever the formulas do
- `losslessFactoring_of_within`: without variables factoring loses nothing
- `Refutation.exists_isComplete`: a search among boundedly many clauses comes to its end
- `resolution_decides_ground`
-/

namespace Clausal

universe u

/-! ## Section 1: Normal forms without quantifiers -/

namespace Formula

private theorem quantifiers_standardiseFrom (origin : Option Nat) (n : Nat) (ρ : Ident → Ident)
    (f : Formula) : (f.standardiseFrom origin n ρ).quantifiers = f.quantifiers := by
  induction f generalizing n ρ with
  | atom a => rfl
  | not f ih => exact ih n ρ
  | and f g ihf ihg | or f g ihf ihg | imp f g ihf ihg | iff f g ihf ihg =>
    exact congrArg₂ (· + ·) (ihf _ _) (ihg _ _)
  | all x f ih | ex x f ih => exact congrArg (· + 1) (ih _ _)

private theorem quantifiers_nnfAs_eliminate {f : Formula} (h : f.quantifiers = 0) (b : Bool) :
    (f.eliminate.nnfAs b).quantifiers = 0 := by
  induction f generalizing b with
  | atom a => cases b <;> rfl
  | not f ih => cases b <;> exact ih h _
  | and f g ihf ihg | or f g ihf ihg | imp f g ihf ihg | iff f g ihf ihg =>
    have hparts : f.quantifiers = 0 ∧ g.quantifiers = 0 := Nat.add_eq_zero_iff.mp h
    cases b <;> simp [eliminate, nnfAs, quantifiers, ihf hparts.1, ihg hparts.2]
  | all x f ih | ex x f ih => cases h

theorem skolemiseFrom_of_quantifiers {f : Formula} (h : f.quantifiers = 0) (origin : Option Nat)
    (n : Nat) (us : List Term) : f.skolemiseFrom origin n us .var = f := by
  induction f generalizing n with
  | atom a => rw [skolemiseFrom, a.subst_var]
  | not f ih => rw [skolemiseFrom, ih h]
  | and f g ihf ihg | or f g ihf ihg | imp f g ihf ihg | iff f g ihf ihg =>
    have hparts : f.quantifiers = 0 ∧ g.quantifiers = 0 := Nat.add_eq_zero_iff.mp h
    rw [skolemiseFrom, ihf hparts.1, ihg hparts.2]
  | all x f ih | ex x f ih => cases h

private theorem dropUniversals_of_quantifiers {f : Formula} (h : f.quantifiers = 0) :
    f.dropUniversals = f := by
  induction f with
  | atom a => rfl
  | not f ih => rw [dropUniversals, ih h]
  | and f g ihf ihg | or f g ihf ihg | imp f g ihf ihg | iff f g ihf ihg =>
    have hparts : f.quantifiers = 0 ∧ g.quantifiers = 0 := Nat.add_eq_zero_iff.mp h
    rw [dropUniversals, ihf hparts.1, ihg hparts.2]
  | all x f ih | ex x f ih => cases h

end Formula

/-- The clauses of a formula without quantifiers say what the formula says, in every interpretation. -/
theorem Interpretation.models_clausesOf {D : Type u} {I : Interpretation D} (hI : I.SymmetricEq)
    {s : Names} {fs : List Formula} (hfs : ∀ f ∈ fs, f.quantifiers = 0)
    (h : ∀ f ∈ fs, I.Models f) : ∀ c ∈ (clausesOf s fs).1, I.ModelsClause c := by
  intro c hc
  obtain ⟨f, hf, s', -, -, hc⟩ := Names.exists_of_mem_flatMap
    (fun s (f : Formula) => f.next_le_next_toCnf s) hc
  have hzero : (f.standardForm s').1.result.quantifiers = 0 :=
    (Formula.quantifiers_standardiseFrom _ _ _ f).trans (hfs f hf)
  have hnnf := Formula.quantifiers_nnfAs_eliminate hzero true
  have hmatrix : f.matrix s' = (f.standardForm s').1.result.eliminate.nnfAs true := by
    unfold Formula.matrix Formula.matrixAs
    rw [Formula.skolemiseFrom_of_quantifiers hnnf, Formula.dropUniversals_of_quantifiers hnnf]
  refine (models_matrix_iff hI s' f).mp (fun v => ?_) c hc
  rw [hmatrix, I.holds_nnfAs, I.holds_eliminate]
  exact iff_of_true ((I.models_standardise _ _ f).mpr (h f hf) v) rfl

/-! ## Section 2: Truth values of atoms -/

/-- A formula without quantifiers and without variables. -/
structure Formula.IsGround (f : Formula) : Prop where
  quantifiers : f.quantifiers = 0
  vars : ∀ a ∈ f.atoms, a.vars = []

/-- The truth of a formula without quantifiers, from the truth values of its atoms. -/
def Formula.TrueUnder (w : Atom → Prop) : Formula → Prop
  | .atom a => w a
  | .not f => ¬ f.TrueUnder w
  | .and f g => f.TrueUnder w ∧ g.TrueUnder w
  | .or f g => f.TrueUnder w ∨ g.TrueUnder w
  | .imp f g => f.TrueUnder w → g.TrueUnder w
  | .iff f g => (f.TrueUnder w ↔ g.TrueUnder w)
  | .all _ f | .ex _ f => f.TrueUnder w

/-- The formulas propositionally entail the question, where equal atoms have one truth value. -/
def GroundEntails (fs : List Formula) (query : Formula) : Prop :=
  ∀ w : Atom → Prop, (∀ a b, (a == b) = true → (w a ↔ w b)) →
    (∀ f ∈ fs, f.TrueUnder w) → query.TrueUnder w

/-- In an interpretation by terms, truth values are all that matters to a ground formula. -/
theorem holds_termModel_iff {M : Set Atom} {f : Formula} (hf : f.IsGround) (v : Ident → Term) :
    (termModel M).Holds v f ↔ f.TrueUnder (· ∈ M) := by
  obtain ⟨hquantifiers, hvars⟩ := hf
  induction f with
  | atom a =>
    rw [Interpretation.Holds, holdsAtom_termModel,
      Atom.subst_of_vars_eq_nil (hvars a (List.mem_singleton_self a))]
    rfl
  | not f ih => exact not_congr (ih hquantifiers hvars)
  | and f g ihf ihg | or f g ihf ihg | imp f g ihf ihg | iff f g ihf ihg =>
    obtain ⟨hqf, hqg⟩ := Nat.add_eq_zero_iff.mp hquantifiers
    obtain ⟨hvf, hvg⟩ := List.forall_mem_append.mp hvars
    simp only [Interpretation.Holds, Formula.TrueUnder, ihf hqf hvf, ihg hqg hvg]
  | all x f ih | ex x f ih => cases hquantifiers

theorem Literal.subst_of_vars_eq_nil {l : Literal} (h : l.vars = []) (θ : Ident → Term) :
    l.subst θ = l :=
  congrArg (Literal.mk l.positive) (Atom.subst_of_vars_eq_nil h θ)

/-! ## Section 3: Clauses over given literals -/

/-- The literals of a clause are among the given ones. -/
def Clause.Within (ls : List Literal) (c : Clause) : Prop :=
  ∀ l ∈ c.literals, l ∈ ls

section Literals

variable {ls : List Literal} (hls : ∀ l ∈ ls, l.atom.Proper ∧ l.vars = [])

include hls

theorem IsImage.within {θ : Ident → Term} {js ks : List Literal} (h : IsImage θ js ks)
    (hjs : ∀ j ∈ js, j ∈ ls) : ∀ k ∈ ks, k ∈ ls := by
  intro k hk
  obtain ⟨j, hj, rfl⟩ := h.into k hk
  rw [Literal.subst_of_vars_eq_nil (hls j (hjs j hj)).2]
  exact hjs j hj

private theorem Clause.inherited_within : Agenda.Inherited (Clause.Within ls) := by
  intro c d hc hd s r hr
  obtain ⟨l, -, m, -, he, -, -⟩ := mem_resolve.mp hr
  obtain ⟨ρ, hρ⟩ := exists_isImage_apartFrom s c d
  obtain ⟨θ, hθ⟩ := exists_isImage_of_resolveOn he
  refine hθ.within hls fun k hk => ?_
  rcases List.mem_append.mp hk with hk | hk
  · exact hc k (mem_without.mp hk).1
  · exact hρ.within hls hd k (mem_without.mp hk).1

/-- Different literals without variables do not unify. -/
theorem firstUnifier?_of_distinct {ks : List Literal} (hks : ∀ k ∈ ks, k ∈ ls)
    (h : Distinct ks) : firstUnifier? ks = none := by
  induction ks with
  | nil => rfl
  | cons k ks ih =>
    obtain ⟨hk, hks⟩ := List.forall_mem_cons.mp hks
    obtain ⟨hne, h⟩ := List.pairwise_cons.mp h
    unfold firstUnifier?
    rw [List.findSome?_eq_none_iff.mpr fun m hm => ?_]
    · exact ih hks h
    · cases hσ : k.unify .empty m with
      | none => rfl
      | some σ =>
        have hbeq := Literal.beq_subst_of_unify Substitution.acyclic_empty (hls k hk).1
          (hls m (hks m hm)).1 hσ
        rw [Literal.subst_of_vars_eq_nil (hls k hk).2,
          Literal.subst_of_vars_eq_nil (hls m (hks m hm)).2, hne m hm] at hbeq
        cases hbeq

/-- Without variables, factoring only drops repetitions. -/
theorem lossless_of_within {ks : List Literal} (hks : ∀ k ∈ ks, k ∈ ls) : Lossless ks := by
  have hnone : firstUnifier? (dedup ks) = none :=
    firstUnifier?_of_distinct hls (fun k hk => hks k (mem_of_mem_dedup hk)) (pairwise_dedup ks)
  have hfactor : ∀ n, factorFor n (dedup ks) = dedup ks := by
    intro n
    cases n with
    | zero => rfl
    | succ n => simp [factorFor, hnone]
  refine ⟨.var, fun k hk => ⟨k, ?_, ?_⟩⟩
  · rw [factor, hfactor] at hk
    exact mem_of_mem_dedup hk
  · rw [k.subst_var]
    exact BEq.rfl

theorem losslessFactoring_of_within {cs : List Clause} (hcs : ∀ c ∈ cs, c.Within ls) :
    LosslessFactoring cs where
  separate c hc := firstUnifier?_of_distinct hls (hcs c hc) c.distinct
  lossless c hc d hd s l _ m _ σ _ := by
    obtain ⟨ρ, hρ⟩ := Clause.exists_isImage_apartFrom s c d
    refine lossless_of_within hls ((IsImage.map σ.value _).within hls fun k hk => ?_)
    rcases List.mem_append.mp hk with hk | hk
    · exact hcs c hc k (Clause.mem_without.mp hk).1
    · exact hρ.within hls (hcs d hd) k (Clause.mem_without.mp hk).1

end Literals

/-- There are only so many clauses over given literals. -/
theorem length_le_of_within {ls : List Literal} {cs : List Clause} (hdistinct : Distinct cs)
    (hcs : ∀ c ∈ cs, c.Within ls) : cs.length ≤ (groundInstance .var ls).powerset.ncard := by
  have hnodup : (cs.map fun c => groundInstance .var c.literals).Nodup := by
    refine List.pairwise_map.mpr (hdistinct.imp fun {c d} hcd heq => ?_)
    have hsub : ∀ {c d : Clause}, groundInstance .var c.literals ⊆ groundInstance .var d.literals →
        ∀ l ∈ c.literals, ∃ m ∈ d.literals, (l == m) = true := by
      intro c d hsub l hl
      obtain ⟨m, hm, hml⟩ := hsub ⟨l, hl, rfl⟩
      have hbeq := Literal.ground_eq_iff.mp hml.symm
      rw [l.subst_var, m.subst_var] at hbeq
      exact ⟨m, hm, hbeq⟩
    have hsame := Clause.beq_iff.mpr ⟨hsub heq.subset, hsub heq.symm.subset⟩
    rw [hcd] at hsame
    cases hsame
  classical
  have hsubset : (((cs.map fun c => groundInstance .var c.literals).toFinset : Finset _) : Set _) ⊆
      (groundInstance .var ls).powerset := by
    intro C hC
    obtain ⟨c, hc, rfl⟩ := List.mem_map.mp (List.mem_toFinset.mp (Finset.mem_coe.mp hC))
    rintro _ ⟨l, hl, rfl⟩
    exact ⟨l, hcs c hc l hl, rfl⟩
  calc cs.length = ((cs.map fun c => groundInstance .var c.literals).toFinset).card := by
        rw [List.toFinset_card_of_nodup hnodup, List.length_map]
    _ = Set.ncard _ := (Set.ncard_coe_finset _).symm
    _ ≤ (groundInstance .var ls).powerset.ncard :=
        Set.ncard_le_ncard hsubset (finite_groundInstance .var ls).powerset

/-! ## Section 4: Searches come to an end -/

namespace Refutation

/-- Known clauses are not repeated, and a search that has not ended has something to do. -/
structure Tidy (q : Refutation) : Prop where
  distinct : Distinct q.agenda.clauses
  pending : q.result = none → q.agenda.pending ≠ []

variable {q : Refutation} {s : Names}

theorem tidy_settle (h : Distinct q.agenda.clauses) : q.settle.Tidy := by
  unfold settle
  split
  next => exact ⟨h, fun hnone => by cases hnone⟩
  next hpending => exact ⟨h, fun _ hnil => hpending (by rw [Agenda.isEmpty, hnil]; rfl)⟩

/-- The cases of taking in a resolution, as far as the number of clauses is concerned. -/
theorem record_growth (h : Distinct q.agenda.clauses) (r : Resolution) : (q.record s r).1.Tidy ∧
    ((q.record s r).1.result ≠ none ∨ (q.record s r).1.agenda = q.agenda ∨
      (q.record s r).1.agenda.clauses.length = q.agenda.clauses.length + 1) := by
  rcases q.record_cases s r with ⟨-, heq⟩ | ⟨hnew, ⟨-, heq⟩ | ⟨-, heq⟩⟩
  · rw [heq]
    exact ⟨tidy_settle h, Or.inr (Or.inl q.agenda_settle)⟩
  · rw [heq]
    exact ⟨⟨h, fun hnone => by cases hnone⟩, Or.inl (by simp)⟩
  · have hdistinct : Distinct (q.agenda.clauses ++ [r.resolvent]) :=
      h.append_singleton (beq_eq_false_of_not_known hnew)
    rw [heq]
    refine ⟨tidy_settle hdistinct, Or.inr (Or.inr ?_)⟩
    rw [agenda_settle]
    exact List.length_append

theorem Tidy.next (h : q.Tidy) : (Refutation.next (q, s)).1.Tidy := by
  rcases next_cases q s with heq | ⟨r, rest, -, -, heq⟩
  · rw [heq]
    exact h
  · rw [heq]
    exact (record_growth (q := { q with agenda := { q.agenda with pending := rest } })
      h.distinct r).1

private theorem Tidy.iterate (h : q.Tidy) (n : Nat) : (Refutation.next^[n] (q, s)).1.Tidy :=
  iterate_next (P := fun q _ => q.Tidy) (fun _ _ h => h.next) h n

/-- A search that has not ended ends, or has less to do, or knows one clause more. -/
theorem Tidy.progress (h : q.Tidy) (hnone : q.result = none) :
    (Refutation.next (q, s)).1.result ≠ none ∨
      ((Refutation.next (q, s)).1.agenda.clauses.length = q.agenda.clauses.length ∧
        (Refutation.next (q, s)).1.agenda.pending.length < q.agenda.pending.length) ∨
      (Refutation.next (q, s)).1.agenda.clauses.length = q.agenda.clauses.length + 1 := by
  obtain ⟨r, rest, hperm, heq⟩ := exists_next_eq_record hnone (h.pending hnone) s
  rw [heq]
  refine (record_growth (q := { q with agenda := { q.agenda with pending := rest } })
    h.distinct r).2.imp id (Or.imp (fun hagenda => ?_) id)
  rw [hagenda, hperm.length_eq]
  exact ⟨rfl, Nat.lt_succ_self _⟩

/-- A search that never knows more than `K` clauses comes to its end. -/
theorem exists_isComplete {K : Nat} (h : q.Tidy)
    (hK : ∀ n, (Refutation.next^[n] (q, s)).1.agenda.clauses.length ≤ K) :
    ∃ n, (Refutation.next^[n] (q, s)).1.result ≠ none := by
  -- first the clauses that may still become known, then what is left to do
  induction hk : K - q.agenda.clauses.length using Nat.strong_induction_on generalizing q s with
  | _ k ihk =>
    induction hj : q.agenda.pending.length using Nat.strong_induction_on generalizing q s with
    | _ j ihj =>
      by_cases hnone : q.result = none
      · obtain ⟨q', s', hx⟩ : ∃ q' s', Refutation.next (q, s) = (q', s') := ⟨_, _, rfl⟩
        have htidy : q'.Tidy := by simpa [hx] using h.next (s := s)
        have hnext : ∀ n, (Refutation.next^[n] (q', s')).1.agenda.clauses.length ≤ K := by
          intro n
          simpa [Function.iterate_succ_apply, hx] using hK (n + 1)
        have hlater : (∃ n, (Refutation.next^[n] (q', s')).1.result ≠ none) →
            ∃ n, (Refutation.next^[n] (q, s)).1.result ≠ none := fun ⟨n, hn⟩ =>
          ⟨n + 1, by rwa [Function.iterate_succ_apply, hx]⟩
        have hprogress := h.progress (s := s) hnone
        rw [hx] at hprogress
        dsimp only at hprogress
        rcases hprogress with hended | ⟨hclauses, hpending⟩ | hclauses
        · exact hlater ⟨0, hended⟩
        · exact hlater (ihj _ (hj ▸ hpending) htidy hnext (by rw [hclauses, hk]) rfl)
        · have hlt : q'.agenda.clauses.length ≤ K := hnext 0
          exact hlater (ihk _ (by omega) htidy hnext rfl)
      · exact ⟨0, hnone⟩

private theorem tidy_start (strategy : Strategy) (cs : List Clause) (s : Names) (query : Formula) :
    (Refutation.start strategy cs s query).1.Tidy :=
  tidy_settle (pairwise_dedup _)

private theorem begun_start (strategy : Strategy) (cs : List Clause) (s : Names) (query : Formula) :
    (Refutation.start strategy cs s query).1.begun = false := by
  unfold start settle
  dsimp only
  split <;> rfl

end Refutation

/-! ## Section 5: The decision procedure -/

section Decision

variable {strategy : Strategy} {s : Names} {fs : List Formula} {query : Formula}

/-- The literals of the clauses of formulas. -/
def literalsOf (s : Names) (fs : List Formula) : List Literal :=
  (clausesOf s fs).1.flatMap Clause.literals

/-- The clauses of ground formulas have literals without variables. -/
theorem ground_literalsOf (hground : ∀ f ∈ fs, f.IsGround) (hproper : ∀ f ∈ fs, f.Proper) :
    ∀ l ∈ literalsOf s fs, l.atom.Proper ∧ l.vars = [] := by
  intro l hl
  obtain ⟨c, hc, hl⟩ := List.mem_flatMap.mp hl
  obtain ⟨f, hf, s', -, -, hc'⟩ := Names.exists_of_mem_flatMap
    (fun s (f : Formula) => f.next_le_next_toCnf s) hc
  obtain ⟨a, ha, ⟨τ, hτ⟩, -, -⟩ :=
    Formula.mem_atoms_matrix (Formula.atom_mem_atoms_matrix hc' hl)
  have hvars := (hground f hf).vars a ha
  refine ⟨proper_clausesOf hproper c hc l hl, ?_⟩
  rw [Literal.vars, hτ, Atom.subst_of_vars_eq_nil hvars, hvars]

/-- Without a contradiction, a search knows no clauses but those over the literals it starts from. -/
theorem within_searchAfter (haccepts : ∀ r, strategy.accepts r = true)
    (hground : ∀ f ∈ fs ++ [.not query], f.IsGround)
    (hproper : ∀ f ∈ fs ++ [.not query], f.Proper) {n : Nat}
    (h : (searchAfter strategy s fs query n).1.result ≠ some true) :
    ∀ c ∈ (searchAfter strategy s fs query n).1.agenda.clauses,
      c.Within (literalsOf s (fs ++ [.not query])) := by
  have hwithin : ∀ c ∈ (clausesOf s (fs ++ [.not query])).1,
      c.Within (literalsOf s (fs ++ [.not query])) :=
    fun c hc l hl => List.mem_flatMap.mpr ⟨c, hc, hl⟩
  have hsat := (saturating_searchAfter
    (Clause.inherited_within (ground_literalsOf hground hproper)) haccepts hwithin n).resolve_left h
  exact fun c hc => (hsat.agenda.clauses c hc).2

/-- A search among ground clauses comes to its end. -/
theorem exists_result_searchAfter (haccepts : ∀ r, strategy.accepts r = true)
    (hground : ∀ f ∈ fs ++ [.not query], f.IsGround)
    (hproper : ∀ f ∈ fs ++ [.not query], f.Proper) :
    ∃ n b, (searchAfter strategy s fs query n).1.result = some b := by
  have htidy : ∀ n, (searchAfter strategy s fs query n).1.Tidy := fun n =>
    (Refutation.tidy_start _ _ _ _).iterate n
  by_contra hnever
  have hnone : ∀ n, (searchAfter strategy s fs query n).1.result = none := fun n =>
    Option.eq_none_iff_forall_ne_some.mpr fun b hb => hnever ⟨n, b, hb⟩
  obtain ⟨n, hn⟩ := Refutation.exists_isComplete (htidy 0) fun n =>
    length_le_of_within (htidy n).distinct
      (within_searchAfter haccepts hground hproper (n := n) (by rw [hnone n]; simp))
  exact hn (hnone n)

/-- A search that ends without a contradiction leaves truth values that refute the entailment. -/
theorem not_groundEntails_of_result (haccepts : ∀ r, strategy.accepts r = true)
    (hground : ∀ f ∈ fs ++ [.not query], f.IsGround)
    (hproper : ∀ f ∈ fs ++ [.not query], f.Proper) {n : Nat}
    (h : (searchAfter strategy s fs query n).1.result = some false) : ¬ GroundEntails fs query := by
  have hrigid : ∀ f ∈ fs ++ [.not query], ∀ a ∈ f.atoms, a.Rigid := fun f hf a ha =>
    ⟨hproper f hf a ha, fun _ => (hground f hf).vars a ha⟩
  have hfactor := losslessFactoring_of_within (ground_literalsOf hground hproper)
    (within_searchAfter haccepts hground hproper (by rw [h]; simp))
  obtain ⟨M, hM, hmodels⟩ := exists_termModel_of_result_eq_false haccepts hrigid h hfactor
  have htrue : ∀ f ∈ fs ++ [.not query], f.TrueUnder (· ∈ M) := fun f hf =>
    (holds_termModel_iff (hground f hf) .var).mp (hmodels f hf .var)
  rw [List.forall_mem_append, List.forall_mem_singleton] at htrue
  exact fun hentails => htrue.2 (hentails (· ∈ M) hM htrue.1)

/-- A search that finds a contradiction is right. -/
theorem groundEntails_of_result (hground : ∀ f ∈ fs ++ [.not query], f.IsGround)
    (hproper : ∀ f ∈ fs ++ [.not query], f.Proper) {n : Nat}
    (h : (searchAfter strategy s fs query n).1.result = some true) : GroundEntails fs query := by
  intro w hw hfs
  by_contra hquery
  have htrue : ∀ f ∈ fs ++ [.not query], f.TrueUnder w :=
    List.forall_mem_append.mpr ⟨hfs, List.forall_mem_singleton.mpr hquery⟩
  have hmodels : ∀ f ∈ fs ++ [.not query], (termModel {a | w a}).Models f := fun f hf v =>
    (holds_termModel_iff (hground f hf) v).mpr (htrue f hf)
  have hsymm : (termModel {a | w a}).SymmetricEq := termModel_symmetricEq hw
  have hclauses := Interpretation.models_clausesOf hsymm (s := s)
    (fun f hf => (hground f hf).quantifiers) hmodels
  exact (sound_searchAfter hsymm strategy hproper hclauses n).result h

end Decision

/-- Resolution decides ground entailment: a search that does all resolutions, in whatever order,
    comes to its end, also when it is executed, and its answer is yes exactly if what was told
    propositionally entails the question. -/
theorem resolution_decides_ground (strategy : Strategy) (haccepts : ∀ r, strategy.accepts r = true)
    (s : Names) (fs : List Formula) (query : Formula)
    (hground : ∀ f ∈ query :: fs, f.IsGround) (hproper : ∀ f ∈ query :: fs, f.Proper) :
    ∃ n b, (b = true ↔ GroundEntails fs query) ∧ ∀ m, n ≤ m →
      (searchAfter strategy s fs query m).1.result = some b ∧
      ((searchAfter strategy s fs query 0).1.execute m (searchAfter strategy s fs query 0).2).1 =
        .ok b := by
  rw [List.forall_mem_cons] at hground hproper
  have hgroundAll : ∀ f ∈ fs ++ [.not query], f.IsGround :=
    List.forall_mem_append.mpr ⟨hground.2, List.forall_mem_singleton.mpr ⟨hground.1.1, hground.1.2⟩⟩
  have hproperAll : ∀ f ∈ fs ++ [.not query], f.Proper :=
    List.forall_mem_append.mpr ⟨hproper.2, List.forall_mem_singleton.mpr hproper.1⟩
  obtain ⟨n, b, hb⟩ := exists_result_searchAfter (s := s) haccepts hgroundAll hproperAll
  have hlater : ∀ m, n ≤ m → (searchAfter strategy s fs query m).1.result = some b := by
    intro m hm
    obtain ⟨k, rfl⟩ := Nat.exists_eq_add_of_le' hm
    have hfixed := Function.iterate_fixed (Refutation.next_of_complete
      (Option.isSome_iff_exists.mpr ⟨b, hb⟩) (searchAfter strategy s fs query n).2) k
    unfold searchAfter at hb ⊢
    rw [Function.iterate_add_apply]
    exact (congrArg (fun x => x.1.result) hfixed).trans hb
  refine ⟨n, b, ?_, fun m hm => ⟨hlater m hm, ?_⟩⟩
  · cases b with
    | true => exact iff_of_true rfl (groundEntails_of_result hgroundAll hproperAll hb)
    | false =>
      exact iff_of_false Bool.false_ne_true
        (not_groundEntails_of_result haccepts hgroundAll hproperAll hb)
  · have hbegun : (searchAfter strategy s fs query 0).1.begun = false :=
      Refutation.begun_start _ _ _ _
    have hresult : (Refutation.next^[m] (searchAfter strategy s fs query 0)).1.result = some b :=
      hlater m hm
    rw [Refutation.execute_eq hbegun, hresult]

instance (f : Formula) : Decidable f.IsGround :=
  decidable_of_iff (f.quantifiers = 0 ∧ ∀ a ∈ f.atoms, a.vars = [])
    ⟨fun h => ⟨h.1, h.2⟩, fun h => ⟨h.1, h.2⟩⟩

/-- One of two things is the case, and the first is denied with its sides turned round. -/
def turnedDenial : List Formula :=
  [.or (.atom (.eq (.const (.num 0)) (.const (.num 1)))) (.atom (.pred (.num 2) [])),
    .not (.atom (.eq (.const (.num 1)) (.const (.num 0))))]

theorem resolution_decides_turnedDenial :
    ∃ n b, (b = true ↔ GroundEntails turnedDenial (.atom (.pred (.num 2) []))) ∧ ∀ m, n ≤ m →
      (searchAfter (StrategyChoice.strategy {}) {} turnedDenial (.atom (.pred (.num 2) []))
        m).1.result = some b ∧
      ((searchAfter (StrategyChoice.strategy {}) {} turnedDenial (.atom (.pred (.num 2) []))
          0).1.execute m (searchAfter (StrategyChoice.strategy {}) {} turnedDenial
            (.atom (.pred (.num 2) [])) 0).2).1 = .ok b :=
  resolution_decides_ground _ (fun _ => rfl) {} turnedDenial _ (by decide) (by decide)

end Clausal
