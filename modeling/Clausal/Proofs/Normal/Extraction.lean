import Clausal.Node.Operation
import Clausal.Proofs.Normal.Scopes

/-!
# Clauses read off with stacks

The clauses of a conjunction of disjunctions can be read off by two loops, one inside the other.  The
outer loop has a stack of formulas to be taken apart at conjunctions; what is no conjunction is handed
to the inner loop, which has a stack of formulas to be taken apart at disjunctions.  The loops stop at
the first formula that is no literal.  What they find are the clauses of the formula, with the error
of the formula if there is one.

A distributed matrix has no conjunction below a disjunction, so no such formula comes up.

## Main definitions

- `Formula.readDisjuncts`, `Formula.readConjuncts`: the two loops
- `Formula.stackWeight`: what drops in every round

## Main statements

- `Formula.readConjuncts_eq`: the loops find the clauses of the formula
- `Formula.kind_ne_conjunction`: no conjunction stands below a disjunction
- `matrix_clauses_exact`
-/

namespace Clausal

universe u

namespace Formula

/-! ## Section 1: The loops -/

/-- The weight of the formulas on a stack, each with one added. -/
def stackWeight : List Formula → Nat
  | [] => 0
  | f :: fs => f.weight + 1 + stackWeight fs

/-- Take the formulas of a stack apart at disjunctions, and add the literals found to `ls`. -/
def readDisjuncts : List Formula → List Literal → Except Formula (List Literal)
  | [], ls => .ok ls
  | .or f g :: ds, ls => readDisjuncts (f :: g :: ds) ls
  | d :: ds, ls =>
    match Literal.ofFormula? d with
    | none => .error d
    | some l => readDisjuncts ds (ls ++ [l])
termination_by ds => stackWeight ds
decreasing_by all_goals simp only [stackWeight, weight]; omega

/-- Take the formulas of a stack apart at conjunctions, and add the clauses found to `cs`. -/
def readConjuncts : List Formula → List Clause → Except Formula (List Clause)
  | [], cs => .ok cs
  | .and f g :: fs, cs => readConjuncts (f :: g :: fs) cs
  | f :: fs, cs =>
    match readDisjuncts [f] [] with
    | .error d => .error d
    | .ok ls => readConjuncts fs (cs ++ [Clause.ofList ls])
termination_by fs => stackWeight fs
decreasing_by all_goals simp only [stackWeight, weight]; omega

/-- The first of several formulas that is no literal. -/
def firstOther (ds : List Formula) : Option Formula :=
  ds.find? fun d => (Literal.ofFormula? d).isNone

private theorem firstOther_append (ds es : List Formula) :
    firstOther (ds ++ es) = (firstOther ds).or (firstOther es) :=
  List.find?_append

private theorem disjuncts_eq_singleton {d : Formula} (h : ∀ f g, d = .or f g → False) :
    d.disjuncts = [d] := by
  cases d with
  | or f g => exact (h f g rfl).elim
  | _ => rfl

private theorem conjuncts_eq_singleton {f : Formula} (h : ∀ g g', f = .and g g' → False) :
    f.conjuncts = [f] := by
  cases f with
  | and g g' => exact (h g g' rfl).elim
  | _ => rfl

/-- The inner loop adds the literals of all formulas on its stack, or stops at the first formula that
    is none. -/
theorem readDisjuncts_eq (ds : List Formula) (ls : List Literal) :
    (firstOther (ds.flatMap disjuncts) = none →
      readDisjuncts ds ls = .ok (ls ++ (ds.flatMap disjuncts).filterMap Literal.ofFormula?)) ∧
    ∀ d, firstOther (ds.flatMap disjuncts) = some d → readDisjuncts ds ls = .error d := by
  fun_induction readDisjuncts ds ls with
  | case1 ls => simp [firstOther]
  | case2 f g ds ls ih =>
    -- the disjuncts of the whole stack stay the same
    simpa only [List.flatMap_cons, disjuncts, List.append_assoc] using ih
  | case3 d ds ls hd hnone =>
    rw [List.flatMap_cons, disjuncts_eq_singleton hd]
    simp [firstOther, hnone]
  | case4 d ds ls hd l hl ih =>
    rw [List.flatMap_cons, disjuncts_eq_singleton hd]
    simpa [firstOther, hl] using ih

/-- The outer loop adds the clauses of all formulas on its stack, or stops at the first formula that is
    no literal. -/
theorem readConjuncts_eq (fs : List Formula) (cs : List Clause) :
    (firstOther ((fs.flatMap conjuncts).flatMap disjuncts) = none →
      readConjuncts fs cs = .ok (cs ++ fs.flatMap clauses)) ∧
    ∀ d, firstOther ((fs.flatMap conjuncts).flatMap disjuncts) = some d →
      readConjuncts fs cs = .error d := by
  fun_induction readConjuncts fs cs with
  | case1 cs => simp [firstOther]
  | case2 f g fs cs ih =>
    simpa only [List.flatMap_cons, conjuncts, clauses, List.map_append, List.append_assoc] using ih
  | case3 f fs cs hf d hd =>
    -- the inner loop has stopped at `d`, so `d` is the first of all
    obtain ⟨hok, herror⟩ := readDisjuncts_eq [f] []
    rw [List.flatMap_singleton, hd] at hok herror
    rw [List.flatMap_cons, conjuncts_eq_singleton hf, List.singleton_append, List.flatMap_cons,
      firstOther_append]
    cases hfirst : firstOther f.disjuncts with
    | none => cases hok hfirst
    | some d' =>
      obtain rfl := Except.error.inj (herror d' hfirst)
      simp
  | case4 f fs cs hf ls hls ih =>
    -- the inner loop has come to its end, so nothing in `f` is in the way
    obtain ⟨hok, herror⟩ := readDisjuncts_eq [f] []
    rw [List.flatMap_singleton, hls] at hok herror
    rw [List.flatMap_cons, conjuncts_eq_singleton hf, List.singleton_append, List.flatMap_cons,
      firstOther_append]
    cases hfirst : firstOther f.disjuncts with
    | none =>
      obtain rfl := Except.ok.inj (hok hfirst)
      simpa [clauses, conjuncts_eq_singleton hf] using ih
    | some d' => cases herror d' hfirst

/-- Started on one formula, the loops find its clauses, or stop at the first formula that keeps it from
    having clauses. -/
theorem readConjuncts_singleton (f : Formula) : readConjuncts [f] [] = f.clauses? := by
  obtain ⟨hok, herror⟩ := readConjuncts_eq [f] []
  rw [List.flatMap_singleton] at hok herror
  -- `clauses?` looks for the same formula, over all disjuncts at once
  cases hfirst : firstOther (f.conjuncts.flatMap disjuncts) with
  | none =>
    rw [hok hfirst, clauses?]
    simp only [firstOther] at hfirst
    rw [hfirst]
    simp
  | some d =>
    rw [herror d hfirst, clauses?]
    simp only [firstOther] at hfirst
    rw [hfirst]

/-! ## Section 2: The shape of distributed formulas -/

/-- A normal form without quantifiers is a matrix. -/
theorem isMatrix_of_isNnf {f : Formula} (hf : f.IsNnf) (hq : f.quantifiers = 0) : f.IsMatrix := by
  induction f with
  | atom a => trivial
  | not f =>
    cases f with
    | atom a => trivial
    | _ => exact hf.elim
  | and f g ihf ihg | or f g ihf ihg =>
    obtain ⟨hqf, hqg⟩ := Nat.add_eq_zero_iff.mp hq
    exact ⟨ihf hf.1 hqf, ihg hf.2 hqg⟩
  | imp f g | iff f g => exact hf.elim
  | all x f | ex x f => cases hq

/-- The parts of an atom are the atom itself and terms. -/
theorem mem_parts_atom {a : Atom} {p : Part} (hp : p ∈ (Formula.atom a).parts) :
    p = .formula (.atom a) ∨ ∃ t, p = .term t := by
  rcases List.mem_cons.mp hp with hp | hp
  · exact Or.inl hp
  · obtain ⟨u, -, hp⟩ := List.mem_flatMap.mp hp
    obtain ⟨t, -, rfl⟩ := List.mem_map.mp hp
    exact Or.inr ⟨t, rfl⟩

/-- The parts of a disjunction of literals are such disjunctions again, down to the atoms, and terms. -/
theorem isDisjunction_or_term_of_mem_parts {f : Formula} (hf : f.IsDisjunction) {p : Part}
    (hp : p ∈ f.parts) : (∃ g : Formula, p = .formula g ∧ g.IsDisjunction) ∨ ∃ t, p = .term t := by
  have hatom {a : Atom} (hp : p ∈ (Formula.atom a).parts) :
      (∃ g : Formula, p = .formula g ∧ g.IsDisjunction) ∨ ∃ t, p = .term t :=
    (mem_parts_atom hp).imp_left fun h => ⟨.atom a, h, trivial⟩
  induction f with
  | atom a => exact hatom hp
  | not f =>
    cases f with
    | atom a =>
      rcases List.mem_cons.mp hp with hp | hp
      · exact Or.inl ⟨_, hp, hf⟩
      · exact hatom hp
    | _ => exact hf.elim
  | or f g ihf ihg =>
    rcases List.mem_cons.mp hp with hp | hp
    · exact Or.inl ⟨_, hp, hf⟩
    · exact (List.mem_append.mp hp).elim (ihf hf.1) (ihg hf.2)
  | and f g | imp f g | iff f g | all x f | ex x f => exact hf.elim

/-- A disjunction of literals has no conjunction among its parts. -/
theorem kind_ne_conjunction {f : Formula} (hf : f.IsDisjunction) {p : Part} (hp : p ∈ f.parts) :
    p.kind ≠ .conjunction := by
  rcases isDisjunction_or_term_of_mem_parts hf hp with ⟨g, rfl, hg⟩ | ⟨t, rfl⟩
  · cases g with
    | and g g' => exact hg.elim
    | _ => exact Kind.noConfusion
  · cases t <;> exact Kind.noConfusion

/-- The disjunctions inside a conjunction of disjunctions of literals are disjunctions of literals. -/
theorem isDisjunction_of_or_mem_parts {f g h : Formula} (hf : f.IsConjunction)
    (hp : Part.formula (.or g h) ∈ f.parts) : (Formula.or g h).IsDisjunction := by
  induction f with
  | and f f' ihf ihf' =>
    rcases List.mem_cons.mp hp with hp | hp
    · cases hp
    · exact (List.mem_append.mp hp).elim (ihf hf.1) (ihf' hf.2)
  | _ =>
    -- `f` is a single disjunction
    rcases isDisjunction_or_term_of_mem_parts hf hp with ⟨g', heq, hg'⟩ | ⟨t, heq⟩
    · cases heq
      exact hg'
    · cases heq

end Formula

/-- Distributing a normal form without quantifiers leaves no conjunction below a disjunction, wherever
    the disjunction stands.  The clauses of the result are found without error, also by the two loops
    with stacks, and where equations are read without direction the normal form is true exactly if
    each of the clauses has a true literal. -/
theorem matrix_clauses_exact {f : Formula} (hf : f.IsNnf) (hq : f.quantifiers = 0) :
    (∀ g h, Part.formula (.or g h) ∈ f.distribute.parts →
      ∀ p ∈ (Formula.or g h).parts, p.kind ≠ .conjunction) ∧
    ∃ cs, (Node.formula f.distribute).clauses = .ok cs ∧
      Formula.readConjuncts [f.distribute] [] = .ok cs ∧
      ∀ (D : Type u) (I : Interpretation D), I.SymmetricEq → ∀ v : Ident → D,
        (I.Holds v f ↔ ∀ c ∈ cs, ∃ l ∈ c.literals, I.HoldsLiteral v l) := by
  have hshape := Formula.isConjunction_distribute (Formula.isMatrix_of_isNnf hf hq)
  have hclauses := Formula.clauses?_eq_ok hshape
  refine ⟨fun g h hp p => ?_, f.distribute.clauses, ?_, ?_, fun D I hI v => ?_⟩
  · exact Formula.kind_ne_conjunction (Formula.isDisjunction_of_or_mem_parts hshape hp)
  · rw [Node.clauses, hclauses]
  · rw [Formula.readConjuncts_singleton, hclauses]
  · exact (I.holds_distribute v f).symm.trans (Interpretation.holds_iff_clauses hI v hshape)

/-- In `(a = b & p) | (b = a & ~q)` the first clause has the equation twice, and once is kept. -/
theorem matrix_clauses_exact_mirrored :
    let a := Term.const (.num 0)
    let b := Term.const (.num 1)
    let p := Formula.atom (.pred (.num 2) [])
    let q := Formula.atom (.pred (.num 3) [])
    let f := Formula.or (.and (.atom (.eq a b)) p) (.and (.atom (.eq b a)) (.not q))
    ∃ cs, (Node.formula f.distribute).clauses = .ok cs ∧ cs.map Clause.size = [1, 2, 2, 2] ∧
      ∀ (I : Interpretation Bool), I.SymmetricEq → ∀ v,
        (I.Holds v f ↔ ∀ c ∈ cs, ∃ l ∈ c.literals, I.HoldsLiteral v l) := by
  intro a b p q f
  have hf : f.IsNnf := ⟨⟨trivial, trivial⟩, trivial, trivial⟩
  obtain ⟨-, cs, hcs, -, htruth⟩ := matrix_clauses_exact hf rfl
  refine ⟨cs, hcs, ?_, htruth Bool⟩
  obtain rfl : f.distribute.clauses = cs := Except.ok.inj hcs
  decide

end Clausal
