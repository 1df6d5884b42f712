import Clausal.Proofs.Normal.Cnf

/-!
# Positive literals of the clauses of a formula

How many positive literals the clauses of a formula have can be read off the formula: atoms below an
even number of negations give positive literals, conjunctions put clauses side by side, and a
disjunction joins every clause of one part with every clause of the other.  Fresh names and
quantifiers have no bearing on it.

## Main definitions

- `Formula.positiveCounts`: the number of positive literals of each clause

## Main statements

- `Formula.isDefinite_of_positiveCounts`: a formula all of whose clauses are definite
-/

namespace Clausal

/-- The sums of an element of one list and one of the other. -/
def pairSums (ms ns : List Nat) : List Nat :=
  ms.flatMap fun m => ns.map (m + ·)

namespace Formula

/-! ## Section 1: Counting on the formula -/

/-- The numbers of positive literals of the clauses of a formula (`true`) or of its negation
    (`false`), in order and before repetitions are dropped. -/
@[simp]
def positiveCounts : Bool → Formula → List Nat
  | true, .atom _ => [1]
  | false, .atom _ => [0]
  | b, .not f => f.positiveCounts (!b)
  | true, .and f g => f.positiveCounts true ++ g.positiveCounts true
  | false, .and f g => pairSums (f.positiveCounts false) (g.positiveCounts false)
  | true, .or f g => pairSums (f.positiveCounts true) (g.positiveCounts true)
  | false, .or f g => f.positiveCounts false ++ g.positiveCounts false
  | true, .imp f g => pairSums (f.positiveCounts false) (g.positiveCounts true)
  | false, .imp f g => f.positiveCounts true ++ g.positiveCounts false
  | true, .iff f g =>
    pairSums (f.positiveCounts false) (g.positiveCounts true) ++
      pairSums (g.positiveCounts false) (f.positiveCounts true)
  | false, .iff f g =>
    pairSums (f.positiveCounts true ++ g.positiveCounts false)
      (g.positiveCounts true ++ f.positiveCounts false)
  | b, .all _ f => f.positiveCounts b
  | b, .ex _ f => f.positiveCounts b

variable {f g : Formula}

private theorem positiveCounts_standardiseFrom (origin : Option Nat) (n : Nat) (ρ : Ident → Ident)
    (b : Bool) : (f.standardiseFrom origin n ρ).positiveCounts b = f.positiveCounts b := by
  induction f generalizing n ρ b with
  | not f ih => simp [standardiseFrom, ih]
  | all x f ih | ex x f ih => cases b <;> simp [standardiseFrom, ih]
  | atom a => cases b <;> rfl
  | _ f g ihf ihg => cases b <;> simp [standardiseFrom, ihf, ihg]

private theorem positiveCounts_nnfAs_eliminate (b : Bool) :
    (f.eliminate.nnfAs b).positiveCounts true = f.positiveCounts b := by
  induction f generalizing b with
  | atom a => cases b <;> rfl
  | not f ih => simp [eliminate, nnfAs, ih]
  | all x f ih | ex x f ih => cases b <;> simp [eliminate, nnfAs, ih]
  | _ f g ihf ihg => cases b <;> simp [eliminate, nnfAs, ihf, ihg]

private theorem positiveCounts_skolemiseFrom (origin : Option Nat) (n : Nat) (us : List Term)
    (θ : Ident → Term) (b : Bool) :
    (f.skolemiseFrom origin n us θ).positiveCounts b = f.positiveCounts b := by
  induction f generalizing n us θ b with
  | atom a => cases b <;> rfl
  | not f ih => simp [skolemiseFrom, ih]
  | all x f ih | ex x f ih => cases b <;> simp [skolemiseFrom, ih]
  | _ f g ihf ihg => cases b <;> simp [skolemiseFrom, ihf, ihg]

private theorem positiveCounts_dropUniversals (b : Bool) :
    f.dropUniversals.positiveCounts b = f.positiveCounts b := by
  induction f generalizing b with
  | atom a => cases b <;> rfl
  | not f ih => simp [dropUniversals, ih]
  | all x f ih | ex x f ih => cases b <;> simp [dropUniversals, ih]
  | _ f g ihf ihg => cases b <;> simp [dropUniversals, ihf, ihg]

/-! ## Section 2: Counting in the clauses -/

/-- The number of positive literals of a disjunction. -/
def positives (f : Formula) : Nat :=
  (f.disjuncts.filterMap Literal.ofFormula?).countP (·.positive)

@[simp]
theorem positives_or (f g : Formula) : (Formula.or f g).positives = f.positives + g.positives := by
  simp [positives, disjuncts]

theorem conjuncts_orRight (f g : Formula) : (orRight f g).conjuncts = g.conjuncts.map (.or f) := by
  induction g with
  | and g h ihg ihh => simp [orRight, conjuncts, ihg, ihh]
  | _ => rfl

private theorem conjuncts_orBoth (f g : Formula) :
    (orBoth f g).conjuncts = f.conjuncts.flatMap fun c => g.conjuncts.map (.or c) := by
  induction f with
  | and f h ihf ihh => simp [orBoth, conjuncts, ihf, ihh]
  | _ => simp [orBoth, conjuncts, conjuncts_orRight]

private theorem map_positives_conjuncts (hf : f.IsMatrix) :
    f.distribute.conjuncts.map positives = f.positiveCounts true := by
  induction f with
  | atom a => rfl
  | not f =>
    cases f with
    | atom a => rfl
    | _ => exact hf.elim
  | and f g ihf ihg => simp [distribute, conjuncts, ihf hf.1, ihg hf.2]
  | or f g ihf ihg =>
    rw [positiveCounts, ← ihf hf.1, ← ihg hf.2, distribute, conjuncts_orBoth]
    simp [pairSums, List.map_flatMap, List.flatMap_map, Function.comp_def]
  | imp f g | iff f g | all x f | ex x f => exact hf.elim

private theorem positiveCounts_matrix (s : Names) (f : Formula) :
    (f.matrix s).positiveCounts true = f.positiveCounts true := by
  rw [matrix, matrixAs, positiveCounts_dropUniversals, positiveCounts_skolemiseFrom,
    positiveCounts_nnfAs_eliminate]
  exact positiveCounts_standardiseFrom _ _ _ _

/-- A clause that is made from one positive literal, whatever the negative ones, is definite. -/
theorem isDefinite_ofList {ls : List Literal} (h : ls.countP (·.positive) = 1) :
    (Clause.ofList ls).isDefinite = true := by
  rw [List.countP_eq_length_filter, List.length_eq_one_iff] at h
  obtain ⟨l, hl⟩ := h
  have hpositives : (Clause.ofList ls).positives = [l] := by
    show (dedup ls).filter (·.positive) = [l]
    rw [filter_dedup fun a b hab => (Literal.beq_iff.mp hab).2, hl]
    rfl
  simp [Clause.isDefinite, hpositives]

/-- If one positive literal is counted for each clause, then all clauses are definite. -/
theorem isDefinite_of_positiveCounts (h : ∀ n ∈ f.positiveCounts true, n = 1) (s : Names) :
    ∀ c ∈ (f.toCnf s).1.clauses, c.isDefinite = true := by
  intro c hc
  rw [toCnf_eq] at hc
  obtain ⟨d, hd, rfl⟩ := List.mem_map.mp (mem_of_mem_dedup hc)
  apply isDefinite_ofList
  apply h
  have hmatrix : (f.matrix s).IsMatrix := isMatrix_matrixAs _ _ _ _ _ _
  rw [← positiveCounts_matrix s f, ← map_positives_conjuncts hmatrix]
  exact List.mem_map.mpr ⟨d, hd, rfl⟩

end Formula

end Clausal
