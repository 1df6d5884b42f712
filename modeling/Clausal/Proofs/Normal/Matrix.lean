import Clausal.Normal.Matrix
import Clausal.Proofs.Semantics

/-!
# Meaning of the clauses of a matrix

A matrix is built from literals by conjunction and disjunction.  Distribution turns it into a
conjunction of disjunctions of literals without changing its truth, and the clauses read off from
there are all true exactly when the matrix is.

## Main definitions

- `Formula.IsMatrix`, `Formula.IsDisjunction`, `Formula.IsConjunction`

## Main statements

- `Formula.isConjunction_distribute`
- `Interpretation.holds_iff_clauses`
-/

namespace Clausal

universe u

namespace Formula

/-! ## Section 1: Shapes -/

/-- Built from atoms and negated atoms by conjunction and disjunction. -/
def IsMatrix : Formula → Prop
  | .atom _ => True
  | .not (.atom _) => True
  | .and f g | .or f g => f.IsMatrix ∧ g.IsMatrix
  | _ => False

/-- Built from atoms and negated atoms by disjunction. -/
def IsDisjunction : Formula → Prop
  | .atom _ => True
  | .not (.atom _) => True
  | .or f g => f.IsDisjunction ∧ g.IsDisjunction
  | _ => False

/-- Built from disjunctions of literals by conjunction. -/
def IsConjunction : Formula → Prop
  | .and f g => f.IsConjunction ∧ g.IsConjunction
  | f => f.IsDisjunction

theorem isConjunction_orRight {f g : Formula} (hf : f.IsDisjunction) (hg : g.IsConjunction) :
    (orRight f g).IsConjunction := by
  induction g with
  | and g h ihg ihh => exact ⟨ihg hg.1, ihh hg.2⟩
  | _ => exact ⟨hf, hg⟩

private theorem isConjunction_orBoth {f g : Formula} (hf : f.IsConjunction) (hg : g.IsConjunction) :
    (orBoth f g).IsConjunction := by
  induction f with
  | and f h ihf ihh => exact ⟨ihf hf.1, ihh hf.2⟩
  | _ => exact isConjunction_orRight hf hg

/-- Distribution leaves no conjunction below a disjunction. -/
theorem isConjunction_distribute {f : Formula} (hf : f.IsMatrix) :
    f.distribute.IsConjunction := by
  induction f with
  | atom a => trivial
  | not f ih =>
    cases f with
    | atom a => trivial
    | _ => exact hf.elim
  | and f g ihf ihg => exact ⟨ihf hf.1, ihg hf.2⟩
  | or f g ihf ihg => exact isConjunction_orBoth (ihf hf.1) (ihg hf.2)
  | imp f g | iff f g | all x f | ex x f => exact hf.elim

theorem isDisjunction_of_mem_conjuncts {f c : Formula} (hf : f.IsConjunction)
    (hc : c ∈ f.conjuncts) : c.IsDisjunction := by
  induction f with
  | and f g ihf ihg =>
    rcases List.mem_append.mp hc with hc | hc
    · exact ihf hf.1 hc
    · exact ihg hf.2 hc
  | _ => exact List.mem_singleton.mp hc ▸ hf

/-- Every part of a disjunction of literals is a literal. -/
theorem isSome_ofFormula?_of_mem_disjuncts {f d : Formula} (hf : f.IsDisjunction)
    (hd : d ∈ f.disjuncts) : ∃ l, Literal.ofFormula? d = some l := by
  induction f with
  | atom a => exact List.mem_singleton.mp hd ▸ ⟨_, rfl⟩
  | not f =>
    cases f with
    | atom a => exact List.mem_singleton.mp hd ▸ ⟨_, rfl⟩
    | _ => exact hf.elim
  | or f g ihf ihg =>
    rcases List.mem_append.mp hd with hd | hd
    · exact ihf hf.1 hd
    · exact ihg hf.2 hd
  | and f g | imp f g | iff f g | all x f | ex x f => exact hf.elim

theorem conjuncts_ne_nil (f : Formula) : f.conjuncts ≠ [] := by
  induction f with
  | and f g ihf => exact List.append_ne_nil_of_left_ne_nil ihf _
  | _ => exact List.cons_ne_nil _ _

theorem disjuncts_ne_nil (f : Formula) : f.disjuncts ≠ [] := by
  induction f with
  | or f g ihf => exact List.append_ne_nil_of_left_ne_nil ihf _
  | _ => exact List.cons_ne_nil _ _

/-! ## Section 2: Atoms -/

private theorem mem_atoms_orRight {f g : Formula} {a : Atom} (ha : a ∈ (orRight f g).atoms) :
    a ∈ f.atoms ∨ a ∈ g.atoms := by
  induction g with
  | and g h ihg ihh =>
    rcases List.mem_append.mp ha with ha | ha
    · exact (ihg ha).imp id (List.mem_append_left _)
    · exact (ihh ha).imp id (List.mem_append_right _)
  | _ => exact List.mem_append.mp ha

private theorem mem_atoms_orBoth {f g : Formula} {a : Atom} (ha : a ∈ (orBoth f g).atoms) :
    a ∈ f.atoms ∨ a ∈ g.atoms := by
  induction f with
  | and f h ihf ihh =>
    rcases List.mem_append.mp ha with ha | ha
    · exact (ihf ha).imp (List.mem_append_left _) id
    · exact (ihh ha).imp (List.mem_append_right _) id
  | _ => exact mem_atoms_orRight ha

theorem mem_atoms_distribute {f : Formula} {a : Atom} (ha : a ∈ f.distribute.atoms) :
    a ∈ f.atoms := by
  induction f with
  | atom b => exact ha
  | not f ih | all x f ih | ex x f ih => exact ih ha
  | and f g ihf ihg | imp f g ihf ihg | iff f g ihf ihg =>
    exact List.mem_append.mpr ((List.mem_append.mp ha).imp ihf ihg)
  | or f g ihf ihg => exact List.mem_append.mpr ((mem_atoms_orBoth ha).imp ihf ihg)

theorem mem_atoms_orRight_of_mem {f g : Formula} {a : Atom} (ha : a ∈ f.atoms ∨ a ∈ g.atoms) :
    a ∈ (orRight f g).atoms := by
  induction g with
  | and g h ihg ihh =>
    rcases ha with ha | ha
    · exact List.mem_append_left _ (ihg (Or.inl ha))
    · exact List.mem_append.mpr
        ((List.mem_append.mp ha).imp (fun h => ihg (Or.inr h)) fun h => ihh (Or.inr h))
  | _ => exact List.mem_append.mpr ha

theorem mem_atoms_orBoth_of_mem {f g : Formula} {a : Atom} (ha : a ∈ f.atoms ∨ a ∈ g.atoms) :
    a ∈ (orBoth f g).atoms := by
  induction f with
  | and f h ihf ihh =>
    rcases ha with ha | ha
    · exact List.mem_append.mpr
        ((List.mem_append.mp ha).imp (fun h => ihf (Or.inl h)) fun h => ihh (Or.inl h))
    · exact List.mem_append_left _ (ihf (Or.inr ha))
  | _ => exact mem_atoms_orRight_of_mem ha

/-- Distribution loses no atom. -/
theorem mem_atoms_distribute_of_mem {f : Formula} {a : Atom} (ha : a ∈ f.atoms) :
    a ∈ f.distribute.atoms := by
  induction f with
  | atom b => exact ha
  | not f ih | all x f ih | ex x f ih => exact ih ha
  | and f g ihf ihg | imp f g ihf ihg | iff f g ihf ihg =>
    exact List.mem_append.mpr ((List.mem_append.mp ha).imp ihf ihg)
  | or f g ihf ihg =>
    exact mem_atoms_orBoth_of_mem ((List.mem_append.mp ha).imp ihf ihg)

private theorem exists_conjunct_of_mem_atoms {f : Formula} {a : Atom} (ha : a ∈ f.atoms) :
    ∃ c ∈ f.conjuncts, a ∈ c.atoms := by
  induction f with
  | and f g ihf ihg =>
    rcases List.mem_append.mp ha with ha | ha
    · obtain ⟨c, hc, ha⟩ := ihf ha
      exact ⟨c, List.mem_append_left _ hc, ha⟩
    · obtain ⟨c, hc, ha⟩ := ihg ha
      exact ⟨c, List.mem_append_right _ hc, ha⟩
  | _ => exact ⟨_, List.mem_singleton_self _, ha⟩

private theorem exists_literal_of_mem_atoms {f : Formula} (hf : f.IsDisjunction) {a : Atom}
    (ha : a ∈ f.atoms) : ∃ l ∈ f.disjuncts.filterMap Literal.ofFormula?, l.atom = a := by
  induction f with
  | atom b =>
    refine ⟨⟨true, b⟩, ?_, (List.mem_singleton.mp ha).symm⟩
    simp [disjuncts, Literal.ofFormula?]
  | not f =>
    cases f with
    | atom b =>
      exact ⟨⟨false, b⟩, by simp [disjuncts, Literal.ofFormula?], (List.mem_singleton.mp ha).symm⟩
    | _ => exact hf.elim
  | or f g ihf ihg =>
    rw [disjuncts, List.filterMap_append]
    rcases List.mem_append.mp ha with ha | ha
    · obtain ⟨l, hl, hla⟩ := ihf hf.1 ha
      exact ⟨l, List.mem_append_left _ hl, hla⟩
    · obtain ⟨l, hl, hla⟩ := ihg hf.2 ha
      exact ⟨l, List.mem_append_right _ hl, hla⟩
  | and f g | imp f g | iff f g | all x f | ex x f => exact hf.elim

/-- Every atom of a conjunction of disjunctions of literals is in its clauses, up to the order of
    sides. -/
theorem exists_mem_clauses_of_mem_atoms {f : Formula} (hf : f.IsConjunction) {a : Atom}
    (ha : a ∈ f.atoms) : ∃ c ∈ f.clauses, ∃ l ∈ c.literals, (l.atom == a) = true := by
  obtain ⟨c, hc, ha⟩ := exists_conjunct_of_mem_atoms ha
  obtain ⟨l, hl, rfl⟩ := exists_literal_of_mem_atoms (isDisjunction_of_mem_conjuncts hf hc) ha
  refine ⟨_, List.mem_map_of_mem hc, ?_⟩
  refine (exists_mem_dedup (p := fun m : Literal => (m.atom == l.atom) = true) ?_ _).mpr
    ⟨l, hl, BEq.rfl⟩
  exact fun m m' hm hm' => BEq.trans (Literal.beq_iff.mp hm).1 hm'

private theorem mem_atoms_of_mem_conjuncts {f c : Formula} (hc : c ∈ f.conjuncts) {a : Atom}
    (ha : a ∈ c.atoms) : a ∈ f.atoms := by
  induction f with
  | and f g ihf ihg =>
    exact List.mem_append.mpr ((List.mem_append.mp hc).imp ihf ihg)
  | _ => exact List.mem_singleton.mp hc ▸ ha

private theorem mem_atoms_of_mem_disjuncts {f d : Formula} (hd : d ∈ f.disjuncts) {a : Atom}
    (ha : a ∈ d.atoms) : a ∈ f.atoms := by
  induction f with
  | or f g ihf ihg =>
    exact List.mem_append.mpr ((List.mem_append.mp hd).imp ihf ihg)
  | _ => exact List.mem_singleton.mp hd ▸ ha

/-- The literals of the clauses of a formula are about its atoms. -/
theorem atom_mem_atoms_of_mem_clauses {f : Formula} {c : Clause} (hc : c ∈ f.clauses) {l : Literal}
    (hl : l ∈ c.literals) : l.atom ∈ f.atoms := by
  obtain ⟨e, he, rfl⟩ := List.mem_map.mp hc
  obtain ⟨d, hd, hdl⟩ := List.mem_filterMap.mp (mem_of_mem_dedup hl)
  refine mem_atoms_of_mem_conjuncts he (mem_atoms_of_mem_disjuncts hd ?_)
  cases d with
  | atom a =>
    cases hdl
    exact List.mem_singleton_self a
  | not d =>
    cases d with
    | atom a =>
      cases hdl
      exact List.mem_singleton_self a
    | _ => cases hdl
  | _ => cases hdl

end Formula

/-! ## Section 3: Truth -/

namespace Interpretation

variable {D : Type u} (I : Interpretation D)

private theorem holds_orRight (v : Ident → D) (f g : Formula) :
    I.Holds v (Formula.orRight f g) ↔ I.Holds v f ∨ I.Holds v g := by
  induction g with
  | and g h ihg ihh =>
    simp only [Formula.orRight, Holds, ihg, ihh]
    exact or_and_left.symm
  | _ => exact Iff.rfl

private theorem holds_orBoth (v : Ident → D) (f g : Formula) :
    I.Holds v (Formula.orBoth f g) ↔ I.Holds v f ∨ I.Holds v g := by
  induction f with
  | and f h ihf ihh =>
    simp only [Formula.orBoth, Holds, ihf, ihh]
    exact and_or_right.symm
  | _ => exact I.holds_orRight v _ g

theorem holds_distribute (v : Ident → D) (f : Formula) :
    I.Holds v f.distribute ↔ I.Holds v f := by
  induction f generalizing v with
  | atom a => exact Iff.rfl
  | not f ih => exact not_congr (ih v)
  | and f g ihf ihg => exact and_congr (ihf v) (ihg v)
  | or f g ihf ihg => exact (I.holds_orBoth v _ _).trans (or_congr (ihf v) (ihg v))
  | imp f g ihf ihg => exact imp_congr (ihf v) (ihg v)
  | iff f g ihf ihg => exact iff_congr (ihf v) (ihg v)
  | all x f ih => exact forall_congr' fun d => ih _
  | ex x f ih => exact exists_congr fun d => ih _

private theorem holds_iff_conjuncts (v : Ident → D) (f : Formula) :
    I.Holds v f ↔ ∀ c ∈ f.conjuncts, I.Holds v c := by
  induction f with
  | and f g ihf ihg => simp only [Formula.conjuncts, Holds, ihf, ihg, List.forall_mem_append]
  | _ => simp [Formula.conjuncts]

private theorem holds_iff_disjuncts (v : Ident → D) (f : Formula) :
    I.Holds v f ↔ ∃ d ∈ f.disjuncts, I.Holds v d := by
  induction f with
  | or f g ihf ihg =>
    simp only [Formula.disjuncts, Holds, ihf, ihg, List.mem_append, or_and_right, exists_or]
  | _ => simp [Formula.disjuncts]

private theorem holdsLiteral_of_ofFormula? (v : Ident → D) {f : Formula} {l : Literal}
    (h : Literal.ofFormula? f = some l) : I.HoldsLiteral v l ↔ I.Holds v f := by
  cases f with
  | atom a =>
    cases h
    simp [HoldsLiteral, Holds]
  | not f =>
    cases f with
    | atom a =>
      cases h
      simp [HoldsLiteral, Holds]
    | _ => cases h
  | _ => cases h

variable {I}

/-- A conjunction of disjunctions of literals is true exactly when all of its clauses are. -/
theorem holds_iff_clauses (hI : I.SymmetricEq) (v : Ident → D) {f : Formula}
    (hf : f.IsConjunction) : I.Holds v f ↔ ∀ c ∈ f.clauses, I.HoldsClause v c := by
  rw [I.holds_iff_conjuncts v f, Formula.clauses, List.forall_mem_map]
  refine forall₂_congr fun c hc => ?_
  have hlits := Formula.isDisjunction_of_mem_conjuncts hf hc
  rw [holdsClause_ofList hI, I.holds_iff_disjuncts v c]
  constructor
  · rintro ⟨d, hd, hv⟩
    obtain ⟨l, hl⟩ := Formula.isSome_ofFormula?_of_mem_disjuncts hlits hd
    exact ⟨l, List.mem_filterMap.mpr ⟨d, hd, hl⟩, (I.holdsLiteral_of_ofFormula? v hl).mpr hv⟩
  · rintro ⟨l, hl, hv⟩
    obtain ⟨d, hd, hl⟩ := List.mem_filterMap.mp hl
    exact ⟨d, hd, (I.holdsLiteral_of_ofFormula? v hl).mp hv⟩

/-- The clauses of a distributed matrix are true under all valuations exactly when the matrix is. -/
theorem models_iff_clauses (hI : I.SymmetricEq) {f : Formula} (hf : f.IsMatrix) :
    I.Models f ↔ ∀ c ∈ (Cnf.ofList f.distribute.clauses).clauses, I.ModelsClause c := by
  have hv (v : Ident → D) : I.Holds v f ↔ ∀ c ∈ f.distribute.clauses, I.HoldsClause v c := by
    rw [← I.holds_distribute, holds_iff_clauses hI v (Formula.isConjunction_distribute hf)]
  rw [Cnf.ofList, modelsClause_dedup hI]
  exact ⟨fun h c hc v => (hv v).mp (h v) c hc, fun h v => (hv v).mpr fun c hc => h c hc v⟩

end Interpretation

end Clausal
