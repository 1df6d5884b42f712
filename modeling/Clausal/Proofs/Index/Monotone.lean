import Clausal.Proofs.Index.Feature

/-!
# What features measure

The magnitudes of a clause's vectors are what their names say: how often a symbol occurs in the
literals of one sign, and the greatest depth at which it does.  Both are said here by recursion on
terms, without vectors, and are found to be what the vectors have.  A clause that subsumes another
has no greater magnitude for any feature, unless literals merge in the case of counts.

## Main definitions

- `Term.tally`, `Literal.tally`, `Clause.tally`: the occurrences of a symbol
- `Term.OccursAt`, `Literal.OccursAt`, `Clause.OccursAt`: the depths of a symbol

## Main statements

- `Clause.magnitude_occurrences_eq_tally`
- `Clause.le_magnitude_symbolDepths`, `Clause.occursAt_magnitude_symbolDepths`
- `features_monotone`: magnitudes along subsumption
-/

namespace Clausal

/-! ## Section 1: Counting occurrences -/

mutual

/-- How often a symbol occurs in a term. -/
def Term.tally (x : Ident) : Term → Nat
  | .var _ => 0
  | .const c => if c = x then 1 else 0
  | .app f ts => (if f = x then 1 else 0) + Term.tallyList x ts

/-- How often a symbol occurs in several terms. -/
def Term.tallyList (x : Ident) : List Term → Nat
  | [] => 0
  | t :: ts => Term.tally x t + Term.tallyList x ts

end

/-- How often a symbol occurs in a literal; the literal itself counts for the null name. -/
def Literal.tally (x : Ident) (l : Literal) : Nat :=
  (if .null = x then 1 else 0) +
    ((if l.atom.symbol = x then 1 else 0) + Term.tallyList x l.atom.args)

/-- How often a symbol occurs in the literals of one sign. -/
def Clause.tally (f : Feature) (c : Clause) : Nat :=
  c.literals.foldr (fun l n => (if l.positive = f.positive then l.tally f.symbol else 0) + n) 0

theorem Term.tallyList_eq_count {x : Ident} {ts : List Term}
    (h : ∀ t ∈ ts, Term.tally x t = (t.subterms.filterMap Term.symbol?).count x) :
    Term.tallyList x ts = ((ts.flatMap Term.subterms).filterMap Term.symbol?).count x := by
  induction ts with
  | nil => rfl
  | cons t ts ih =>
    obtain ⟨ht, hts⟩ := List.forall_mem_cons.mp h
    rw [tallyList, ht, ih hts, List.flatMap_cons, List.filterMap_append, List.count_append]

private theorem Term.tally_eq_count (x : Ident) (t : Term) :
    Term.tally x t = (t.subterms.filterMap Term.symbol?).count x := by
  induction t using Term.induction with
  | var y => rfl
  | const c => simp [tally, subterms, symbol?, List.count_cons]
  | app f ts ih =>
    have hcons : (Term.app f ts).subterms.filterMap symbol? =
        f :: (ts.flatMap subterms).filterMap symbol? := by
      rw [subterms, subtermsList_eq_flatMap]
      rfl
    rw [tally, tallyList_eq_count ih, hcons, List.count_cons, Nat.add_comm]
    simp

private theorem Literal.tally_eq_count (f : Feature) (l : Literal) :
    (if l.positive = f.positive then l.tally f.symbol else 0) = l.features.count f := by
  obtain ⟨x, p⟩ := f
  by_cases hsign : l.positive = p
  · have hinj : Function.Injective fun s => Feature.mk s l.positive :=
      fun s s' h => congrArg Feature.symbol h
    rw [if_pos hsign, ← hsign, features, List.count_map_of_injective _ _ hinj, symbols,
      List.count_cons, List.count_cons, tally,
      Term.tallyList_eq_count fun t _ => t.tally_eq_count x]
    simp only [beq_iff_eq]
    omega
  · rw [if_neg hsign]
    refine (List.count_eq_zero.mpr fun hmem => hsign ?_).symm
    obtain ⟨s, -, heq⟩ := List.mem_map.mp hmem
    exact congrArg Feature.positive heq

/-- The magnitude of a count is the number of occurrences. -/
theorem Clause.magnitude_occurrences_eq_tally (f : Feature) (c : Clause) :
    magnitude f c.occurrences = c.tally f := by
  rw [magnitude_occurrences, tally]
  induction c.literals with
  | nil => rfl
  | cons l ls ih =>
    rw [List.flatMap_cons, List.count_append, ih, List.foldr_cons, Literal.tally_eq_count]

/-! ## Section 2: Depths of occurrences -/

/-- A symbol occurs in a term at a depth; the term itself is at depth zero. -/
inductive Term.OccursAt (x : Ident) : Nat → Term → Prop
  | const : OccursAt x 0 (.const x)
  | head {ts : List Term} : OccursAt x 0 (.app x ts)
  | arg {n : Nat} {f : Ident} {ts : List Term} {t : Term} (ht : t ∈ ts) (h : OccursAt x n t) :
      OccursAt x (n + 1) (.app f ts)

/-- A symbol occurs in a literal at a depth; the predicate is at depth one, and so the arguments are
    at depth two. -/
def Literal.OccursAt (x : Ident) (n : Nat) (l : Literal) : Prop :=
  (n = 1 ∧ l.atom.symbol = x) ∨ ∃ t ∈ l.atom.args, ∃ m, t.OccursAt x m ∧ n = m + 2

/-- A symbol occurs at a depth in a literal of one sign. -/
def Clause.OccursAt (f : Feature) (n : Nat) (c : Clause) : Prop :=
  ∃ l ∈ c.literals, l.positive = f.positive ∧ l.OccursAt f.symbol n

private theorem Term.mem_symbolDepths {x : Ident} {d n : Nat} {t : Term} :
    (x, n) ∈ Term.symbolDepths d t ↔ ∃ m, t.OccursAt x m ∧ n = m + d := by
  induction t using Term.induction generalizing d with
  | var y =>
    refine ⟨fun h => absurd h List.not_mem_nil, ?_⟩
    rintro ⟨m, h, -⟩
    cases h
  | const c =>
    rw [symbolDepths, List.mem_singleton, Prod.mk.injEq]
    constructor
    · rintro ⟨rfl, rfl⟩
      exact ⟨0, .const, (Nat.zero_add _).symm⟩
    · rintro ⟨m, h, rfl⟩
      cases h
      exact ⟨rfl, Nat.zero_add _⟩
  | app f ts ih =>
    rw [symbolDepths, symbolDepthsList_eq_flatMap, List.mem_cons, Prod.mk.injEq, List.mem_flatMap]
    constructor
    · rintro (⟨rfl, rfl⟩ | ⟨t, ht, hmem⟩)
      · exact ⟨0, .head, (Nat.zero_add _).symm⟩
      · obtain ⟨m, h, rfl⟩ := (ih t ht).mp hmem
        exact ⟨m + 1, .arg ht h, by omega⟩
    · rintro ⟨m, h, rfl⟩
      cases h with
      | head => exact Or.inl ⟨rfl, Nat.zero_add _⟩
      | arg ht h => exact Or.inr ⟨_, ht, (ih _ ht).mpr ⟨_, h, by omega⟩⟩

private theorem Literal.mem_depths {f : Feature} {n : Nat} {l : Literal} :
    (f, n) ∈ l.depths ↔ l.positive = f.positive ∧ l.OccursAt f.symbol n := by
  obtain ⟨x, p⟩ := f
  have hargs : (x, n) ∈ Term.symbolDepthsList 2 l.atom.args ↔
      ∃ t ∈ l.atom.args, ∃ m, t.OccursAt x m ∧ n = m + 2 := by
    rw [Term.symbolDepthsList_eq_flatMap, List.mem_flatMap]
    simp only [Term.mem_symbolDepths]
  rw [depths, List.mem_map]
  constructor
  · rintro ⟨⟨y, k⟩, hmem, heq⟩
    obtain ⟨⟨rfl, rfl⟩, rfl⟩ := by simpa using heq
    refine ⟨rfl, (List.mem_cons.mp hmem).imp (fun hhead => ?_) hargs.mp⟩
    obtain ⟨rfl, rfl⟩ := Prod.mk.inj hhead
    exact ⟨rfl, rfl⟩
  · rintro ⟨rfl, hoccurs⟩
    refine ⟨(x, n), List.mem_cons.mpr (hoccurs.imp ?_ hargs.mpr), rfl⟩
    rintro ⟨rfl, rfl⟩
    rfl

theorem Clause.mem_flatMap_depths {f : Feature} {n : Nat} {c : Clause} :
    (f, n) ∈ c.literals.flatMap Literal.depths ↔ c.OccursAt f n := by
  simp only [List.mem_flatMap, Literal.mem_depths, OccursAt]

/-- The magnitude of a depth is an upper bound of the depths at which the symbol occurs. -/
theorem Clause.le_magnitude_symbolDepths {f : Feature} {n : Nat} {c : Clause}
    (h : c.OccursAt f n) : n ≤ magnitude f c.symbolDepths :=
  ((magnitude_foldl_max_le f (c.literals.flatMap Literal.depths) [] _).mp (Nat.le_refl _)).2 (f, n)
    (mem_flatMap_depths.mpr h) rfl

/-- The symbol occurs at the depth that is its magnitude. -/
theorem Clause.occursAt_magnitude_symbolDepths {f : Feature} {c : Clause}
    (h : magnitude f c.symbolDepths ≠ 0) : c.OccursAt f (magnitude f c.symbolDepths) := by
  by_contra hnot
  -- otherwise a smaller number would be a bound
  have hle : magnitude f c.symbolDepths ≤ magnitude f c.symbolDepths - 1 := by
    refine (magnitude_foldl_max_le f (c.literals.flatMap Literal.depths) [] _).mpr
      ⟨Nat.zero_le _, fun e he hef => ?_⟩
    subst hef
    have hoccurs : c.OccursAt e.1 e.2 := mem_flatMap_depths.mp he
    have hbound := le_magnitude_symbolDepths hoccurs
    have hne : e.2 ≠ magnitude e.1 c.symbolDepths := fun heq => hnot (heq ▸ hoccurs)
    omega
  omega

/-! ## Section 3: Subsumption -/

/-- A clause that subsumes another has no greater depth for any feature, and no greater count unless
    two of its literals are unifiable.  A depth is the greatest one at which the symbol occurs in
    the literals of the sign, and a count is the number of its occurrences there. -/
theorem features_monotone (c d : Clause) (h : c.subsumes d = true) :
    (∀ e ∈ c.symbolDepths, e.2 ≤ magnitude e.1 d.symbolDepths) ∧
      (c.Proper → c.hasUnifiableLiterals = false →
        ∀ e ∈ c.occurrences, e.2 ≤ magnitude e.1 d.occurrences) ∧
      ∀ (b : Clause) (f : Feature), magnitude f b.occurrences = b.tally f ∧
        (∀ n, b.OccursAt f n → n ≤ magnitude f b.symbolDepths) ∧
        (magnitude f b.symbolDepths ≠ 0 → b.OccursAt f (magnitude f b.symbolDepths)) := by
  refine ⟨fun e he => ?_, fun hc hmerge e he => ?_, fun b f => ?_⟩
  · have hle := Clause.dominates_symbolDepths h e.1
    rwa [magnitude_eq_of_mem (FeatureScheme.lawful_symbolDepths.nodup c) he] at hle
  · have hle := Clause.dominates_occurrences hc.uniform hmerge h e.1
    rwa [magnitude_eq_of_mem (FeatureScheme.lawful_occurrences.nodup c) he] at hle
  · exact ⟨b.magnitude_occurrences_eq_tally f, fun n => Clause.le_magnitude_symbolDepths,
      Clause.occursAt_magnitude_symbolDepths⟩

/-- The literals `p(x, f(y))` and `¬p(y, x)`. -/
def crossed (x y : Term) : List Literal :=
  [⟨true, .pred (.num 0) [x, .app (.num 1) [y]]⟩, ⟨false, .pred (.num 0) [y, x]⟩]

/-- With an equation in which the sides of the instance are exchanged. -/
theorem features_monotone_crossed :
    let c := Clause.ofList (crossed (.var (.num 2)) (.var (.num 3)) ++
      [⟨true, .eq (.var (.num 2)) (.var (.num 3))⟩])
    let d := Clause.ofList (crossed (.const (.num 4)) (.app (.num 1) [.const .null]) ++
      [⟨true, .pred (.num 5) []⟩, ⟨true, .eq (.app (.num 1) [.const .null]) (.const (.num 4))⟩])
    c.subsumes d = true ∧ c.Proper ∧ c.hasUnifiableLiterals = false ∧
      (∀ e ∈ c.symbolDepths, e.2 ≤ magnitude e.1 d.symbolDepths) ∧
      ∀ e ∈ c.occurrences, e.2 ≤ magnitude e.1 d.occurrences := by
  intro c d
  have h : c.subsumes d = true := by decide +kernel
  have hc : c.Proper := by decide +kernel
  have hmerge : c.hasUnifiableLiterals = false := by decide +kernel
  obtain ⟨hdepths, hcounts, -⟩ := features_monotone c d h
  exact ⟨h, hc, hmerge, hdepths, hcounts hc hmerge⟩

end Clausal
