import Clausal.Axioms.Equality
import Clausal.Proofs.Semantics

/-!
# What a layer with axioms of equality tells

A layer tells the knowledge base inside it the first axioms, everything that it is told itself, and
axioms of the symbols that it meets.  It notes a symbol when it tells its axiom, for the number of
arguments that the symbol is met with first.  If every symbol is used with one number of arguments,
the axioms of all symbols are told.

## Main definitions

- `Formula.predicateArities`, `Formula.functionArities`, `UniformArity`: how symbols are used
- `Part.congruence?`: the axiom of a symbol, whether it is due or not
- `EqualityLayer.toldInside`: what is told to the knowledge base inside a layer

## Main statements

- `Formula.atom_mem_parts`, `Formula.app_mem_parts`: every symbol of a formula is met
- `EqualityLayer.Heard.meet`: the axiom of a symbol that is met has been told afterwards
- `EqualityLayer.mem_toldInside`: what has been told in the end
-/

namespace Clausal

/-! ## Section 1: Symbols and their arguments -/

/-- The predicate symbols of a formula with their numbers of arguments; equations count as atoms of
    the symbol of equality. -/
def Formula.predicateArities (f : Formula) : List (Ident × Nat) :=
  f.atoms.map fun a => (a.symbol, a.args.length)

/-- The outermost function symbol of a term with its number of arguments. -/
def Term.functionArity? : Term → Option (Ident × Nat)
  | .app f ts => some (f, ts.length)
  | _ => none

/-- The function symbols of a formula with their numbers of arguments. -/
def Formula.functionArities (f : Formula) : List (Ident × Nat) :=
  f.atoms.flatMap fun a => a.args.flatMap fun t => t.subterms.filterMap Term.functionArity?

/-- No symbol has two numbers of arguments. -/
def OneArity (arities : List (Ident × Nat)) : Prop :=
  ∀ x ∈ arities, ∀ y ∈ arities, x.1 = y.1 → x.2 = y.2

instance (arities : List (Ident × Nat)) : Decidable (OneArity arities) :=
  inferInstanceAs (Decidable (∀ x ∈ arities, ∀ y ∈ arities, x.1 = y.1 → x.2 = y.2))

/-- Formulas use every predicate symbol with one number of arguments, and every function symbol. -/
structure UniformArity (fs : List Formula) : Prop where
  predicates : OneArity (fs.flatMap Formula.predicateArities)
  functions : OneArity (fs.flatMap Formula.functionArities)

namespace Formula

variable {f : Formula}

private theorem term_mem_parts_atom {a : Atom} {t : Term} :
    Part.term t ∈ (Formula.atom a).parts ↔ ∃ u ∈ a.args, t ∈ u.subterms := by
  simp [parts, Term.parts]

/-- Every atom of a formula is met. -/
theorem atom_mem_parts {a : Atom} : Part.formula (.atom a) ∈ f.parts ↔ a ∈ f.atoms := by
  induction f with
  | atom b => simp [parts, Term.parts, atoms]
  | not f ih => simp [parts, atoms, ih]
  | and f g ihf ihg | or f g ihf ihg | imp f g ihf ihg | iff f g ihf ihg =>
    simp [parts, atoms, ihf, ihg]
  | all x f ih | ex x f ih => simp [parts, atoms, ih]

/-- Every function symbol of a formula is met. -/
theorem app_mem_parts {g : Ident} {ts : List Term} :
    Part.term (.app g ts) ∈ f.parts ↔ ∃ a ∈ f.atoms, ∃ u ∈ a.args, Term.app g ts ∈ u.subterms := by
  induction f with
  | atom b => simp [term_mem_parts_atom, atoms]
  | not f ih => simp [parts, atoms, ih]
  | and f g ihf ihg | or f g ihf ihg | imp f g ihf ihg | iff f g ihf ihg =>
    simp [parts, atoms, ihf, ihg, or_and_right, exists_or]
  | all x f ih | ex x f ih => simp [parts, atoms, ih]

end Formula

/-- The axiom of the symbol of a part, whether it is due or not. -/
def Part.congruence? : Part → Option Formula
  | .formula (.atom a) =>
    if a.symbol = .equality ∨ a.args = [] then none
    else some (predicateCongruence a.symbol a.args.length)
  | .term (.app f ts) => if ts = [] then none else some (functionCongruence f ts.length)
  | _ => none

/-! ## Section 2: What is told -/

/-- Computations that never fail, one after the other, change a knowledge base step by step. -/
theorem Telling.forM_eq {κ α : Type} {g : α → Telling κ Unit} {step : κ → α → κ}
    (h : ∀ a k s, g a (k, s) = (.ok (), (step k a, s))) (l : List α) (k : κ) (s : Names) :
    (l.forM g : Telling κ Unit) (k, s) = (.ok (), (l.foldl step k, s)) := by
  induction l generalizing k with
  | nil => rfl
  | cons a l ih =>
    show ExceptT.bindCont (fun _ => (l.forM g : Telling κ Unit)) (g a (k, s)).1 (g a (k, s)).2 = _
    rw [h]
    exact ih (step k a)

namespace EqualityLayer

/-- The layer after a part of a formula has been met. -/
def meet (l : EqualityLayer Record) (p : Part) : EqualityLayer Record :=
  match l.due? p with
  | none => l
  | some (f, l) => { l with inner := ⟨l.inner.told ++ [.formula f]⟩ }

/-- The layer after it has been told a formula. -/
def hear (l : EqualityLayer Record) (f : Formula) : EqualityLayer Record :=
  f.parts.foldl meet { l with inner := ⟨l.inner.told ++ [.formula f]⟩ }

private theorem visit_eq (p : Part) (l : EqualityLayer Record) (s : Names) :
    (visit p : Telling (EqualityLayer Record) Unit) (l, s) = (.ok (), (l.meet p, s)) := by
  have hget : ∀ g : EqualityLayer Record × Names → Telling (EqualityLayer Record) Unit,
      (get >>= g) (l, s) = g (l, s) (l, s) := fun _ => rfl
  unfold visit meet
  rw [hget]
  dsimp only
  cases l.due? p <;> rfl

private theorem tell_eq (f : Formula) (l : EqualityLayer Record) (s : Names) :
    (KnowledgeBase.tell (.formula f) : Telling (EqualityLayer Record) Unit) (l, s) =
      (.ok (), (l.hear f, s)) :=
  Telling.forM_eq visit_eq f.parts _ s

/-- What a fresh layer tells the knowledge base inside it when it is told formulas. -/
def toldInside (s : Names) (fs : List Formula) : List Node :=
  let (_, created) := (create : Telling Record Unit) ({}, s)
  let (_, layer) := (Telling.tellAll (fs.map .formula) : Telling (EqualityLayer Record) Unit)
    ({ inner := created.1 }, created.2)
  layer.1.inner.told

private theorem toldInside_eq (s : Names) (fs : List Formula) :
    toldInside s fs =
      (fs.foldl hear { inner := ⟨equalityAxioms.map .formula⟩ }).inner.told := by
  have hcreate : (create : Telling Record Unit) ({}, s) =
      (.ok (), (⟨equalityAxioms.map .formula⟩, s)) := rfl
  have htell : (Telling.tellAll (fs.map .formula) : Telling (EqualityLayer Record) Unit)
      ({ inner := ⟨equalityAxioms.map .formula⟩ }, s) =
        (.ok (), (fs.foldl hear { inner := ⟨equalityAxioms.map .formula⟩ }, s)) := by
    rw [Telling.tellAll, List.forM_eq_forM, List.forM_map]
    exact Telling.forM_eq tell_eq fs _ s
  unfold toldInside
  rw [hcreate]
  dsimp only
  rw [htell]

/-! ## Section 3: The axioms of all symbols -/

/-- The cases of meeting a part: it is an atom or an application with a new symbol, or no axiom is
    due. -/
theorem due?_cases (l : EqualityLayer Record) (p : Part) :
    (∃ a, p = .formula (.atom a) ∧ a.symbol ∉ l.predicates ∧ a.args ≠ [] ∧
      l.due? p = some (predicateCongruence a.symbol a.args.length,
        { l with predicates := l.predicates ++ [a.symbol] })) ∨
    (∃ f ts, p = .term (.app f ts) ∧ f ∉ l.functions ∧ ts ≠ [] ∧
      l.due? p = some (functionCongruence f ts.length,
        { l with functions := l.functions ++ [f] })) ∨
    (l.due? p = none ∧ (∀ a, p = .formula (.atom a) → a.symbol ∈ l.predicates ∨ a.args = []) ∧
      ∀ f ts, p = .term (.app f ts) → f ∈ l.functions ∨ ts = []) := by
  rcases p with (x | c | ⟨f, ts⟩) | (a | _ | _ | _ | _ | _ | _ | _)
  case term.app =>
    by_cases h : f ∈ l.functions ∨ ts = []
    · exact .inr (.inr ⟨by simpa [due?] using or_iff_not_imp_left.mp h, by simp, by simpa using h⟩)
    · rw [not_or] at h
      exact .inr (.inl ⟨f, ts, rfl, h.1, h.2, by simp [due?, h.1, h.2]⟩)
  case formula.atom =>
    by_cases h : a.symbol ∈ l.predicates ∨ a.args = []
    · exact .inr (.inr ⟨by simpa [due?] using or_iff_not_imp_left.mp h, by simpa using h, by simp⟩)
    · rw [not_or] at h
      exact .inl ⟨a, rfl, h.1, h.2, by simp [due?, h.1, h.2]⟩
  all_goals exact .inr (.inr ⟨rfl, by simp, by simp⟩)

/-- Parts use every symbol with one number of arguments. -/
structure Uniform (ps : List Part) : Prop where
  predicates : ∀ a b, Part.formula (.atom a) ∈ ps → Part.formula (.atom b) ∈ ps →
    a.symbol = b.symbol → a.args.length = b.args.length
  functions : ∀ f ts us, Part.term (.app f ts) ∈ ps → Part.term (.app f us) ∈ ps →
    ts.length = us.length

/-- A part is an atom with the given predicate symbol and arguments. -/
def UsesPredicate (i : Ident) (p : Part) : Prop :=
  ∃ a, p = .formula (.atom a) ∧ a.symbol = i ∧ a.args ≠ []

/-- A part is a term with the given function symbol and arguments. -/
def UsesFunction (i : Ident) (p : Part) : Prop :=
  ∃ ts, p = .term (.app i ts) ∧ ts ≠ []

private theorem usesPredicate_atom {i : Ident} {a : Atom} :
    UsesPredicate i (.formula (.atom a)) ↔ a.symbol = i ∧ a.args ≠ [] := by
  simp [UsesPredicate]

private theorem usesFunction_app {i f : Ident} {ts : List Term} :
    UsesFunction i (.term (.app f ts)) ↔ f = i ∧ ts ≠ [] := by
  simp [UsesFunction, and_assoc]

/-- A layer has been told formulas and has met parts: it has told them, and the axioms of all symbols
    of the parts. -/
structure Heard (l : EqualityLayer Record) (gs : List Formula) (ps : List Part) : Prop where
  formulas : ∀ n ∈ l.inner.told, ∃ g, n = .formula g
  told : ∀ g, Node.formula g ∈ l.inner.told ↔
    g ∈ equalityAxioms ∨ g ∈ gs ∨ ∃ p ∈ ps, p.congruence? = some g
  predicates : ∀ i, i ∈ l.predicates ↔ i = .equality ∨ ∃ p ∈ ps, UsesPredicate i p
  functions : ∀ i, i ∈ l.functions ↔ ∃ p ∈ ps, UsesFunction i p

variable {l : EqualityLayer Record} {gs : List Formula} {ps : List Part} {p : Part}

/-- An axiom that is not due has been told, as no symbol is used in two ways. -/
theorem Heard.congruence_of_known (h : l.Heard gs ps) (hps : Uniform (ps ++ [p]))
    (hpred : ∀ a, p = .formula (.atom a) → a.symbol ∈ l.predicates ∨ a.args = [])
    (hfunc : ∀ f ts, p = .term (.app f ts) → f ∈ l.functions ∨ ts = []) {g : Formula}
    (hg : p.congruence? = some g) : ∃ p' ∈ ps, p'.congruence? = some g := by
  have hlast : p ∈ ps ++ [p] := List.mem_append_right _ (List.mem_singleton_self p)
  unfold Part.congruence? at hg
  split at hg
  next a =>
    split at hg
    next => cases hg
    next hne =>
      rw [not_or] at hne
      rcases (h.predicates _).mp ((hpred a rfl).resolve_right hne.2) with
        heq | ⟨_, hb, b, rfl, hsymbol, hargs⟩
      · exact absurd heq hne.1
      · have hlength := hps.predicates b a (List.mem_append_left _ hb) hlast hsymbol
        refine ⟨_, hb, ?_⟩
        rw [Part.congruence?, if_neg (by simp [hsymbol, hne.1, hargs]), hsymbol, hlength]
        exact hg
  next f ts =>
    split at hg
    next => cases hg
    next hne =>
      obtain ⟨_, hus, us, rfl, hargs⟩ := (h.functions _).mp ((hfunc f ts rfl).resolve_right hne)
      have hlength := hps.functions f us ts (List.mem_append_left _ hus) hlast
      refine ⟨_, hus, ?_⟩
      rw [Part.congruence?, if_neg hargs, hlength]
      exact hg
  next => cases hg

private theorem exists_mem_append_singleton {P : Part → Prop} :
    (∃ q ∈ ps ++ [p], P q) ↔ (∃ q ∈ ps, P q) ∨ P p := by
  simp [or_and_right, exists_or]

/-- After a part has been met, the axiom of its symbol has been told. -/
theorem Heard.meet (h : l.Heard gs ps) (hps : Uniform (ps ++ [p])) :
    (l.meet p).Heard gs (ps ++ [p]) := by
  unfold EqualityLayer.meet
  rcases due?_cases l p with ⟨a, rfl, hnew, hargs, hdue⟩ | ⟨f, ts, rfl, hnew, hargs, hdue⟩ |
    ⟨hdue, hpred, hfunc⟩
  · -- a new predicate symbol
    have hne : a.symbol ≠ .equality := fun heq => hnew ((h.predicates _).mpr (.inl heq))
    have hcongruence : (Part.formula (.atom a)).congruence? =
        some (predicateCongruence a.symbol a.args.length) := if_neg (by simp [hne, hargs])
    rw [hdue]
    refine ⟨by simpa [or_imp, forall_and] using h.formulas, fun g => ?_, fun i => ?_,
      fun i => ?_⟩ <;> rw [exists_mem_append_singleton]
    · simp [h.told, hcongruence, or_assoc, eq_comm]
    · rw [List.mem_append, h.predicates, List.mem_singleton, usesPredicate_atom,
        and_iff_left hargs, or_assoc, eq_comm (a := i) (b := a.symbol)]
    · simp [h.functions, UsesFunction]
  · -- a new function symbol
    have hcongruence : (Part.term (.app f ts)).congruence? =
        some (functionCongruence f ts.length) := if_neg hargs
    rw [hdue]
    refine ⟨by simpa [or_imp, forall_and] using h.formulas, fun g => ?_, fun i => ?_,
      fun i => ?_⟩ <;> rw [exists_mem_append_singleton]
    · simp [h.told, hcongruence, or_assoc, eq_comm]
    · simp [h.predicates, UsesPredicate]
    · rw [List.mem_append, h.functions, List.mem_singleton, usesFunction_app,
        and_iff_left hargs, eq_comm (a := i) (b := f)]
  · -- nothing is due: the symbol has been noted already, or has no arguments
    rw [hdue]
    refine ⟨h.formulas, fun g => ?_, fun i => ?_, fun i => ?_⟩ <;>
      rw [exists_mem_append_singleton]
    · rw [h.told, or_iff_left_of_imp fun hg => h.congruence_of_known hps hpred hfunc hg]
    · rw [← or_assoc, ← h.predicates]
      refine (or_iff_left_of_imp ?_).symm
      rintro ⟨a, rfl, rfl, hargs⟩
      exact (hpred a rfl).resolve_right hargs
    · rw [← h.functions]
      refine (or_iff_left_of_imp ?_).symm
      rintro ⟨ts, rfl, hargs⟩
      exact (hfunc i ts rfl).resolve_right hargs

theorem Uniform.mono {qs : List Part} (h : Uniform qs) (hps : ps ⊆ qs) : Uniform ps where
  predicates a b ha hb := h.predicates a b (hps ha) (hps hb)
  functions f ts us hts hus := h.functions f ts us (hps hts) (hps hus)

/-- What meeting one part does, meeting all parts of a formula does. -/
theorem Heard.meetAll {qs : List Part} (h : l.Heard gs ps) (hps : Uniform (ps ++ qs)) :
    (qs.foldl EqualityLayer.meet l).Heard gs (ps ++ qs) := by
  induction qs generalizing l ps with
  | nil => simpa using h
  | cons q qs ih =>
    have hone : Uniform (ps ++ [q]) := hps.mono (by simp)
    have hrest : Uniform ((ps ++ [q]) ++ qs) := hps.mono (by simp)
    simpa using ih (h.meet hone) hrest

private theorem Heard.hear {f : Formula} (h : l.Heard gs ps) (hps : Uniform (ps ++ f.parts)) :
    (l.hear f).Heard (gs ++ [f]) (ps ++ f.parts) := by
  refine Heard.meetAll ⟨by simpa [or_imp, forall_and] using h.formulas, fun g => ?_,
    h.predicates, h.functions⟩ hps
  simp only [List.mem_append, List.mem_singleton, h.told, Node.formula.injEq]
  rw [or_assoc, or_right_comm]

private theorem Heard.hearAll {fs : List Formula} (h : l.Heard gs ps)
    (hps : Uniform (ps ++ fs.flatMap Formula.parts)) :
    (fs.foldl EqualityLayer.hear l).Heard (gs ++ fs) (ps ++ fs.flatMap Formula.parts) := by
  induction fs generalizing l gs ps with
  | nil => simpa using h
  | cons f fs ih =>
    have hone : Uniform (ps ++ f.parts) := hps.mono (by simp)
    have hrest : Uniform ((ps ++ f.parts) ++ fs.flatMap Formula.parts) := hps.mono (by simp)
    simpa using ih (h.hear hone) hrest

theorem heard_start : ({ inner := ⟨equalityAxioms.map .formula⟩ } : EqualityLayer Record).Heard
    [] [] where
  formulas := by simp
  told := by simp
  predicates := by simp
  functions := by simp

end EqualityLayer

/-- The parts of formulas use every symbol with one number of arguments if the formulas do. -/
theorem UniformArity.parts {fs : List Formula} (h : UniformArity fs) :
    EqualityLayer.Uniform (fs.flatMap Formula.parts) where
  predicates a b ha hb hsymbol := by
    simp only [List.mem_flatMap, Formula.atom_mem_parts] at ha hb
    obtain ⟨f, hf, ha⟩ := ha
    obtain ⟨g, hg, hb⟩ := hb
    apply h.predicates (a.symbol, a.args.length) _ (b.symbol, b.args.length) _ hsymbol
    · exact List.mem_flatMap.mpr ⟨f, hf, List.mem_map_of_mem ha⟩
    · exact List.mem_flatMap.mpr ⟨g, hg, List.mem_map_of_mem hb⟩
  functions f ts us hts hus := by
    have hmem : ∀ ts, Part.term (.app f ts) ∈ fs.flatMap Formula.parts →
        (f, ts.length) ∈ fs.flatMap Formula.functionArities := by
      intro ts hts
      simp only [List.mem_flatMap, Formula.app_mem_parts] at hts
      obtain ⟨g, hg, a, ha, u, hu, hts⟩ := hts
      have harity : (f, ts.length) ∈ u.subterms.filterMap Term.functionArity? :=
        List.mem_filterMap.mpr ⟨_, hts, rfl⟩
      simp only [List.mem_flatMap, Formula.functionArities]
      exact ⟨g, hg, a, ha, u, hu, harity⟩
    exact h.functions _ (hmem ts hts) _ (hmem us hus) rfl

/-- A layer tells formulas only: the first axioms, what it is told itself, and the axioms of all
    symbols in it, if every symbol is used with one number of arguments. -/
theorem EqualityLayer.mem_toldInside {fs : List Formula} (h : UniformArity fs) (s : Names)
    {n : Node} : n ∈ toldInside s fs ↔ ∃ g, n = .formula g ∧
      (g ∈ equalityAxioms ∨ g ∈ fs ∨
        ∃ p ∈ fs.flatMap Formula.parts, p.congruence? = some g) := by
  have hheard := heard_start.hearAll h.parts
  rw [toldInside_eq]
  constructor
  · intro hn
    obtain ⟨g, rfl⟩ := hheard.formulas n hn
    exact ⟨g, rfl, (hheard.told g).mp hn⟩
  · rintro ⟨g, rfl, hg⟩
    exact (hheard.told g).mpr hg

end Clausal
