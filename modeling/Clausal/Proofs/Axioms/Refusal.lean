import Clausal.Axioms.Equality
import Clausal.Axioms.UniqueNames
import Clausal.Chaining.Base
import Clausal.Proofs.Chaining.Soundness
import Clausal.Proofs.Normal.Polarity

/-!
# Refused sentences

A base of definite clauses refuses a sentence as a whole.  Around it there may be layers that state
axioms of equality and of unique names, in any number and order.

Axioms of equality are definite, so a base with layers of this kind refuses a sentence only if the
sentence itself is not definite, and then nothing changes.  Axioms of unique names are never
definite.  With such a layer a definite sentence is stored first, and may be refused afterwards,
when an axiom about a constant of it is: the clauses of the sentence stay.

## Main definitions

- `Nesting`: the layers around a base, with the base's store

## Main statements

- `Nesting.refused_tell`: what a refused sentence changes
- `Nesting.refused_fact_stays`: a fact that is refused and stored
-/

namespace Clausal

/-! ## Section 1: Axioms of equality are definite -/

namespace Formula

@[simp]
theorem positiveCounts_forAllArguments (b : Bool) (n : Nat) (f : Formula) :
    (forAllArguments n f).positiveCounts b = f.positiveCounts b := by
  unfold forAllArguments
  induction List.range n with
  | nil => rfl
  | cons i l ih => cases b <;> simpa [positiveCounts] using ih

@[simp]
theorem positiveCounts_argumentsEqual (n : Nat) :
    (argumentsEqual n).positiveCounts false = [0] := by
  induction n with
  | zero => rfl
  | succ n ih => simp [argumentsEqual, varsEqual, positiveCounts, pairSums, ih]

private theorem positiveCounts_congruence (n : Nat) (consequent : List Term → List Term → Formula) :
    (congruence n consequent).positiveCounts true =
      (consequent ((List.range n).map fun i => .var (leftVar i))
        ((List.range n).map fun i => .var (rightVar i))).positiveCounts true := by
  simp [congruence, positiveCounts, pairSums]

end Formula

theorem EqualityLayer.inner_due? {κ : Type} {p : Part} {l l' : EqualityLayer κ} {f : Formula}
    (h : l.due? p = some (f, l')) : l'.inner = l.inner := by
  unfold due? at h
  split at h <;> simp_all only [Option.ite_none_left_eq_some, Option.some.injEq, Prod.mk.injEq,
    reduceCtorEq]
  all_goals rw [← h.2.2]

/-- The axiom that is due for a part of a formula has definite clauses. -/
theorem EqualityLayer.positiveCounts_due? {κ : Type} {l l' : EqualityLayer κ} {p : Part}
    {f : Formula} (h : l.due? p = some (f, l')) : ∀ n ∈ f.positiveCounts true, n = 1 := by
  unfold due? at h
  split at h
  next a =>
    split at h
    next => cases h
    next =>
      obtain ⟨rfl, -⟩ : _ = f ∧ _ := by simpa using h
      simp [predicateCongruence, Formula.positiveCounts_congruence, Formula.positiveCounts,
        pairSums]
  next g args =>
    split at h
    next => cases h
    next =>
      obtain ⟨rfl, -⟩ : _ = f ∧ _ := by simpa using h
      simp [functionCongruence, Formula.positiveCounts_congruence, Formula.positiveCounts]
  next => cases h

/-- Clauses are accepted if all of them are definite. -/
theorem exists_definiteClauses_iff {cs : List Clause} :
    (∃ ds, definiteClauses cs = .ok ds) ↔ ∀ c ∈ cs, c.isDefinite = true := by
  induction cs with
  | nil => simp [definiteClauses]
  | cons c cs ih =>
    rw [List.forall_mem_cons, ← ih]
    by_cases hc : c.isDefinite = true
    · have hd : DefiniteClause.ofClause? c = some ⟨{ c with form := .rule }, hc⟩ := dif_pos hc
      cases hcs : definiteClauses cs <;>
        simp [definiteClauses, hd, hcs, hc, bind, Except.bind, pure, Except.pure]
    · have hd : DefiniteClause.ofClause? c = none := dif_neg hc
      simp [definiteClauses, hd, hc]

/-! ## Section 2: Computations that add clauses -/

namespace Telling

variable {κ : Type}

/-- One computation after another, unless the first fails. -/
theorem then_apply (t u : Telling κ Unit) (x : κ × Names) : (t >>= fun _ => u) x =
    match t x with
    | (.error e, y) => (.error e, y)
    | (.ok (), y) => u y := by
  show ExceptT.bindCont (fun _ => u) (t x).1 (t x).2 = _
  rcases t x with ⟨_ | _, y⟩ <;> rfl

/-- All that a computation does to the clauses is to add some. -/
def Adds (store : κ → ClauseStore) (t : Telling κ Unit) : Prop :=
  ∀ x, ∃ ds, store (t x).2.1 = (store x.1).addAll ds

/-- A computation never fails. -/
def Succeeds (t : Telling κ Unit) : Prop :=
  ∀ x, (t x).1 = .ok ()

variable {store : κ → ClauseStore} {t u : Telling κ Unit}

theorem Adds.trans (store : κ → ClauseStore) {x y z : κ} {ds : List DefiniteClause}
    (h : store y = (store x).addAll ds) (h' : ∃ es, store z = (store y).addAll es) :
    ∃ es, store z = (store x).addAll (ds ++ es) := by
  obtain ⟨es, h'⟩ := h'
  exact ⟨es, by rw [h', h, ClauseStore.addAll, ClauseStore.addAll, ClauseStore.addAll,
    List.foldl_append]⟩

theorem Adds.then (ht : Adds store t) (hu : Adds store u) : Adds store (t >>= fun _ => u) := by
  intro x
  obtain ⟨ds, hds⟩ := ht x
  rw [then_apply]
  split
  next e y heq => exact ⟨ds, by rw [heq] at hds; exact hds⟩
  next y heq =>
    rw [heq] at hds
    obtain ⟨es, hes⟩ := Adds.trans _ hds (hu y)
    exact ⟨ds ++ es, hes⟩

theorem Succeeds.then (ht : Succeeds t) (hu : Succeeds u) : Succeeds (t >>= fun _ => u) := by
  intro x
  have hx := ht x
  rw [then_apply]
  split
  next e y heq => rw [heq] at hx; cases hx
  next y heq => exact hu y

theorem Adds.forM {α : Type} {g : α → Telling κ Unit} {l : List α} (h : ∀ a ∈ l, Adds store (g a)) :
    Adds store (l.forM g) := by
  induction l with
  | nil => exact fun x => ⟨[], rfl⟩
  | cons a l ih =>
    rw [List.forall_mem_cons] at h
    exact h.1.then (ih h.2)

private theorem Succeeds.forM {α : Type} {g : α → Telling κ Unit} {l : List α}
    (h : ∀ a ∈ l, Succeeds (g a)) : Succeeds (l.forM g) := by
  induction l with
  | nil => exact fun x => rfl
  | cons a l ih =>
    rw [List.forall_mem_cons] at h
    exact h.1.then (ih h.2)

/-! ### Telling the inside of a layer -/

theorem within_apply {ι : Type} (inner : ι → κ) (replace : ι → κ → ι) (t : Telling κ Unit) (l : ι)
    (s : Names) : Telling.within inner replace t (l, s) =
      ((t (inner l, s)).1, (replace l (t (inner l, s)).2.1, (t (inner l, s)).2.2)) :=
  rfl

theorem Adds.within {ι : Type} (inner : ι → κ) (replace : ι → κ → ι)
    (hreplace : ∀ l k, inner (replace l k) = k) (h : Adds store t) :
    Adds (fun l => store (inner l)) (Telling.within inner replace t) := by
  rintro ⟨l, s⟩
  obtain ⟨ds, hds⟩ := h (inner l, s)
  exact ⟨ds, by simpa only [within_apply, hreplace] using hds⟩

end Telling

/-! ## Section 3: Telling a base with layers -/

/-- What a knowledge base that keeps definite clauses does when it is told a sentence.  `names`
    tells whether it may state axioms of unique names. -/
structure KeepsDefinite (κ : Type) [KnowledgeBase κ] (store : κ → ClauseStore) (names : Bool) :
    Prop where
  /-- A sentence that is not definite is refused at once. -/
  refused : ∀ (f : Formula) (s : Names) (e : NotDefinite) (x : κ),
    definiteClauses (f.toCnf s).1.clauses = .error e →
      (KnowledgeBase.tell (.formula f) : Telling κ Unit) (x, s) =
        (.error (.notDefinite e), (x, (f.toCnf s).2))
  /-- The clauses of a definite sentence are stored before anything else. -/
  stored : ∀ (f : Formula) (s : Names) (ds : List DefiniteClause) (x : κ),
    definiteClauses (f.toCnf s).1.clauses = .ok ds →
      ∃ es, store ((KnowledgeBase.tell (.formula f) : Telling κ Unit) (x, s)).2.1 =
        (store x).addAll (ds ++ es)
  /-- Without axioms of unique names a definite sentence is accepted. -/
  accepted : names = false → ∀ (f : Formula) (s : Names) (ds : List DefiniteClause) (x : κ),
    definiteClauses (f.toCnf s).1.clauses = .ok ds →
      ((KnowledgeBase.tell (.formula f) : Telling κ Unit) (x, s)).1 = .ok ()

namespace KeepsDefinite

open Telling

private theorem ruleBase : KeepsDefinite RuleBase RuleBase.store false where
  refused f s e x h := by rw [RuleBase.tell_formula, h]
  stored f s ds x h := ⟨[], by rw [RuleBase.tell_formula, h, List.append_nil]⟩
  accepted _ f s ds x h := by rw [RuleBase.tell_formula, h]

variable {κ : Type} [KnowledgeBase κ] {store : κ → ClauseStore} {names : Bool}

theorem adds (h : KeepsDefinite κ store names) (f : Formula) :
    Adds store (KnowledgeBase.tell (.formula f) : Telling κ Unit) := by
  rintro ⟨x, s⟩
  cases hf : definiteClauses (f.toCnf s).1.clauses with
  | error e => exact ⟨[], by rw [h.refused f s e x hf]; rfl⟩
  | ok ds =>
    obtain ⟨es, hes⟩ := h.stored f s ds x hf
    exact ⟨ds ++ es, hes⟩

/-- A layer tells the base inside it a sentence first.  If that is refused, then nothing happens;
    otherwise what the layer does then can only add clauses. -/
theorem layer {ι : Type} [KnowledgeBase ι] (h : KeepsDefinite κ store names) (inner : ι → κ)
    (replace : ι → κ → ι) (visit : Part → Telling ι Unit) {names' : Bool}
    (hreplace : ∀ l k, inner (replace l k) = k) (hself : ∀ l, replace l (inner l) = l)
    (htell : ∀ f, (KnowledgeBase.tell (.formula f) : Telling ι Unit) =
      Telling.within inner replace (KnowledgeBase.tell (.formula f)) >>= fun _ =>
        f.parts.forM visit)
    (hadds : ∀ p, Adds (fun l => store (inner l)) (visit p))
    (hsucceeds : names' = false → names = false ∧ ∀ p, Succeeds (visit p)) :
    KeepsDefinite ι (fun l => store (inner l)) names' where
  refused f s e l hf := by
    rw [htell, then_apply, within_apply, h.refused f s e (inner l) hf, hself]
  stored f s ds l hf := by
    obtain ⟨es, hes⟩ := h.stored f s ds (inner l) hf
    have hfirst : store (inner (Telling.within inner replace (KnowledgeBase.tell (.formula f))
        (l, s)).2.1) = (store (inner l)).addAll (ds ++ es) := by
      rw [within_apply, hreplace, hes]
    rw [htell, then_apply]
    split
    next e y heq => exact ⟨es, by rw [heq] at hfirst; exact hfirst⟩
    next y heq =>
      rw [heq] at hfirst
      obtain ⟨es', hes'⟩ := Adds.trans (fun l => store (inner l)) hfirst
        (Adds.forM (fun p _ => hadds p) y)
      exact ⟨es ++ es', by rw [hes', List.append_assoc]⟩
  accepted hnames f s ds l hf := by
    obtain ⟨hnames, hvisit⟩ := hsucceeds hnames
    have hfirst := h.accepted hnames f s ds (inner l) hf
    rw [htell, then_apply, within_apply, hfirst]
    exact Succeeds.forM (fun p _ => hvisit p) _

private theorem visit_equality (p : Part) (l : EqualityLayer κ) (s : Names) :
    (EqualityLayer.visit p : Telling (EqualityLayer κ) Unit) (l, s) =
      match l.due? p with
      | none => (.ok (), (l, s))
      | some (f, l') => EqualityLayer.tellInner (.formula f) (l', s) := by
  have hget : ∀ g : EqualityLayer κ × Names → Telling (EqualityLayer κ) Unit,
      (get >>= g) (l, s) = g (l, s) (l, s) := fun _ => rfl
  unfold EqualityLayer.visit
  rw [hget]
  dsimp only
  cases l.due? p <;> rfl

private theorem equality (h : KeepsDefinite κ store names) :
    KeepsDefinite (EqualityLayer κ) (fun l => store l.inner) names := by
  refine h.layer EqualityLayer.inner (fun l i => { l with inner := i }) EqualityLayer.visit
    (fun _ _ => rfl) (fun _ => rfl) (fun _ => rfl) ?_ ?_
  · rintro p ⟨l, s⟩
    rw [visit_equality]
    cases hdue : l.due? p with
    | none => exact ⟨[], rfl⟩
    | some fl =>
      obtain ⟨f, l'⟩ := fl
      obtain ⟨ds, hds⟩ := (h.adds f).within EqualityLayer.inner
        (fun l i => { l with inner := i }) (fun _ _ => rfl) (l', s)
      have hsame : store l'.inner = store l.inner := congrArg store (EqualityLayer.inner_due? hdue)
      exact ⟨ds, hds.trans (congrArg (·.addAll ds) hsame)⟩
  · refine fun hnames => ⟨hnames, ?_⟩
    rintro p ⟨l, s⟩
    rw [visit_equality]
    cases hdue : l.due? p with
    | none => rfl
    | some fl =>
      obtain ⟨f, l'⟩ := fl
      -- the axiom is definite, whatever names it gets
      obtain ⟨ds, hds⟩ := exists_definiteClauses_iff.mpr
        (Formula.isDefinite_of_positiveCounts (EqualityLayer.positiveCounts_due? hdue) s)
      exact h.accepted hnames f s ds l'.inner hds

private theorem uniqueNames (h : KeepsDefinite κ store names) :
    KeepsDefinite (UniqueNamesLayer κ) (fun l => store l.inner) true := by
  refine h.layer UniqueNamesLayer.inner (fun l i => { l with inner := i }) UniqueNamesLayer.visit
    (fun _ _ => rfl) (fun _ => rfl) (fun _ => rfl) ?_ nofun
  have hinner : ∀ f : Formula, Adds (fun l => store l.inner)
      (UniqueNamesLayer.tellInner (.formula f) : Telling (UniqueNamesLayer κ) Unit) := fun f =>
    (h.adds f).within UniqueNamesLayer.inner (fun l i => { l with inner := i }) fun _ _ => rfl
  rintro p ⟨l, s⟩
  have hget : ∀ g : UniqueNamesLayer κ × Names → Telling (UniqueNamesLayer κ) Unit,
      (get >>= g) (l, s) = g (l, s) (l, s) := fun _ => rfl
  unfold UniqueNamesLayer.visit
  split
  next c =>
    rw [hget]
    dsimp only
    split
    next => exact ⟨[], rfl⟩
    next =>
      have hnote : Adds (fun l => store l.inner) (modify fun x : UniqueNamesLayer κ × Names =>
          ({ x.1 with constants := x.1.constants ++ [c] }, x.2)) := fun x => ⟨[], rfl⟩
      exact (Adds.forM fun known _ => hinner (namesDiffer c known)).then hnote (l, s)
  next => exact ⟨[], rfl⟩

end KeepsDefinite

/-! ## Section 4: Nested layers -/

/-- The layers around a base of definite clauses, from the outside in. -/
inductive Nesting where
  | plain
  | equality (inner : Nesting)
  | uniqueNames (inner : Nesting)

namespace Nesting

/-- The states of a base with its layers. -/
def State : Nesting → Type
  | plain => RuleBase
  | equality N => EqualityLayer N.State
  | uniqueNames N => UniqueNamesLayer N.State

instance knowledgeBase : (N : Nesting) → KnowledgeBase N.State
  | plain => inferInstanceAs (KnowledgeBase RuleBase)
  | equality N =>
    letI := N.knowledgeBase
    inferInstanceAs (KnowledgeBase (EqualityLayer N.State))
  | uniqueNames N =>
    letI := N.knowledgeBase
    inferInstanceAs (KnowledgeBase (UniqueNamesLayer N.State))

/-- The clauses of the base. -/
def store : (N : Nesting) → N.State → ClauseStore
  | plain, b => RuleBase.store b
  | equality N, l => N.store (EqualityLayer.inner l)
  | uniqueNames N, l => N.store (UniqueNamesLayer.inner l)

/-- Whether one of the layers states axioms of unique names. -/
def statesNames : Nesting → Bool
  | plain => false
  | equality N => N.statesNames
  | uniqueNames _ => true

/-- Tell a base with its layers a sentence. -/
def tell (N : Nesting) (f : Formula) : Telling N.State Unit :=
  KnowledgeBase.tell (.formula f)

private theorem keepsDefinite : (N : Nesting) → KeepsDefinite N.State N.store N.statesNames
  | plain => .ruleBase
  | equality N => N.keepsDefinite.equality
  | uniqueNames N => N.keepsDefinite.uniqueNames

/-- What a refused sentence changes, for any layers around a base of definite clauses.  If the
    sentence is not definite, or if no layer states axioms of unique names, then nothing changes.  A
    definite sentence is refused only if there is such a layer, and its clauses are stored. -/
theorem refused_tell (N : Nesting) (x : N.State) (s : Names) (f : Formula) (e : NotDefinite)
    (h : (N.tell f (x, s)).1 = .error (.notDefinite e)) :
    ((∃ c ∈ (f.toCnf s).1.clauses, c.isDefinite = false) → (N.tell f (x, s)).2.1 = x) ∧
    (N.statesNames = false → (N.tell f (x, s)).2.1 = x) ∧
    ((∀ c ∈ (f.toCnf s).1.clauses, c.isDefinite = true) → N.statesNames = true ∧
      ∃ ds es, definiteClauses (f.toCnf s).1.clauses = .ok ds ∧
        N.store (N.tell f (x, s)).2.1 = (N.store x).addAll (ds ++ es)) := by
  have hN := N.keepsDefinite
  cases hf : definiteClauses (f.toCnf s).1.clauses with
  | error e' =>
    have hsame : (N.tell f (x, s)).2.1 = x := by
      rw [tell, hN.refused f s e' x hf]
    refine ⟨fun _ => hsame, fun _ => hsame, fun hdefinite => ?_⟩
    obtain ⟨ds, hds⟩ := exists_definiteClauses_iff.mpr hdefinite
    rw [hf] at hds
    cases hds
  | ok ds =>
    have hdefinite := exists_definiteClauses_iff.mp ⟨ds, hf⟩
    have hnames : N.statesNames = true := by
      by_contra hnames
      rw [Bool.not_eq_true] at hnames
      have := (hN.accepted hnames f s ds x hf).symm.trans h
      cases this
    refine ⟨?_, fun hno => ?_, fun _ => ⟨hnames, ds, ?_⟩⟩
    · rintro ⟨c, hc, hno⟩
      rw [hdefinite c hc] at hno
      cases hno
    · rw [hnames] at hno
      cases hno
    · obtain ⟨es, hes⟩ := hN.stored f s ds x hf
      exact ⟨es, rfl, hes⟩

/-- The fact that a predicate holds of a constant. -/
def fact (p c : String) : Formula :=
  .atom (.pred (.name p) [.const (.name c)])

/-- An empty base with a layer that states axioms of unique names. -/
def namedBase : (uniqueNames plain).State :=
  ({ inner := ({} : RuleBase) } : UniqueNamesLayer RuleBase)

/-- The base after it has been told `p(a)`. -/
def toldOne : (uniqueNames plain).State × Names :=
  ((uniqueNames plain).tell (fact "p" "a") (namedBase, {})).2

/-- The refused axiom: `b` and `a` differ. -/
def axiomRefused : NotDefinite :=
  ⟨Clause.ofList [⟨false, .eq (.const (.name "b")) (.const (.name "a"))⟩]⟩

/-- A fact is refused because of the axiom for its constant, and stays in the store. -/
theorem refused_fact_stays :
    ((uniqueNames plain).tell (fact "q" "b") toldOne).1 = .error (.notDefinite axiomRefused) ∧
    ((uniqueNames plain).store toldOne.1).size = 1 ∧
    ((uniqueNames plain).store ((uniqueNames plain).tell (fact "q" "b") toldOne).2.1).size = 2 :=
  ⟨rfl, rfl, rfl⟩

theorem refused_tell_fact :
    ((uniqueNames plain).tell (fact "q" "b") toldOne).1 = .error (.notDefinite axiomRefused) ∧
    ∃ ds es, definiteClauses ((fact "q" "b").toCnf toldOne.2).1.clauses = .ok ds ∧
      (uniqueNames plain).store ((uniqueNames plain).tell (fact "q" "b") toldOne).2.1 =
        ((uniqueNames plain).store toldOne.1).addAll (ds ++ es) :=
  ⟨rfl, ((refused_tell (uniqueNames plain) toldOne.1 toldOne.2 (fact "q" "b") axiomRefused
    rfl).2.2 (by decide)).2⟩

end Nesting

end Clausal
