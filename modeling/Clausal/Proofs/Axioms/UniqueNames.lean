import Mathlib.Data.Sym.Sym2
import Clausal.Proofs.Axioms.Refusal
import Clausal.Proofs.Axioms.Telling
import Clausal.Resolution.Base

/-!
# What a layer with axioms of unique names tells

A layer goes through every formula that it is told and notes the constants.  For a constant that it
has not noted before it tells the knowledge base inside it one axiom for each of the constants noted
so far.  So there is exactly one axiom for any two constants that have been met, whichever of them was
met first, and constants that are met again bring no further ones.

What is told depends on the formulas only and not on the knowledge base, as long as that accepts it.

## Main definitions

- `Formula.constants`: the constants of a formula
- `UniqueNamesLayer.saidOf`, `UniqueNamesLayer.said`: what is told to the knowledge base inside
- `UniqueNamesLayer.toldInside`: the same, as a knowledge base records it

## Main statements

- `UniqueNamesLayer.Covers.note`, `UniqueNamesLayer.Covers.noteAll`: the axioms cover all pairs
- `UniqueNamesLayer.says_tellAll`: the layer passes on these formulas and no others
- `uniqueNames_cover_pairs`: one axiom for each pair of constants
-/

namespace Clausal

/-! ## Section 1: The constants of a formula -/

mutual

/-- The constants of a term from left to right, with repetitions. -/
def Term.constants : Term → List Ident
  | .var _ => []
  | .const c => [c]
  | .app _ args => Term.constantsList args

/-- The constants of several terms. -/
def Term.constantsList : List Term → List Ident
  | [] => []
  | t :: ts => Term.constants t ++ Term.constantsList ts

end

/-- The constants of a formula from left to right, with repetitions. -/
def Formula.constants (f : Formula) : List Ident :=
  f.atoms.flatMap fun a => a.args.flatMap Term.constants

/-- The constant that a part is. -/
def Part.constant? : Part → Option Ident
  | .term (.const c) => some c
  | _ => none

private theorem Term.constantsList_eq_flatMap (ts : List Term) :
    constantsList ts = ts.flatMap constants := by
  induction ts with
  | nil => rfl
  | cons t ts ih => rw [constantsList, ih, List.flatMap_cons]

/-- Going through the parts of a term meets its constants, in their order. -/
theorem Term.filterMap_constant?_parts (t : Term) :
    t.parts.filterMap Part.constant? = t.constants := by
  induction t using Term.induction with
  | var x => rfl
  | const c => rfl
  | app f args ih =>
    rw [parts_app, List.filterMap_cons, constants, constantsList_eq_flatMap, List.filterMap_flatMap]
    exact List.flatMap_congr ih

private theorem Formula.filterMap_constant?_parts (f : Formula) :
    f.parts.filterMap Part.constant? = f.constants := by
  induction f with
  | atom a =>
    rw [parts, List.filterMap_cons_none rfl, List.filterMap_flatMap]
    simp [constants, atoms, Term.filterMap_constant?_parts]
  | not f ih =>
    rw [parts, List.filterMap_cons_none rfl, ih]
    rfl
  | and f g ihf ihg | or f g ihf ihg | imp f g ihf ihg | iff f g ihf ihg =>
    rw [parts, List.filterMap_cons_none rfl, List.filterMap_append, ihf, ihg]
    exact List.flatMap_append.symm
  | all x f ih | ex x f ih =>
    rw [parts, List.filterMap_cons_none rfl, List.filterMap_cons_none rfl, ih]
    rfl

namespace UniqueNamesLayer

/-! ## Section 2: One axiom for each pair -/

/-- The pairs that are stated to differ when a constant is met after those in `known`. -/
def duePairs (known : List Ident) (c : Ident) : List (Ident × Ident) :=
  if c ∈ known then [] else known.map fun k => (c, k)

/-- The constants that have been met when a further one is. -/
def note (known : List Ident) (c : Ident) : List Ident :=
  if c ∈ known then known else known ++ [c]

/-- The pairs that are stated to differ when constants are met one after the other. -/
def pairsOf : List Ident → List Ident → List (Ident × Ident)
  | _, [] => []
  | known, c :: cs => duePairs known c ++ pairsOf (note known c) cs

/-- The two constants of a pair, whichever stands first. -/
def unordered (pairs : List (Ident × Ident)) : List (Sym2 Ident) :=
  pairs.map fun p => s(p.1, p.2)

/-- The pairs are those of distinct constants among the given ones, each exactly once. -/
structure Covers (known : List Ident) (pairs : List (Ident × Ident)) : Prop where
  distinct : known.Nodup
  once : (unordered pairs).Nodup
  mem_iff : ∀ a b, s(a, b) ∈ unordered pairs ↔ a ≠ b ∧ a ∈ known ∧ b ∈ known

private theorem covers_nil : Covers [] [] where
  distinct := .nil
  once := .nil
  mem_iff := by simp [unordered]

private theorem pairsOf_append (known cs ds : List Ident) :
    pairsOf known (cs ++ ds) = pairsOf known cs ++ pairsOf (cs.foldl note known) ds := by
  induction cs generalizing known with
  | nil => rfl
  | cons c cs ih => rw [List.cons_append, pairsOf, pairsOf, ih, List.append_assoc, List.foldl_cons]

theorem mem_note {known : List Ident} {a c : Ident} : a ∈ note known c ↔ a ∈ known ∨ a = c := by
  unfold note
  split
  next hc => exact ⟨.inl, fun h => h.elim id fun h => h ▸ hc⟩
  next => simp

private theorem mem_noteAll {known cs : List Ident} {a : Ident} :
    a ∈ cs.foldl note known ↔ a ∈ known ∨ a ∈ cs := by
  induction cs generalizing known with
  | nil => simp
  | cons c cs ih => rw [List.foldl_cons, ih, mem_note, List.mem_cons, or_assoc]

section Pairs

variable {known : List Ident} {pairs : List (Ident × Ident)}

private theorem mem_unordered_append {new : List (Ident × Ident)} {z : Sym2 Ident} :
    z ∈ unordered (pairs ++ new) ↔ z ∈ unordered pairs ∨ z ∈ unordered new := by
  simp [unordered]

/-- A constant that is new makes a pair with each of the known ones. -/
theorem mem_unordered_new {a b c : Ident} :
    s(a, b) ∈ unordered (known.map fun k => (c, k)) ↔ (a = c ∧ b ∈ known) ∨ (b = c ∧ a ∈ known) := by
  simp only [unordered, List.map_map, List.mem_map, Function.comp_apply, Sym2.eq_iff]
  constructor
  · rintro ⟨k, hk, ⟨rfl, rfl⟩ | ⟨rfl, rfl⟩⟩
    · exact .inl ⟨rfl, hk⟩
    · exact .inr ⟨rfl, hk⟩
  · rintro (⟨rfl, hb⟩ | ⟨rfl, ha⟩)
    · exact ⟨b, hb, .inl ⟨rfl, rfl⟩⟩
    · exact ⟨a, ha, .inr ⟨rfl, rfl⟩⟩

/-- Meeting a constant keeps all pairs covered. -/
theorem Covers.note (h : Covers known pairs) (c : Ident) :
    Covers (note known c) (pairs ++ duePairs known c) := by
  unfold UniqueNamesLayer.note duePairs
  split
  next => rwa [List.append_nil]
  next hc =>
    refine ⟨?_, ?_, fun a b => ?_⟩
    · simpa [List.nodup_append] using ⟨h.distinct, fun a ha hac => hc (hac ▸ ha)⟩
    · -- the new pairs differ from each other, and no old pair has the new constant
      rw [unordered, List.map_append]
      refine List.Nodup.append h.once ?_ fun z hz hnew => ?_
      · rw [List.map_map]
        exact h.distinct.map fun k l => Sym2.congr_right.mp
      · induction z using Sym2.ind with
        | _ a b =>
          obtain ⟨-, ha, hb⟩ := (h.mem_iff a b).mp hz
          rcases mem_unordered_new.mp hnew with ⟨rfl, -⟩ | ⟨rfl, -⟩
          · exact hc ha
          · exact hc hb
    · rw [mem_unordered_append, h.mem_iff, mem_unordered_new]
      simp only [List.mem_append, List.mem_singleton]
      grind

theorem Covers.noteAll (h : Covers known pairs) (cs : List Ident) :
    Covers (cs.foldl UniqueNamesLayer.note known) (pairs ++ pairsOf known cs) := by
  induction cs generalizing known pairs with
  | nil => simpa [pairsOf] using h
  | cons c cs ih =>
    rw [pairsOf, ← List.append_assoc, List.foldl_cons]
    exact ih (h.note c)

end Pairs

/-! ## Section 3: What is told -/

/-- The axioms for pairs of constants. -/
def axiomsFor (pairs : List (Ident × Ident)) : List Formula :=
  pairs.map fun p => namesDiffer p.1 p.2

/-- What is told on inside when a formula is told and the constants in `known` have been met. -/
def saidOf (known : List Ident) (f : Formula) : List Formula :=
  f :: axiomsFor (pairsOf known f.constants)

/-- What is told on inside when formulas are told one after the other. -/
def said : List Ident → List Formula → List Formula
  | _, [] => []
  | known, f :: fs => saidOf known f ++ said (f.constants.foldl note known) fs

/-- All told, these are the formulas themselves and the axioms for their constants. -/
theorem said_perm (known : List Ident) (fs : List Formula) :
    (said known fs).Perm (fs ++ axiomsFor (pairsOf known (fs.flatMap Formula.constants))) := by
  induction fs generalizing known with
  | nil => exact .refl _
  | cons f fs ih =>
    rw [List.flatMap_cons, pairsOf_append, axiomsFor, List.map_append, List.cons_append]
    refine .cons f (((ih _).append_left _).trans ?_)
    rw [← List.append_assoc, ← List.append_assoc]
    exact List.perm_append_comm.append_right _

section Telling

variable {κ : Type} [KnowledgeBase κ]

/-- A knowledge base and the names that are left when it has been told a formula. -/
def heard (x : κ × Names) (f : Formula) : κ × Names :=
  ((KnowledgeBase.tell (.formula f) : Telling κ Unit) x).2

/-- If the constants in `known` have been met, then the computation tells the knowledge base inside
    the layer the given formulas and nothing else, does not fail, and the constants that have been
    met afterwards are those in `known'`. -/
def Says (t : Telling (UniqueNamesLayer κ) Unit) (known : List Ident) (fs : List Formula)
    (known' : List Ident) : Prop :=
  ∀ k s, t (⟨k, known⟩, s) = (.ok (), (⟨(fs.foldl heard (k, s)).1, known'⟩, (fs.foldl heard (k, s)).2))

variable {t u : Telling (UniqueNamesLayer κ) Unit} {known known' known'' : List Ident}
  {fs gs : List Formula}

theorem Says.then (ht : Says t known fs known') (hu : Says u known' gs known'') :
    Says (t >>= fun _ => u) known (fs ++ gs) known'' := by
  intro k s
  rw [Telling.then_apply, ht k s]
  simp only [List.foldl_append]
  exact hu _ _

theorem Says.nothing : Says (pure () : Telling (UniqueNamesLayer κ) Unit) known [] known :=
  fun _ _ => rfl

/-- A knowledge base that never refuses a formula goes on from what it has heard. -/
theorem tell_eq_heard (hκ : ∀ f, Telling.Succeeds (KnowledgeBase.tell (.formula f) : Telling κ Unit))
    (f : Formula) (x : κ × Names) :
    (KnowledgeBase.tell (.formula f) : Telling κ Unit) x = (.ok (), heard x f) :=
  Prod.ext (hκ f x) rfl

variable (hκ : ∀ f, Telling.Succeeds (KnowledgeBase.tell (.formula f) : Telling κ Unit))
include hκ

theorem says_tellInner (f : Formula) (known : List Ident) :
    Says (tellInner (.formula f) : Telling (UniqueNamesLayer κ) Unit) known [f] known := by
  intro k s
  rw [tellInner, Telling.within_apply, tell_eq_heard hκ]
  rfl

private theorem says_tellInner_forM {α : Type} (g : α → Formula) (l : List α) (known : List Ident) :
    Says (l.forM fun a => tellInner (.formula (g a)) : Telling (UniqueNamesLayer κ) Unit) known
      (l.map g) known := by
  induction l with
  | nil => exact .nothing
  | cons a l ih => exact (says_tellInner hκ (g a) known).then ih

/-- Visiting a constant tells what is due for it. -/
theorem says_visit_const (c : Ident) (known : List Ident) :
    Says (visit (.term (.const c)) : Telling (UniqueNamesLayer κ) Unit) known
      (axiomsFor (duePairs known c)) (note known c) := by
  intro k s
  have hget : ∀ g : UniqueNamesLayer κ × Names → Telling (UniqueNamesLayer κ) Unit,
      (get >>= g) (⟨k, known⟩, s) = g (⟨k, known⟩, s) (⟨k, known⟩, s) := fun _ => rfl
  rw [visit, hget]
  dsimp only
  by_cases hc : c ∈ known
  · rw [if_pos (by simpa using hc), duePairs, if_pos hc, note, if_pos hc]
    rfl
  · rw [if_neg (by simpa using hc), duePairs, if_neg hc, note, if_neg hc, axiomsFor, List.map_map]
    have hnote : Says (modify fun x : UniqueNamesLayer κ × Names =>
        ({ x.1 with constants := x.1.constants ++ [c] }, x.2)) known [] (known ++ [c]) :=
      fun _ _ => rfl
    have hsaid := (says_tellInner_forM hκ (namesDiffer c) known known).then hnote
    rw [List.append_nil] at hsaid
    exact hsaid k s

private theorem says_visit_forM (ps : List Part) (known : List Ident) :
    Says (ps.forM visit : Telling (UniqueNamesLayer κ) Unit) known
      (axiomsFor (pairsOf known (ps.filterMap Part.constant?)))
      ((ps.filterMap Part.constant?).foldl note known) := by
  induction ps generalizing known with
  | nil => exact .nothing
  | cons p ps ih =>
    cases hp : p.constant? with
    | none =>
      rw [List.filterMap_cons_none hp]
      have hvisit : (visit p : Telling (UniqueNamesLayer κ) Unit) = pure () := by
        unfold visit
        split
        next c => cases hp
        next => rfl
      have hpure : Says (visit p : Telling (UniqueNamesLayer κ) Unit) known [] known := by
        rw [hvisit]
        exact .nothing
      exact hpure.then (ih known)
    | some c =>
      obtain rfl : p = .term (.const c) := by
        unfold Part.constant? at hp
        split at hp <;> simp_all
      rw [List.filterMap_cons_some hp, pairsOf, axiomsFor, List.map_append]
      exact (says_visit_const hκ c known).then (ih (note known c))

private theorem says_tell (f : Formula) (known : List Ident) :
    Says (KnowledgeBase.tell (.formula f) : Telling (UniqueNamesLayer κ) Unit) known
      (saidOf known f) (f.constants.foldl note known) := by
  have hparts := says_visit_forM hκ f.parts known
  rw [Formula.filterMap_constant?_parts] at hparts
  exact (says_tellInner hκ f known).then hparts

/-- The layer passes on the formulas that it is told and the axioms for their constants. -/
theorem says_tellAll (fs : List Formula) (known : List Ident) :
    Says (Telling.tellAll (fs.map .formula) : Telling (UniqueNamesLayer κ) Unit) known
      (said known fs) ((fs.flatMap Formula.constants).foldl note known) := by
  induction fs generalizing known with
  | nil => exact .nothing
  | cons f fs ih =>
    rw [List.flatMap_cons, List.foldl_append]
    exact (says_tell hκ f known).then (ih _)

/-- A knowledge base that is told formulas directly. -/
theorem tellAll_eq_heard (fs : List Formula) (x : κ × Names) :
    (Telling.tellAll (fs.map .formula) : Telling κ Unit) x = (.ok (), fs.foldl heard x) := by
  induction fs generalizing x with
  | nil => rfl
  | cons f fs ih =>
    have hcons : (Telling.tellAll ((f :: fs).map .formula) : Telling κ Unit) =
        KnowledgeBase.tell (.formula f) >>= fun _ => Telling.tellAll (fs.map .formula) := rfl
    rw [hcons, Telling.then_apply, tell_eq_heard hκ]
    exact ih (heard x f)

end Telling

/-- What a fresh layer tells the knowledge base inside it when it is told formulas. -/
def toldInside (fs : List Formula) : List Node :=
  let (_, layer) := (Telling.tellAll (fs.map .formula) : Telling (UniqueNamesLayer Record) Unit)
    ({ inner := {} }, {})
  layer.1.inner.told

private theorem record_succeeds (f : Formula) :
    Telling.Succeeds (KnowledgeBase.tell (.formula f) : Telling Record Unit) :=
  fun _ => rfl

private theorem told_foldl_heard (fs : List Formula) (x : Record × Names) :
    (fs.foldl heard x).1.told = x.1.told ++ fs.map .formula := by
  induction fs generalizing x with
  | nil => simp
  | cons f fs ih =>
    rw [List.foldl_cons, ih, List.map_cons, List.append_cons]
    rfl

private theorem toldInside_eq (fs : List Formula) : toldInside fs = (said [] fs).map .formula := by
  have hrun := says_tellAll record_succeeds fs [] {} {}
  rw [toldInside, hrun]
  exact told_foldl_heard (said [] fs) ({}, {})

end UniqueNamesLayer

/-- A fresh layer tells the knowledge base inside it the formulas that it is told, one axiom for each
    pair of distinct constants in them, and nothing else.  Any knowledge base that never refuses a
    formula is told the same, and then the layer refuses nothing either. -/
theorem uniqueNames_cover_pairs (fs : List Formula) :
    (∃ pairs : List (Ident × Ident),
      (UniqueNamesLayer.toldInside fs).Perm
        (fs.map .formula ++ pairs.map fun p => .formula (namesDiffer p.1 p.2)) ∧
      (UniqueNamesLayer.unordered pairs).Nodup ∧
      ∀ a b, s(a, b) ∈ UniqueNamesLayer.unordered pairs ↔
        a ≠ b ∧ a ∈ fs.flatMap Formula.constants ∧ b ∈ fs.flatMap Formula.constants) ∧
    ∀ (κ : Type) [KnowledgeBase κ],
      (∀ f, Telling.Succeeds (KnowledgeBase.tell (.formula f) : Telling κ Unit)) →
      ∀ (k : κ) (s : Names), ∃ k' s' known,
        (Telling.tellAll (UniqueNamesLayer.toldInside fs) : Telling κ Unit) (k, s) =
          (.ok (), (k', s')) ∧
        (Telling.tellAll (fs.map .formula) : Telling (UniqueNamesLayer κ) Unit)
          ({ inner := k }, s) = (.ok (), ({ inner := k', constants := known }, s')) := by
  constructor
  · have hcovers := UniqueNamesLayer.covers_nil.noteAll (fs.flatMap Formula.constants)
    rw [List.nil_append] at hcovers
    refine ⟨_, ?_, hcovers.once, fun a b => ?_⟩
    · have hperm := (UniqueNamesLayer.said_perm [] fs).map Node.formula
      rw [List.map_append, UniqueNamesLayer.axiomsFor, List.map_map] at hperm
      rw [UniqueNamesLayer.toldInside_eq]
      exact hperm
    · simpa only [UniqueNamesLayer.mem_noteAll, List.not_mem_nil, false_or] using hcovers.mem_iff a b
  · intro κ _ hκ k s
    refine ⟨_, _, _, ?_, UniqueNamesLayer.says_tellAll hκ fs [] k s⟩
    rw [UniqueNamesLayer.toldInside_eq, UniqueNamesLayer.tellAll_eq_heard hκ]

/-- `p(a, f(b, a))`. -/
def aboutAB : Formula :=
  .atom (.pred (.name "p") [.const (.name "a"),
    .app (.name "f") [.const (.name "b"), .const (.name "a")]])

/-- `![X]: ~c = g(X, a)`. -/
def aboutCA : Formula :=
  .all (.name "X") (.not (.atom (.eq (.const (.name "c"))
    (.app (.name "g") [.var (.name "X"), .const (.name "a")]))))

/-- Three constants, one of which is met three times, make three axioms. -/
theorem uniqueNames_cover_threeConstants :
    UniqueNamesLayer.toldInside [aboutAB, aboutCA] =
      [aboutAB, namesDiffer (.name "b") (.name "a"), aboutCA,
        namesDiffer (.name "c") (.name "a"), namesDiffer (.name "c") (.name "b")].map .formula ∧
    (∃ pairs : List (Ident × Ident),
      (UniqueNamesLayer.toldInside [aboutAB, aboutCA]).Perm
        ([aboutAB, aboutCA].map .formula ++
          pairs.map fun p => .formula (namesDiffer p.1 p.2)) ∧
      (UniqueNamesLayer.unordered pairs).Nodup ∧
      s(Ident.name "a", Ident.name "c") ∈ UniqueNamesLayer.unordered pairs) ∧
    (∀ f, Telling.Succeeds (KnowledgeBase.tell (.formula f) : Telling ClauseBase Unit)) ∧
    ∃ k' s' known,
      (Telling.tellAll (UniqueNamesLayer.toldInside [aboutAB, aboutCA]) : Telling ClauseBase Unit)
        ({ strategy := StrategyChoice.strategy {} }, {}) = (.ok (), (k', s')) ∧
      (Telling.tellAll ([aboutAB, aboutCA].map .formula) :
        Telling (UniqueNamesLayer ClauseBase) Unit)
        ({ inner := { strategy := StrategyChoice.strategy {} } }, {}) =
          (.ok (), ({ inner := k', constants := known }, s')) := by
  have hbase : ∀ f, Telling.Succeeds (KnowledgeBase.tell (.formula f) : Telling ClauseBase Unit) :=
    fun _ _ => rfl
  obtain ⟨pairs, hperm, honce, hmem⟩ := (uniqueNames_cover_pairs [aboutAB, aboutCA]).1
  exact ⟨rfl, ⟨pairs, hperm, honce, (hmem _ _).mpr (by decide)⟩, hbase,
    (uniqueNames_cover_pairs [aboutAB, aboutCA]).2 ClauseBase hbase _ _⟩

end Clausal
