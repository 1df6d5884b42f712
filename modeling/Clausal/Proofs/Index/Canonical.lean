import Clausal.Proofs.Index.Spelling
import Mathlib.Tactic.TFAE

/-!
# Keys of terms

A term is looked up under one of two keys: the sequence of its symbols, or its ordinal form.  Both
number the variables by first appearance, and both are made in one pass.  For the symbols there is a
stack of terms, for the ordinal form a recursion over the term; either way a table of the variables
met so far is carried along, and a variable that is not in it gets the next number.

The numbers that are given early stay the same when the table grows, so it does not matter that the
table is complete only at the end.  Both keys are the same for terms that are equal up to renaming, and
for no others: a sequence of symbols can be taken apart again since each symbol says how many terms
follow it as arguments, and for the same reason no sequence goes on where another one ends.

## Main definitions

- `tabled`: the table of variables after one more has been met
- `ReadsOff`: the pass over a stack of terms that collects their symbols
- `Term.number`: the recursion that puts in the numbers of variables

## Main statements

- `readsOff_iff`, `Term.number_eq`: the two passes make the keys
- `Term.elements_isPrefix_iff`: no sequence of symbols goes on where another one ends
- `term_keys_canonical`
-/

namespace Clausal

/-! ## Section 1: The table of variables -/

/-- The variables met so far in order of first appearance, after `x` has been met. -/
def tabled (xs : List Ident) (x : Ident) : List Ident :=
  if x ∈ xs then xs else xs ++ [x]

theorem tabled_dedup (ys : List Ident) (x : Ident) : tabled (dedup ys) x = dedup (ys ++ [x]) := by
  rw [dedup_concat, tabled]
  simp [mem_dedup_iff]

/-- A variable keeps its number when further variables are met. -/
theorem idxOf_dedup_append {ys : List Ident} {x : Ident} (hx : x ∈ ys) (zs : List Ident) :
    (dedup (ys ++ zs)).idxOf x = (dedup ys).idxOf x := by
  rw [dedup_append, List.idxOf_append_of_mem (mem_dedup_iff.mpr hx)]

/-! ## Section 2: The pass over a stack -/

/-- The pass over a stack of terms, with a table of the variables met so far, ends with the symbols of
    the terms.  The first term is looked at next, and its arguments take its place. -/
inductive ReadsOff : List Ident → List Term → List Element → Prop
  | done {xs : List Ident} : ReadsOff xs [] []
  | var {xs : List Ident} {x : Ident} {ts : List Term} {es : List Element}
      (next : ReadsOff (tabled xs x) ts es) :
      ReadsOff xs (.var x :: ts) (.variable ((tabled xs x).idxOf x) :: es)
  | const {xs : List Ident} {c : Ident} {ts : List Term} {es : List Element}
      (next : ReadsOff xs ts es) : ReadsOff xs (.const c :: ts) (.constant c :: es)
  | app {xs : List Ident} {f : Ident} {as ts : List Term} {es : List Element}
      (next : ReadsOff xs (as ++ ts) es) :
      ReadsOff xs (.app f as :: ts) (.function f as.length :: es)

private theorem Term.subterms_eq (t : Term) : t.subterms = t :: t.args.flatMap subterms := by
  cases t with
  | var x => rfl
  | const c => rfl
  | app f ts => rw [subterms, subtermsList_eq_flatMap, args]

private theorem flatMap_subterms_cons (t : Term) (ts : List Term) :
    (t :: ts).flatMap Term.subterms = t :: (t.args ++ ts).flatMap Term.subterms := by
  rw [List.flatMap_cons, t.subterms_eq, List.flatMap_append, List.cons_append]

/-- The pass gives each variable its place in the table that there will be at the end. -/
theorem readsOff_iff {ys : List Ident} {ts : List Term} {es : List Element} :
    ReadsOff (dedup ys) ts es ↔
      es = (ts.flatMap Term.subterms).map (Element.ofTerm (dedup (ys ++ ts.flatMap Term.vars))) := by
  induction ts using Term.stackInduction generalizing ys es with
  | nil =>
    constructor
    · intro h
      cases h
      rfl
    · rintro rfl
      exact .done
  | cons t ts ih =>
    rw [flatMap_subterms_cons, List.map_cons]
    cases t with
    | var x =>
      have hvars : ys ++ (Term.var x :: ts).flatMap Term.vars =
          ys ++ [x] ++ ts.flatMap Term.vars := by simp [Term.vars]
      have hnumber : Element.ofTerm (dedup (ys ++ [x] ++ ts.flatMap Term.vars)) (.var x) =
          .variable ((tabled (dedup ys) x).idxOf x) := by
        rw [Element.ofTerm, idxOf_dedup_append (by simp), tabled_dedup]
      rw [hvars, hnumber]
      constructor
      · intro h
        cases h with
        | var next =>
          rw [tabled_dedup] at next
          exact congrArg _ (ih.mp next)
      · rintro rfl
        exact .var (tabled_dedup ys x ▸ ih.mpr rfl)
    | const c =>
      constructor
      · intro h
        cases h with
        | const next => exact congrArg _ (ih.mp next)
      · rintro rfl
        exact .const (ih.mpr rfl)
    | app f as =>
      have hvars : (Term.app f as :: ts).flatMap Term.vars = (as ++ ts).flatMap Term.vars := by simp
      rw [hvars]
      constructor
      · intro h
        cases h with
        | app next => exact congrArg _ (ih.mp next)
      · rintro rfl
        exact .app (ih.mpr rfl)

namespace Term

/-! ## Section 3: The recursion over a term -/

mutual

/-- A term with the numbers of its variables put in from left to right, and the table of variables
    after that. -/
def number (xs : List Ident) : Term → Term × List Ident
  | .var x => (.var (ordinalIn (tabled xs x) x), tabled xs x)
  | .const c => (.const c, xs)
  | .app f args =>
    let (us, ys) := numberList xs args
    (.app f us, ys)

/-- Several terms with the numbers of their variables put in. -/
def numberList (xs : List Ident) : List Term → List Term × List Ident
  | [] => ([], xs)
  | t :: ts =>
    let (u, ys) := number xs t
    let (us, zs) := numberList ys ts
    (u :: us, zs)

end

/-- If the recursion does its work on each of several terms, then it does so on all of them. -/
theorem numberList_eq {ts : List Term}
    (h : ∀ t ∈ ts, ∀ ys, t.number (dedup ys) =
      (t.rename (ordinalIn (dedup (ys ++ t.vars))), dedup (ys ++ t.vars))) (ys : List Ident) :
    numberList (dedup ys) ts =
      (ts.map (rename (ordinalIn (dedup (ys ++ ts.flatMap vars)))),
        dedup (ys ++ ts.flatMap vars)) := by
  induction ts generalizing ys with
  | nil => simp [numberList]
  | cons t ts ih =>
    obtain ⟨ht, hts⟩ := List.forall_mem_cons.mp h
    -- the variables of the other terms come later in the table
    have hearly : t.rename (ordinalIn (dedup (ys ++ t.vars ++ ts.flatMap vars))) =
        t.rename (ordinalIn (dedup (ys ++ t.vars))) :=
      subst_congr fun x hx => by
        rw [ordinalIn, ordinalIn, idxOf_dedup_append (List.mem_append_right ys hx)]
    simp only [numberList, ht, ih hts, List.map_cons, List.flatMap_cons, ← List.append_assoc, hearly]

/-- Once the variables `ys` have been met, the recursion renames each variable of a term to its place
    in the table that there will be at the end. -/
theorem number_eq (t : Term) (ys : List Ident) : t.number (dedup ys) =
    (t.rename (ordinalIn (dedup (ys ++ t.vars))), dedup (ys ++ t.vars)) := by
  induction t using Term.induction generalizing ys with
  | var x =>
    rw [number, tabled_dedup]
    rfl
  | const c =>
    rw [number, vars, List.append_nil]
    rfl
  | app f ts ih =>
    rw [number, numberList_eq ih, vars_app, rename, subst_app]
    rfl

/-! ## Section 4: No sequence goes on where another one ends -/

/-- Whatever follows the symbols of a term is split off. -/
theorem splitTerms_elements (t : Term) (rest : List Element) :
    splitTerms 1 (t.elements ++ rest) = (t.elements, rest) := by
  rw [elements_eq_spelling, spelling_eq_spellingList]
  exact splitTerms_spellingList [t.ordinalise] rest

theorem elements_isPrefix_iff {s t : Term} :
    s.elements <+: t.elements ↔ s.elements = t.elements := by
  constructor
  · rintro ⟨rest, hrest⟩
    -- both terms end at the same place of the longer sequence
    have hs := s.splitTerms_elements rest
    have ht := t.splitTerms_elements []
    rw [hrest] at hs
    rw [List.append_nil, hs] at ht
    exact congrArg Prod.fst ht
  · intro h
    exact h ▸ List.prefix_refl _

end Term

/-! ## Section 5: Canonical forms -/

/-- The sequence of symbols and the ordinal form of terms are canonical: terms have the same symbols,
    or the same ordinal form, exactly if a permutation of names turns one into the other.  No sequence
    of symbols is a proper prefix of another one, and the ordinal form is its own ordinal form.  Both
    are what a pass with a table of variables, empty at first, ends with. -/
theorem term_keys_canonical (s t : Term) :
    [∃ π : Equiv.Perm Ident, s.rename π = t, s.elements = t.elements,
      s.ordinalise = t.ordinalise].TFAE ∧
    (s.elements <+: t.elements ↔ s.elements = t.elements) ∧
    s.ordinalise.ordinalise = s.ordinalise ∧
    (∀ es, ReadsOff [] [s] es ↔ es = s.elements) ∧
    s.number [] = (s.ordinalise, dedup s.vars) := by
  refine ⟨?_, Term.elements_isPrefix_iff, ?_, fun es => ?_, s.number_eq []⟩
  · tfae_have 1 ↔ 2 := Term.renamesTo_iff_exists_perm.symm.trans Term.elements_eq_iff.symm
    tfae_have 1 ↔ 3 := Term.renamesTo_iff_exists_perm.symm.trans Term.ordinalise_eq_iff.symm
    tfae_finish
  · exact Term.ordinalise_eq_iff.mpr s.renamesTo_ordinalise.symm
  · have hstack : [s].flatMap Term.subterms = s.subterms ∧ [s].flatMap Term.vars = s.vars := by simp
    rw [Term.elements, ← hstack.1, ← hstack.2]
    exact @readsOff_iff [] [s] es

end Clausal
