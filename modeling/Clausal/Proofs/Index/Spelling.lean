import Clausal.Index.Path
import Clausal.Proofs.Ordinal
import Clausal.Proofs.Term

/-!
# Terms as sequences of symbols

The symbols of a term, read from the outside in and from left to right, together with their numbers
of arguments, tell where the term ends and which term it is.  Sequences are read with a stack of terms
in mind: the first symbol is that of the first term, and its arguments take the place of that term.

## Main definitions

- `Term.spelling`, `spellingList`: the symbols of terms whose variables are numbered
- `Spells`: a sequence of symbols spells a number of terms, no more and no less

## Main statements

- `Term.stackInduction`: induction on a stack of terms
- `spellingList_inj`: a sequence of symbols spells one stack of terms only
- `splitTerms_spellingList`: terms are split off where they end
- `Term.elements_eq_iff`: terms have the same symbols if they are renamings of each other
- `Term.matchList?_cons`: matching, read symbol by symbol
-/

namespace Clausal

/-! ## Section 1: Stacks of terms -/

namespace Term

/-- Induction on a stack of terms, where the first one makes room for its arguments. -/
@[elab_as_elim]
theorem stackInduction {P : List Term → Prop} (nil : P [])
    (cons : ∀ t ts, P (t.args ++ ts) → P (t :: ts)) (ts : List Term) : P ts := by
  have hpush : ∀ t : Term, ∀ ts, P ts → P (t :: ts) := by
    intro t
    induction t using Term.induction with
    | var x => exact fun ts h => cons _ ts h
    | const c => exact fun ts h => cons _ ts h
    | app f as ih =>
      intro ts h
      apply cons
      show P (as ++ ts)
      induction as with
      | nil => exact h
      | cons a as ih' =>
        exact ih a List.mem_cons_self _ (ih' fun b hb => ih b (List.mem_cons_of_mem _ hb))
  induction ts with
  | nil => exact nil
  | cons t ts ih => exact hpush t ts ih

theorem arity_ordinalElement (t : Term) : t.ordinalElement.arity = t.args.length := by
  cases t with
  | var x => cases x <;> rfl
  | const c => rfl
  | app f ts => rfl

theorem Numbered.args {t : Term} (h : t.Numbered) {a : Term} (ha : a ∈ t.args) : a.Numbered := by
  cases t with
  | var x => simp [Term.args] at ha
  | const c => simp [Term.args] at ha
  | app f ts =>
    intro x hx
    exact h x (by simpa using ⟨a, ha, hx⟩)

/-- The numbered terms of a stack, after the first one has made room for its arguments. -/
theorem Numbered.push {t : Term} {ts : List Term} (h : ∀ u ∈ t :: ts, u.Numbered) :
    ∀ u ∈ t.args ++ ts, u.Numbered := by
  rw [List.forall_mem_cons] at h
  rw [List.forall_mem_append]
  exact ⟨fun u hu => h.1.args hu, h.2⟩

/-- A numbered term is known by its outermost symbol and its arguments. -/
theorem Numbered.eq {s t : Term} (hs : s.Numbered) (ht : t.Numbered)
    (hsymbol : s.ordinalElement = t.ordinalElement) (hargs : s.args = t.args) : s = t := by
  cases s with
  | var x =>
    obtain ⟨n, rfl⟩ := hs x (by simp [vars])
    cases t with
    | var y =>
      obtain ⟨m, rfl⟩ := ht y (by simp [vars])
      have hnm : (n : Int).toNat = (m : Int).toNat := Element.variable.inj hsymbol
      obtain rfl : n = m := by omega
      rfl
    | const c => simp [ordinalElement] at hsymbol
    | app g us => simp [ordinalElement] at hsymbol
  | const c =>
    cases t with
    | var y =>
      obtain ⟨m, rfl⟩ := ht y (by simp [vars])
      simp [ordinalElement] at hsymbol
    | const d => exact congrArg Term.const (Element.constant.inj hsymbol)
    | app g us => simp [ordinalElement] at hsymbol
  | app f ts =>
    cases t with
    | var y =>
      obtain ⟨m, rfl⟩ := ht y (by simp [vars])
      simp [ordinalElement] at hsymbol
    | const d => simp [ordinalElement] at hsymbol
    | app g us =>
      obtain ⟨rfl, -⟩ := Element.function.inj hsymbol
      exact congrArg (Term.app f) hargs

/-! ## Section 2: Spelling -/

/-- The symbols of a term whose variables are numbered. -/
def spelling (t : Term) : List Element :=
  t.subterms.map ordinalElement

end Term

/-- The symbols of several terms. -/
def spellingList (ts : List Term) : List Element :=
  ts.flatMap Term.spelling

@[simp]
theorem spellingList_nil : spellingList [] = [] := rfl

theorem spellingList_append (ss ts : List Term) :
    spellingList (ss ++ ts) = spellingList ss ++ spellingList ts :=
  List.flatMap_append

theorem Term.spelling_eq (t : Term) : t.spelling = t.ordinalElement :: spellingList t.args := by
  cases t with
  | var x => rfl
  | const c => rfl
  | app f ts =>
    rw [spelling, subterms, subtermsList_eq_flatMap, List.map_cons, List.map_flatMap]
    rfl

/-- The first symbol is that of the first term, whose arguments come next. -/
theorem spellingList_cons (t : Term) (ts : List Term) :
    spellingList (t :: ts) = t.ordinalElement :: spellingList (t.args ++ ts) := by
  rw [spellingList, List.flatMap_cons, t.spelling_eq, spellingList_append, List.cons_append]
  rfl

theorem Term.spelling_eq_spellingList (t : Term) : t.spelling = spellingList [t] := by
  simp [spellingList]

/-- A sequence of symbols spells one stack of terms only. -/
theorem spellingList_inj {ss ts : List Term} (hs : ∀ s ∈ ss, s.Numbered)
    (ht : ∀ t ∈ ts, t.Numbered) (h : spellingList ss = spellingList ts) : ss = ts := by
  induction ss using Term.stackInduction generalizing ts with
  | nil =>
    cases ts with
    | nil => rfl
    | cons t ts => simp [spellingList_cons] at h
  | cons s ss ih =>
    cases ts with
    | nil => simp [spellingList_cons] at h
    | cons t ts =>
      rw [spellingList_cons, spellingList_cons] at h
      obtain ⟨hsymbol, hrest⟩ := List.cons.inj h
      have hstack := ih (Term.Numbered.push hs) (Term.Numbered.push ht) hrest
      -- equal symbols have as many arguments, so the two stacks are equal piece by piece
      have hlength : s.args.length = t.args.length := by
        rw [← s.arity_ordinalElement, ← t.arity_ordinalElement, hsymbol]
      obtain ⟨hargs, rfl⟩ := List.append_inj hstack hlength
      rw [(hs s List.mem_cons_self).eq (ht t List.mem_cons_self) hsymbol hargs]

theorem Term.Numbered.spelling_inj {s t : Term} (hs : s.Numbered) (ht : t.Numbered) :
    s.spelling = t.spelling ↔ s = t := by
  constructor
  · intro h
    rw [s.spelling_eq_spellingList, t.spelling_eq_spellingList] at h
    have hstack : [s] = [t] := spellingList_inj (by simpa using hs) (by simpa using ht) h
    simpa using hstack
  · rintro rfl
    rfl

/-! ## Section 3: Where terms end -/

/-- A sequence of symbols spells `n` terms, no more and no less. -/
def Spells : Nat → List Element → Prop
  | 0, es => es = []
  | _ + 1, [] => False
  | n + 1, e :: es => Spells (n + e.arity) es

@[simp]
theorem spells_zero {es : List Element} : Spells 0 es ↔ es = [] := by
  cases es <;> simp [Spells]

theorem Spells.open_eq_zero {n : Nat} (h : Spells n []) : n = 0 := by
  cases n with
  | zero => rfl
  | succ n => exact h.elim

theorem Spells.open_pos {n : Nat} {e : Element} {es : List Element} (h : Spells n (e :: es)) :
    0 < n := by
  cases n with
  | zero => simp at h
  | succ n => exact Nat.succ_pos n

private theorem spells_spellingList (ts : List Term) : Spells ts.length (spellingList ts) := by
  induction ts using Term.stackInduction with
  | nil => rfl
  | cons t ts ih =>
    rw [spellingList_cons, List.length_cons]
    show Spells (ts.length + t.ordinalElement.arity) _
    rwa [t.arity_ordinalElement, Nat.add_comm, ← List.length_append]

/-- Terms are split off where they end. -/
theorem splitTerms_spellingList (ts : List Term) (rest : List Element) :
    splitTerms ts.length (spellingList ts ++ rest) = (spellingList ts, rest) := by
  induction ts using Term.stackInduction with
  | nil => simp [splitTerms]
  | cons t ts ih =>
    rw [spellingList_cons, List.length_cons, List.cons_append, splitTerms,
      t.arity_ordinalElement, Nat.add_comm, ← List.length_append, ih]

/-! ## Section 4: Elements -/

namespace Term

private theorem subterms_rename (ρ : Ident → Ident) (t : Term) :
    (t.rename ρ).subterms = t.subterms.map (rename ρ) := by
  induction t using Term.induction with
  | var x => rfl
  | const c => rfl
  | app f ts ih =>
    simp only [rename, subst_app, subterms, subtermsList_eq_flatMap, List.map_cons,
      List.flatMap_map, List.map_flatMap]
    congr 1
    exact List.flatMap_congr ih

/-- The elements of a term spell its ordinal form. -/
theorem elements_eq_spelling (t : Term) : t.elements = t.ordinalise.spelling := by
  have hordinalise : t.ordinalise = t.rename (ordinalIn (dedup t.vars)) := rfl
  rw [hordinalise, spelling, subterms_rename, List.map_map, elements]
  refine List.map_congr_left fun s _ => ?_
  cases s with
  | var x => rfl
  | const c => rfl
  | app f ts => simp [rename, Element.ofTerm, ordinalElement]

/-- Terms have the same elements if and only if they are renamings of each other. -/
theorem elements_eq_iff {s t : Term} : s.elements = t.elements ↔ s.RenamesTo t := by
  rw [elements_eq_spelling, elements_eq_spelling,
    s.numbered_ordinalise.spelling_inj t.numbered_ordinalise, ordinalise_eq_iff]

theorem spells_elements (t : Term) : Spells 1 t.elements := by
  rw [elements_eq_spelling, spelling_eq_spellingList]
  exact spells_spellingList [t.ordinalise]

/-! ## Section 5: Matching symbol by symbol -/

private theorem matchList?_append (σ : Substitution) {as bs : List Term} (h : as.length = bs.length)
    (ss ts : List Term) : matchList? σ (as ++ ss) (bs ++ ts) =
      (matchList? σ as bs).bind fun τ => matchList? τ ss ts := by
  induction as generalizing σ bs with
  | nil =>
    obtain rfl : bs = [] := by simpa using h.symm
    simp [matchList?]
  | cons a as ih =>
    cases bs with
    | nil => simp at h
    | cons b bs =>
      rw [List.cons_append, List.cons_append, matchList?, matchList?]
      cases match? σ a b with
      | none => rfl
      | some τ => exact ih τ (by simpa using h)

/-- A term other than a variable matches a term with the same symbol, if the arguments match. -/
theorem matchList?_cons (σ : Substitution) {q : Term} (hq : q.isVar = false) (k : Term)
    (qs ks : List Term) : matchList? σ (q :: qs) (k :: ks) =
      if k.ordinalElement = q.ordinalElement then matchList? σ (q.args ++ qs) (k.args ++ ks)
      else none := by
  cases q with
  | var x => simp [isVar] at hq
  | const c =>
    cases k with
    | var y => cases y <;> simp [matchList?, match?, ordinalElement]
    | const d => by_cases h : d = c <;> simp [matchList?, match?, ordinalElement, args, h]
    | app g us => simp [matchList?, match?, ordinalElement]
  | app f ts =>
    cases k with
    | var y => cases y <;> simp [matchList?, match?, ordinalElement]
    | const d => simp [matchList?, match?, ordinalElement]
    | app g us =>
      by_cases h : f = g ∧ ts.length = us.length
      · obtain ⟨rfl, hlength⟩ := h
        rw [matchList?, match?, if_pos ⟨rfl, hlength⟩, if_pos (by simp [ordinalElement, hlength])]
        show _ = matchList? σ (ts ++ qs) (us ++ ks)
        rw [matchList?_append σ hlength]
        cases matchList? σ ts us <;> rfl
      · rw [matchList?, match?, if_neg h, if_neg]
        rintro heq
        obtain ⟨rfl, hlength⟩ := Element.function.inj heq
        exact h ⟨rfl, hlength.symm⟩

end Term

end Clausal
