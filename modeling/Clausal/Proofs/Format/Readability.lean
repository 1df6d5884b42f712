import Clausal.Part
import Clausal.Proofs.Format.Label
import Clausal.Proofs.Term
import Clausal.Proofs.Tptp.Scanning

/-!
# Formatted formulas can be read in one way only

Formatting puts brackets around binary and quantified formulas, and around an equation under a
negation.  Atoms and all other negations stand without them, and a symbol without arguments has no
parentheses.  Still a text belongs to one formula only, if names contain none of the characters that
formulas are put together with, and if the roles of the names are known.

The proof reads a text from the left.  What is read may be followed by more, as long as that cannot
be taken for a part of it: a name ends at the first sign, a term is not followed by an opening
parenthesis, and a formula is followed by a closing bracket or a connective, never by the sign of
equality.  The first one or two characters tell which kind of formula is to be read.

## Main definitions

- `Term.written`, `Formula.written`: the characters of a formatted term or formula
- `Part.isPlain`, `RolesApart`: conditions on names
- `scopeAfter`: the scope of a formatter that has been used before
- `Term.Reads`, `Formula.Reads`: texts that can be read in one way only, whatever follows them

## Main statements

- `Formula.format_writes`: formatting gives the written form
- `Node.format_keeps`: what every label keeps, formatting keeps
- `Term.reads`, `Formula.reads`: written forms can be read in one way only
- `format_unambiguous`: no two formulas have the same text
-/

namespace Clausal

open Tptp

/-! ## Section 1: Written forms -/

mutual

/-- The characters of a formatted term whose names are written as they are. -/
def Term.written : Term → List Char
  | .var x => x.text.toList
  | .const c => c.text.toList
  | .app f args => f.text.toList ++ Term.writtenArgs args

/-- The arguments in parentheses, if there are any. -/
def Term.writtenArgs : List Term → List Char
  | [] => []
  | t :: ts => '(' :: (Term.written t ++ Term.writtenTail ts)

/-- The arguments after the first and the closing parenthesis. -/
def Term.writtenTail : List Term → List Char
  | [] => [')']
  | t :: ts => ',' :: ' ' :: (Term.written t ++ Term.writtenTail ts)

end

/-- The characters of a formatted atom. -/
def Atom.written : Atom → List Char
  | .pred p args => (Term.app p args).written
  | .eq l r => l.written ++ ' ' :: '=' :: ' ' :: r.written

/-- The characters of a formatted formula. -/
def Formula.written : Formula → List Char
  | .atom a => a.written
  | .not f => '¬' :: if f.isEquation then '[' :: (f.written ++ [']']) else f.written
  | .and f g => '[' :: (f.written ++ ' ' :: '∧' :: ' ' :: (g.written ++ [']']))
  | .or f g => '[' :: (f.written ++ ' ' :: '∨' :: ' ' :: (g.written ++ [']']))
  | .imp f g => '[' :: (f.written ++ ' ' :: '⇒' :: ' ' :: (g.written ++ [']']))
  | .iff f g => '[' :: (f.written ++ ' ' :: '⇔' :: ' ' :: (g.written ++ [']']))
  | .all x f => '[' :: '∀' :: ' ' :: (x.text.toList ++ ',' :: ' ' :: (f.written ++ [']']))
  | .ex x f => '[' :: '∃' :: ' ' :: (x.text.toList ++ ',' :: ' ' :: (f.written ++ [']']))

/-- Whether a character is used to put formulas together. -/
def isSign (c : Char) : Bool :=
  [' ', ',', '(', ')', '[', ']', '=', '¬', '∧', '∨', '⇒', '⇔', '∀', '∃'].contains c

/-- Whether a character may stand in a name. -/
def isNameChar (c : Char) : Bool :=
  !isSign c

/-- Whether an identifier is a text that may stand as a name. -/
def Ident.isPlainText : Ident → Bool
  | .name s => s.toList.all isNameChar
  | _ => false

/-- Whether the symbol of a part, if it has one, is a text that may stand as a name. -/
def Part.isPlain : Part → Bool
  | .term (.var i) | .term (.const i) | .term (.app i _) | .formula (.atom (.pred i _)) =>
    i.isPlainText
  | .formula _ => true

/-- The identifier of a variable, a constant, or a function without arguments. -/
def Part.leafName? : Part → Option Ident
  | .term (.var x) => some x
  | .term (.const c) => some c
  | .term (.app f []) => some f
  | _ => none

/-- No identifier is used for two of variables, constants, and functions without arguments. -/
def RolesApart (ps : List Part) : Prop :=
  ∀ p ∈ ps, ∀ q ∈ ps, p.leafName? ≠ none → p.leafName? = q.leafName? → p.kind = q.kind

/-! ## Section 2: Formatting gives the written form -/

namespace LabelScope

/-- A scope in which texts are their own labels. -/
inductive ByText : LabelScope → Prop
  | intro (standard skolem : LabelScope) : ByText (.byKind .plain .plain standard skolem)

private theorem ByText.start (labels : List String) : (defaultLabeller labels).scope.ByText :=
  .intro _ _

theorem ByText.label {s : LabelScope} (h : s.ByText) (i : Scalar) : (s.label i).2.ByText := by
  obtain ⟨standard, skolem⟩ := h
  rcases i with (_ | _ | _ | _ | _ | _) | _ | _ <;> exact .intro _ _

end LabelScope

/-- The computation gives the text and leaves the labels as they are. -/
def Labelling.Writes (m : Labelling String) (cs : List Char) : Prop :=
  ∀ s : LabelScope, s.ByText → m s = (.ok (String.ofList cs), s)

theorem labelOf_writes {i : Ident} (h : i.isPlainText) : (labelOf i).Writes i.text.toList := by
  rintro _ ⟨standard, skolem⟩
  cases i with
  | name t =>
    rw [String.ofList_toList]
    rfl
  | _ => cases h

private theorem Term.formatList_eq_ok {ts : List Term} (h : ∀ t ∈ ts, t.format.Writes t.written)
    {s : LabelScope} (hs : s.ByText) :
    Term.formatList ts s = (.ok (ts.map fun t => String.ofList t.written), s) := by
  induction ts with
  | nil => rfl
  | cons t ts ih =>
    rw [List.forall_mem_cons] at h
    exact Labelling.bind_eq_ok.mpr ⟨_, s, h.1 s hs, Labelling.bind_eq_ok.mpr ⟨_, s, ih h.2, rfl⟩⟩

/-- Arguments with commas between them are the first one and what follows it. -/
theorem Term.intercalate_written (t : Term) (ts : List Term) :
    (", ".intercalate ((t :: ts).map fun t => String.ofList t.written)).toList ++ [')'] =
      t.written ++ Term.writtenTail ts := by
  induction ts generalizing t with
  | nil => simp [writtenTail]
  | cons u ts ih =>
    have hu := ih u
    simp only [List.map_cons] at hu
    simp [writtenTail, ← hu]

theorem Term.format_app_writes {f : Ident} {args : List Term} (hf : f.isPlainText)
    (hargs : ∀ t ∈ args, t.format.Writes t.written) :
    (Term.app f args).format.Writes (Term.app f args).written := by
  intro s hs
  refine Labelling.bind_eq_ok.mpr ⟨_, s, labelOf_writes hf s hs,
    Labelling.bind_eq_ok.mpr ⟨_, s, formatList_eq_ok hargs hs, ?_⟩⟩
  refine Labelling.pure_eq_ok.mpr ⟨?_, rfl⟩
  cases args with
  | nil => simp [written, writtenArgs]
  | cons t ts =>
    rw [← String.toList_inj]
    simp [written, writtenArgs, ← intercalate_written]

private theorem Term.format_writes {t : Term} (h : ∀ p ∈ t.parts, p.isPlain) :
    t.format.Writes t.written := by
  induction t using Term.induction with
  | var x => exact labelOf_writes (h (.term (.var x)) (List.mem_singleton_self _))
  | const c => exact labelOf_writes (h (.term (.const c)) (List.mem_singleton_self _))
  | app f args ih =>
    rw [parts_app, List.forall_mem_cons, List.forall_mem_flatMap] at h
    exact format_app_writes h.1 fun t ht => ih t ht (h.2 t ht)

private theorem Atom.format_writes {a : Atom} (h : ∀ p ∈ (Formula.atom a).parts, p.isPlain) :
    a.format.Writes a.written := by
  rw [Formula.parts, List.forall_mem_cons, List.forall_mem_flatMap] at h
  cases a with
  | pred p args => exact Term.format_app_writes h.1 fun t ht => Term.format_writes (h.2 t ht)
  | eq l r =>
    intro s hs
    have hl := Term.format_writes (h.2 l (by simp [args]))
    have hr := Term.format_writes (h.2 r (by simp [args]))
    refine Labelling.bind_eq_ok.mpr ⟨_, s, hl s hs, Labelling.bind_eq_ok.mpr ⟨_, s, hr s hs, ?_⟩⟩
    refine Labelling.pure_eq_ok.mpr ⟨?_, rfl⟩
    rw [← String.toList_inj]
    simp [written]

/-- Formatting a formula with plain names gives its written form. -/
theorem Formula.format_writes {F : Formula} (h : ∀ p ∈ F.parts, p.isPlain) :
    F.format.Writes F.written := by
  induction F with
  | atom a => exact Atom.format_writes h
  | not f ih =>
    rw [parts, List.forall_mem_cons] at h
    intro s hs
    refine Labelling.bind_eq_ok.mpr ⟨_, s, ih h.2 s hs, Labelling.pure_eq_ok.mpr ⟨?_, rfl⟩⟩
    rw [← String.toList_inj]
    by_cases hf : f.isEquation <;> simp [written, hf]
  | and f g ihf ihg | or f g ihf ihg | imp f g ihf ihg | iff f g ihf ihg =>
    rw [parts, List.forall_mem_cons, List.forall_mem_append] at h
    intro s hs
    refine Labelling.bind_eq_ok.mpr ⟨_, s, ihf h.2.1 s hs,
      Labelling.bind_eq_ok.mpr ⟨_, s, ihg h.2.2 s hs, Labelling.pure_eq_ok.mpr ⟨?_, rfl⟩⟩⟩
    rw [← String.toList_inj]
    simp [written]
  | all x f ih | ex x f ih =>
    rw [parts, List.forall_mem_cons, List.forall_mem_cons] at h
    intro s hs
    refine Labelling.bind_eq_ok.mpr ⟨_, s, labelOf_writes h.2.1 s hs,
      Labelling.bind_eq_ok.mpr ⟨_, s, ih h.2.2 s hs, Labelling.pure_eq_ok.mpr ⟨?_, rfl⟩⟩⟩
    rw [← String.toList_inj]
    simp [written]

/-! ## Section 3: Formatting other nodes -/

namespace Labelling

variable {α β : Type} {P : LabelScope → Prop}

/-- What holds of the scope before the computation holds after it, whether it fails or not. -/
def Keeps (P : LabelScope → Prop) (m : Labelling α) : Prop :=
  ∀ s, P s → P (m s).2

theorem Keeps.pure (a : α) : Keeps P (pure a) :=
  fun _ h => h

theorem Keeps.bind {m : Labelling α} {f : α → Labelling β} (hm : Keeps P m)
    (hf : ∀ a, Keeps P (f a)) : Keeps P (m >>= f) := by
  intro s hs
  have hbind : (m >>= f) s = ExceptT.bindCont f (m s).1 (m s).2 := rfl
  have hrest := hm s hs
  rw [hbind]
  cases (m s).1 with
  | error e => exact hrest
  | ok a => exact hf a _ hrest

theorem Keeps.mapM {f : α → Labelling β} {l : List α} (h : ∀ a ∈ l, Keeps P (f a)) :
    Keeps P (l.mapM f) := by
  induction l with
  | nil => exact .pure []
  | cons a l ih =>
    rw [List.forall_mem_cons] at h
    rw [List.mapM_cons]
    exact h.1.bind fun b => (ih h.2).bind fun bs => .pure _

end Labelling

section Keeps

open Labelling

variable {P : LabelScope → Prop}

private theorem Term.formatList_eq_mapM (ts : List Term) : formatList ts = ts.mapM format := by
  induction ts with
  | nil => rfl
  | cons t ts ih => rw [formatList, ih, List.mapM_cons]

theorem Term.format_keeps (h : ∀ s i, P s → P (s.label (.ident i)).2) (t : Term) :
    Keeps P t.format := by
  have hlabel : ∀ i, Keeps P (labelOf i) := fun i s hs => h s i hs
  induction t using Term.induction with
  | var x => exact hlabel x
  | const c => exact hlabel c
  | app f args ih =>
    rw [format, formatList_eq_mapM]
    exact (hlabel f).bind fun l => (Keeps.mapM ih).bind fun texts => .pure _

theorem Atom.format_keeps (h : ∀ s i, P s → P (s.label (.ident i)).2) (a : Atom) :
    Keeps P a.format := by
  cases a with
  | pred p args => exact Term.format_keeps h _
  | eq l r => exact (l.format_keeps h).bind fun _ => (r.format_keeps h).bind fun _ => .pure _

theorem Formula.format_keeps (h : ∀ s i, P s → P (s.label (.ident i)).2) (F : Formula) :
    Keeps P F.format := by
  have hlabel : ∀ i, Keeps P (labelOf i) := fun i s hs => h s i hs
  induction F with
  | atom a => exact a.format_keeps h
  | not f ih => exact ih.bind fun _ => .pure _
  | and f g ihf ihg | or f g ihf ihg | imp f g ihf ihg | iff f g ihf ihg =>
    exact ihf.bind fun _ => ihg.bind fun _ => .pure _
  | all x f ih | ex x f ih => exact (hlabel x).bind fun _ => ih.bind fun _ => .pure _

private theorem Clause.format_keeps (h : ∀ s i, P s → P (s.label (.ident i)).2) (c : Clause) :
    Keeps P c.format := by
  have hrule : ∀ d : DefiniteClause, Keeps P d.format := fun d =>
    (Keeps.mapM fun a _ => a.format_keeps h).bind fun _ => (d.head.format_keeps h).bind fun _ =>
      .pure _
  have hdisjunction : Keeps P c.formatDisjunction := by
    unfold formatDisjunction
    split
    · exact .pure _
    · exact (Keeps.mapM fun l _ => l.formula.format_keeps h).bind fun _ => .pure _
  unfold format
  split
  · exact hrule _
  · exact hdisjunction

/-- What every label keeps, formatting keeps. -/
theorem Node.format_keeps (h : ∀ s i, P s → P (s.label i).2) (n : Node) : Keeps P n.format := by
  have hident : ∀ s i, P s → P (s.label (.ident i)).2 := fun s i => h s (.ident i)
  cases n with
  | term t => exact t.format_keeps hident
  | formula f => exact f.format_keeps hident
  | literal l => exact l.formula.format_keeps hident
  | clause c => exact c.format_keeps hident
  | cnf c => exact (Keeps.mapM fun d _ => Clause.format_keeps hident d).bind fun _ => .pure _
  | scalar i => exact fun s hs => h s i hs

end Keeps

/-- The scope of a formatter with the default labeller that has formatted the given nodes. -/
def scopeAfter (labels : List String) (ns : List Node) : LabelScope :=
  ns.foldl (fun s n => (n.format s).2) (defaultLabeller labels).scope

private theorem scopeAfter_byText (labels : List String) (ns : List Node) :
    (scopeAfter labels ns).ByText := by
  have hfold : ∀ s : LabelScope, s.ByText → (ns.foldl (fun s n => (n.format s).2) s).ByText := by
    induction ns with
    | nil => exact fun s hs => hs
    | cons n ns ih => exact fun s hs => ih _ (n.format_keeps (fun _ i h => h.label i) s hs)
  exact hfold _ (.start labels)

/-! ## Section 4: Reading terms -/

/-- Whether a character after a term makes a longer term of it. -/
def extendsTerm (c : Char) : Bool :=
  isNameChar c || c == '('

theorem ends_name_of_ends_term {r : List Char} (h : Ends extendsTerm r) : Ends isNameChar r := by
  intro c hc
  have := h c hc
  simp_all [extendsTerm]

/-- A name ends where the first other character is. -/
theorem name_split {i j : Ident} {r r' : List Char} (hi : i.isPlainText) (hj : j.isPlainText)
    (hr : Ends isNameChar r) (hr' : Ends isNameChar r')
    (h : i.text.toList ++ r = j.text.toList ++ r') : i = j ∧ r = r' := by
  cases i <;> cases j <;> simp only [Ident.isPlainText, Bool.false_eq_true, List.all_eq_true] at hi hj
  case name.name s t =>
    have hs : s.toList = t.toList := by
      rw [← hr.takeWhile hi, ← hr'.takeWhile hj]
      exact congrArg _ h
    have hrest : r = r' := by
      rw [← hr.dropWhile hi, ← hr'.dropWhile hj]
      exact congrArg _ h
    exact ⟨congrArg Ident.name (String.toList_inj.mp hs), hrest⟩

/-- The parts have plain names, and no name has two roles. -/
structure Legible (ps : List Part) : Prop where
  plain : ∀ p ∈ ps, p.isPlain
  apart : RolesApart ps

/-- Wherever the written form of the term stands, it cannot be read as that of another term. -/
def Term.Reads (ps : List Part) (t : Term) : Prop :=
  ∀ (u : Term) (r r' : List Char), u.parts ⊆ ps → Ends extendsTerm r → Ends extendsTerm r' →
    t.written ++ r = u.written ++ r' → t = u ∧ r = r'

section Terms

variable {ps : List Part}

theorem Term.ends_writtenTail (ts : List Term) (r : List Char) :
    Ends extendsTerm (writtenTail ts ++ r) := by
  cases ts with
  | nil => exact ends_cons.mpr (by decide)
  | cons t ts => exact ends_cons.mpr (by decide)

private theorem Term.ends_writtenArgs (ts : List Term) {r : List Char} (hr : Ends extendsTerm r) :
    Ends isNameChar (writtenArgs ts ++ r) := by
  cases ts with
  | nil => exact ends_name_of_ends_term hr
  | cons t ts => exact ends_cons.mpr (by decide)

theorem Term.writtenTail_split {ts us : List Term} {r r' : List Char} (hts : ∀ t ∈ ts, t.Reads ps)
    (hus : us.flatMap parts ⊆ ps) (h : writtenTail ts ++ r = writtenTail us ++ r') :
    ts = us ∧ r = r' := by
  induction ts generalizing us with
  | nil =>
    cases us with
    | nil => simpa [writtenTail] using h
    | cons u us => simp [writtenTail] at h
  | cons t ts ih =>
    cases us with
    | nil => simp [writtenTail] at h
    | cons u us =>
      rw [List.forall_mem_cons] at hts
      rw [List.flatMap_cons, List.append_subset] at hus
      simp only [writtenTail, List.cons_append, List.cons.injEq, true_and, List.append_assoc] at h
      obtain ⟨rfl, hrest⟩ := hts.1 u _ _ hus.1 (ends_writtenTail ts r) (ends_writtenTail us r') h
      obtain ⟨rfl, rfl⟩ := ih hts.2 hus.2 hrest
      exact ⟨rfl, rfl⟩

/-- A name and its arguments can be told apart, and so can two lists of arguments. -/
theorem Term.application_split {i j : Ident} {ts us : List Term} {r r' : List Char}
    (hi : i.isPlainText) (hj : j.isPlainText) (hts : ∀ t ∈ ts, t.Reads ps)
    (hus : us.flatMap parts ⊆ ps) (hr : Ends extendsTerm r) (hr' : Ends extendsTerm r')
    (h : i.text.toList ++ writtenArgs ts ++ r = j.text.toList ++ writtenArgs us ++ r') :
    i = j ∧ ts = us ∧ r = r' := by
  rw [List.append_assoc, List.append_assoc] at h
  obtain ⟨rfl, hrest⟩ :=
    name_split hi hj (ends_writtenArgs ts hr) (ends_writtenArgs us hr') h
  cases ts with
  | nil =>
    cases us with
    | nil => exact ⟨rfl, rfl, hrest⟩
    | cons u us =>
      -- the rest would go on with the arguments
      obtain rfl : r = _ := hrest
      simp [writtenArgs, extendsTerm] at hr
  | cons t ts =>
    cases us with
    | nil =>
      obtain rfl : _ = r' := hrest
      simp [writtenArgs, extendsTerm] at hr'
    | cons u us =>
      rw [List.forall_mem_cons] at hts
      rw [List.flatMap_cons, List.append_subset] at hus
      simp only [writtenArgs, List.cons_append, List.cons.injEq, true_and, List.append_assoc] at hrest
      obtain ⟨rfl, htail⟩ := hts.1 u _ _ hus.1 (ends_writtenTail ts r) (ends_writtenTail us r') hrest
      obtain ⟨rfl, rfl⟩ := writtenTail_split hts.2 hus.2 htail
      exact ⟨rfl, rfl, rfl⟩

/-- The symbol at the head of a term. -/
def Term.head : Term → Ident
  | .var i | .const i | .app i _ => i

theorem Term.written_eq (t : Term) : t.written = t.head.text.toList ++ writtenArgs t.args := by
  cases t <;> simp [written, writtenArgs, head, args]

theorem Term.isPlainText_head {t : Term} (h : (Part.term t).isPlain) : t.head.isPlainText := by
  cases t <;> exact h

/-- Terms with one symbol and the same arguments are equal, unless the symbol has two roles. -/
theorem Term.eq_of_head_of_args (hps : RolesApart ps) {t u : Term} (ht : .term t ∈ ps)
    (hu : .term u ∈ ps) (hhead : t.head = u.head) (hargs : t.args = u.args) : t = u := by
  have hleaf : ∀ v : Term, v.args = [] → (Part.term v).leafName? = some v.head := by
    intro v hv
    cases v <;> simp_all [args, head, Part.leafName?]
  have hkind : (Part.term t).kind = (Part.term u).kind := by
    cases hts : t.args with
    | nil =>
      have htleaf := hleaf t hts
      have huleaf := hleaf u (hargs ▸ hts)
      exact hps _ ht _ hu (by simp [htleaf]) (by rw [htleaf, huleaf, hhead])
    | cons a as =>
      -- only functions have arguments
      have hfunction : ∀ v : Term, v.args ≠ [] → (Part.term v).kind = .function := by
        intro v hv
        cases v <;> first | rfl | exact absurd rfl hv
      rw [hfunction t (by simp [hts]), hfunction u (by simp [← hargs, hts])]
  cases t <;> cases u <;> cases hkind <;> cases hhead <;> cases hargs <;> rfl

theorem Term.reads (hps : Legible ps) {t : Term} (ht : t.parts ⊆ ps) : t.Reads ps := by
  have hstep : ∀ t : Term, t.parts ⊆ ps → (∀ a ∈ t.args, a.Reads ps) → t.Reads ps := by
    intro t ht hargs u r r' hu hr hr' h
    have htmem := ht t.mem_parts_self
    have humem := hu u.mem_parts_self
    rw [written_eq, written_eq u] at h
    obtain ⟨hhead, hargs, hrest⟩ := application_split (isPlainText_head (hps.plain _ htmem))
      (isPlainText_head (hps.plain _ humem)) hargs (List.Subset.trans u.parts_args_subset hu) hr hr' h
    exact ⟨eq_of_head_of_args hps.apart htmem humem hhead hargs, hrest⟩
  induction t using Term.induction with
  | var x => exact hstep _ ht nofun
  | const c => exact hstep _ ht nofun
  | app f args ih =>
    have hargs := List.Subset.trans (parts_args_subset (.app f args)) ht
    refine hstep _ ht fun a ha => ih a ha ?_
    exact fun p hp => hargs (List.mem_flatMap.mpr ⟨a, ha, hp⟩)

end Terms

/-! ## Section 5: Reading formulas -/

/-- What may stand after a formula: nothing, a closing bracket, or a connective. -/
inductive Closes : List Char → Prop
  | nil : Closes []
  | bracket (r : List Char) : Closes (']' :: r)
  | connective {c : Char} (h : c ≠ '=') (r : List Char) : Closes (' ' :: c :: r)

theorem Closes.ends {r : List Char} (h : Closes r) : Ends extendsTerm r := by
  cases h with
  | nil => exact ends_nil _
  | bracket r => exact ends_cons.mpr (by decide)
  | connective h r => exact ends_cons.mpr (by decide)

/-- Whether a formula that is no atom may begin with a character, or go on with it after a bracket. -/
def isOpening (c : Char) : Bool :=
  ['¬', '[', '∀', '∃'].contains c

private theorem Closes.ends_opening {r : List Char} (h : Closes r) : Ends isOpening r := by
  cases h with
  | nil => exact ends_nil _
  | bracket r => exact ends_cons.mpr (by decide)
  | connective h r => exact ends_cons.mpr (by decide)

/-- The formula joins two others by a connective, which is written as the given sign. -/
inductive Formula.Binary : Char → Formula → Formula → Formula → Prop
  | and (f g : Formula) : Binary '∧' f g (.and f g)
  | or (f g : Formula) : Binary '∨' f g (.or f g)
  | imp (f g : Formula) : Binary '⇒' f g (.imp f g)
  | iff (f g : Formula) : Binary '⇔' f g (.iff f g)

/-- The formula binds a variable by a quantifier, which is written as the given sign. -/
inductive Formula.Quantified : Char → Ident → Formula → Formula → Prop
  | all (x : Ident) (f : Formula) : Quantified '∀' x f (.all x f)
  | ex (x : Ident) (f : Formula) : Quantified '∃' x f (.ex x f)

theorem Formula.shape (F : Formula) :
    (∃ a, F = .atom a) ∨ (∃ f, F = .not f) ∨ (∃ c f g, Binary c f g F) ∨
      ∃ q x f, Quantified q x f F := by
  cases F with
  | atom a => exact .inl ⟨a, rfl⟩
  | not f => exact .inr (.inl ⟨f, rfl⟩)
  | and f g => exact .inr (.inr (.inl ⟨_, _, _, .and f g⟩))
  | or f g => exact .inr (.inr (.inl ⟨_, _, _, .or f g⟩))
  | imp f g => exact .inr (.inr (.inl ⟨_, _, _, .imp f g⟩))
  | iff f g => exact .inr (.inr (.inl ⟨_, _, _, .iff f g⟩))
  | all x f => exact .inr (.inr (.inr ⟨_, _, _, .all x f⟩))
  | ex x f => exact .inr (.inr (.inr ⟨_, _, _, .ex x f⟩))

namespace Formula.Binary

variable {c : Char} {f g F : Formula}

theorem written_eq (h : Binary c f g F) :
    F.written = '[' :: (f.written ++ ' ' :: c :: ' ' :: (g.written ++ [']'])) := by
  cases h <;> rfl

theorem sign_ne (h : Binary c f g F) : c ≠ '=' := by
  cases h <;> decide

theorem parts_eq (h : Binary c f g F) : F.parts = .formula F :: (f.parts ++ g.parts) := by
  cases h <;> rfl

private theorem unique {G : Formula} (hF : Binary c f g F) (hG : Binary c f g G) : F = G := by
  cases hF <;> cases hG <;> rfl

end Formula.Binary

namespace Formula.Quantified

variable {q : Char} {x : Ident} {f F : Formula}

theorem written_eq (h : Quantified q x f F) :
    F.written = '[' :: q :: ' ' :: (x.text.toList ++ ',' :: ' ' :: (f.written ++ [']'])) := by
  cases h <;> rfl

theorem parts_eq (h : Quantified q x f F) : F.parts = .formula F :: .term (.var x) :: f.parts := by
  cases h <;> rfl

theorem unique {G : Formula} (hF : Quantified q x f F) (hG : Quantified q x f G) : F = G := by
  cases hF <;> cases hG <;> rfl

end Formula.Quantified

/-- Wherever the written form of the formula stands, it cannot be read as that of another formula. -/
def Formula.Reads (ps : List Part) (F : Formula) : Prop :=
  ∀ (G : Formula) (r r' : List Char), G.parts ⊆ ps → Closes r → Closes r' →
    F.written ++ r = G.written ++ r' → F = G ∧ r = r'

section Formulas

variable {ps : List Part} {r r' : List Char}

private theorem ends_opening_application {i : Ident} (hi : i.isPlainText) (ts : List Term)
    (hr : Ends isOpening r) : Ends isOpening (i.text.toList ++ Term.writtenArgs ts ++ r) := by
  cases i <;> simp only [Ident.isPlainText, Bool.false_eq_true, List.all_eq_true] at hi
  case name s =>
    intro c hc
    rw [Ident.text] at hc
    cases hs : s.toList with
    | nil =>
      cases ts with
      | nil =>
        rw [hs] at hc
        exact hr c hc
      | cons t ts =>
        obtain rfl : '(' = c := by simpa [hs, Term.writtenArgs] using hc
        decide
    | cons d cs =>
      obtain rfl : d = c := by simpa [hs] using hc
      have hd := hi d (by simp [hs])
      simp_all [isNameChar, isSign, isOpening]

theorem Atom.parts_subset {a : Atom} (ha : (Formula.atom a).parts ⊆ ps) {t : Term} (ht : t ∈ a.args) :
    t.parts ⊆ ps :=
  fun _ hp => ha (List.mem_cons_of_mem _ (List.mem_flatMap.mpr ⟨t, ht, hp⟩))

theorem Atom.ends_opening (hps : Legible ps) {a : Atom} (ha : (Formula.atom a).parts ⊆ ps)
    (hr : Closes r) : Ends isOpening (a.written ++ r) := by
  cases a with
  | pred p args =>
    exact ends_opening_application (hps.plain _ (ha List.mem_cons_self)) args hr.ends_opening
  | eq l m =>
    have hl := parts_subset ha (t := l) (by simp [args]) l.mem_parts_self
    rw [written, List.append_assoc, l.written_eq]
    exact ends_opening_application (Term.isPlainText_head (hps.plain _ hl)) l.args
      (ends_cons.mpr (by decide))

/-- An atom is not read where another formula begins. -/
theorem Atom.written_ne_cons (hps : Legible ps) {a : Atom} (ha : (Formula.atom a).parts ⊆ ps)
    (hr : Closes r) {c : Char} (hc : isOpening c) (cs : List Char) : a.written ++ r ≠ c :: cs := by
  intro h
  have hopening := ends_opening hps ha hr
  rw [h, ends_cons, hc] at hopening
  cases hopening

/-- The sign of equality does not go on with a term. -/
theorem ends_equals (r : List Char) : Ends extendsTerm (' ' :: '=' :: r) :=
  ends_cons.mpr (by decide)

/-- An atom that is no equation cannot be read as one: no formula is followed by the sign of
    equality. -/
theorem Atom.written_pred_ne (hps : Legible ps) {p : Ident} {args : List Term} {l m : Term}
    (hpred : (Formula.atom (.pred p args)).parts ⊆ ps) (heq : (Formula.atom (.eq l m)).parts ⊆ ps)
    (hr : Closes r) : (Atom.pred p args).written ++ r ≠ (Atom.eq l m).written ++ r' := by
  intro h
  have hl := parts_subset heq (t := l) (by simp [Atom.args])
  rw [written.eq_2, List.append_assoc, l.written_eq] at h
  obtain ⟨-, -, rfl⟩ := Term.application_split (hps.plain _ (hpred List.mem_cons_self))
    (Term.isPlainText_head (hps.plain _ (hl l.mem_parts_self)))
    (fun t ht => Term.reads hps (parts_subset hpred ht))
    (List.Subset.trans l.parts_args_subset hl) hr.ends (ends_equals _) h
  cases hr with
  | connective hne => exact hne rfl

private theorem Atom.split (hps : Legible ps) {a b : Atom} (ha : (Formula.atom a).parts ⊆ ps)
    (hb : (Formula.atom b).parts ⊆ ps) (hr : Closes r) (hr' : Closes r')
    (h : a.written ++ r = b.written ++ r') : a = b ∧ r = r' := by
  cases a with
  | pred p args =>
    cases b with
    | pred q args' =>
      obtain ⟨rfl, rfl, rfl⟩ := Term.application_split (hps.plain _ (ha List.mem_cons_self))
        (hps.plain _ (hb List.mem_cons_self)) (fun t ht => Term.reads hps (parts_subset ha ht))
        (List.Subset.trans (List.subset_cons_self _ _) hb) hr.ends hr'.ends h
      exact ⟨rfl, rfl⟩
    | eq l m => exact absurd h (written_pred_ne hps ha hb hr)
  | eq l m =>
    cases b with
    | pred q args => exact absurd h.symm (written_pred_ne hps hb ha hr')
    | eq l' m' =>
      have hl := Term.reads hps (parts_subset ha (t := l) (by simp [args]))
      have hm := Term.reads hps (parts_subset ha (t := m) (by simp [args]))
      simp only [written, List.append_assoc, List.cons_append] at h
      obtain ⟨rfl, hrest⟩ :=
        hl l' _ _ (parts_subset hb (by simp [args])) (ends_equals _) (ends_equals _) h
      simp only [List.cons.injEq, true_and] at hrest
      obtain ⟨rfl, rfl⟩ := hm m' _ _ (parts_subset hb (by simp [args])) hr.ends hr'.ends hrest
      exact ⟨rfl, rfl⟩

namespace Formula

theorem reads_atom (hps : Legible ps) {a : Atom} (ha : (Formula.atom a).parts ⊆ ps) :
    (Formula.atom a).Reads ps := by
  intro G r r' hG hr hr' h
  have hother := fun c hc cs => Atom.written_ne_cons hps ha hr (c := c) hc cs
  rcases G.shape with ⟨b, rfl⟩ | ⟨g, rfl⟩ | ⟨c, f, g, hG'⟩ | ⟨q, x, f, hG'⟩
  · obtain ⟨rfl, rfl⟩ := Atom.split hps ha hG hr hr' h
    exact ⟨rfl, rfl⟩
  · exact absurd h (hother '¬' (by decide) _)
  · rw [hG'.written_eq] at h
    exact absurd h (hother '[' (by decide) _)
  · rw [hG'.written_eq] at h
    exact absurd h (hother '[' (by decide) _)

/-- A formula between brackets does not begin like a quantifier. -/
theorem ends_quantifier (hps : Legible ps) {F : Formula} (hF : F.parts ⊆ ps) (hr : Closes r) :
    Ends (fun c => c == '∀' || c == '∃') (F.written ++ r) := by
  rcases F.shape with ⟨a, rfl⟩ | ⟨f, rfl⟩ | ⟨c, f, g, hF'⟩ | ⟨q, x, f, hF'⟩
  · intro c hc
    have := Atom.ends_opening hps hF hr c hc
    simp_all [isOpening]
  · simp [written]
  · simp [hF'.written_eq]
  · simp [hF'.written_eq]

theorem written_ne_of_quantified (hps : Legible ps) {F G f : Formula} {q : Char} {x : Ident}
    (hF : F.parts ⊆ ps) (hG : Quantified q x f G) (hr : Closes r) :
    '[' :: (F.written ++ r) ≠ G.written ++ r' := by
  intro h
  have hfirst := ends_quantifier hps hF hr
  rw [hG.written_eq, List.cons_append, List.cons.injEq] at h
  rw [h.2] at hfirst
  cases hG <;> simp at hfirst

/-- An equation between brackets cannot be read as a formula that is no equation. -/
theorem written_ne_of_isEquation (hps : Legible ps) {F G : Formula} (hF : F.parts ⊆ ps)
    (hG : G.parts ⊆ ps) (hequation : F.isEquation) (hother : G.isEquation = false)
    (hr' : Closes r') : '[' :: (F.written ++ ']' :: r) ≠ G.written ++ r' := by
  obtain ⟨a, rfl⟩ : ∃ a, F = .atom a := by
    cases F <;> simp_all [isEquation]
  intro h
  rcases G.shape with ⟨b, rfl⟩ | ⟨g, rfl⟩ | ⟨c, f, g, hG'⟩ | ⟨q, x, f, hG'⟩
  · exact Atom.written_ne_cons hps hG hr' (by decide) _ h.symm
  · simp [written] at h
  · rw [hG'.written_eq] at h
    simp only [List.cons_append, List.append_assoc, List.cons.injEq, true_and] at h
    rw [hG'.parts_eq, List.cons_subset, List.append_subset] at hG
    obtain ⟨-, hrest⟩ :=
      reads_atom hps hF f _ _ hG.2.1 (.bracket r) (.connective hG'.sign_ne _) h
    simp at hrest
  · exact written_ne_of_quantified hps hF hG' (.bracket r) h

private theorem reads_not (hps : Legible ps) {f : Formula} (hF : (Formula.not f).parts ⊆ ps)
    (ih : f.parts ⊆ ps → f.Reads ps) : (Formula.not f).Reads ps := by
  rw [parts, List.cons_subset] at hF
  obtain ⟨-, hf⟩ := hF
  intro G r r' hG hr hr' h
  rcases G.shape with ⟨b, rfl⟩ | ⟨g, rfl⟩ | ⟨c, g, g', hG'⟩ | ⟨q, x, g, hG'⟩
  · exact absurd h.symm (Atom.written_ne_cons hps hG hr' (c := '¬') (by decide) _)
  · rw [parts, List.cons_subset] at hG
    -- an equation under a negation brings brackets along, other formulas do not
    cases hfe : f.isEquation <;> cases hge : g.isEquation <;>
      simp only [written, hfe, hge, if_true, Bool.false_eq_true, if_false, List.cons_append,
        List.append_assoc, List.nil_append, List.cons.injEq, true_and] at h
    · obtain ⟨rfl, rfl⟩ := ih hf g r r' hG.2 hr hr' h
      exact ⟨rfl, rfl⟩
    · exact absurd h.symm (written_ne_of_isEquation hps hG.2 hf hge hfe hr)
    · exact absurd h (written_ne_of_isEquation hps hf hG.2 hfe hge hr')
    · obtain ⟨rfl, hrest⟩ := ih hf g _ _ hG.2 (.bracket r) (.bracket r') h
      exact ⟨rfl, (List.cons.inj hrest).2⟩
  · simp [written, hG'.written_eq] at h
  · simp [written, hG'.written_eq] at h

private theorem reads_binary (hps : Legible ps) {c : Char} {f g F : Formula} (hF : Binary c f g F)
    (hparts : F.parts ⊆ ps) (ihf : f.parts ⊆ ps → f.Reads ps) (ihg : g.parts ⊆ ps → g.Reads ps) :
    F.Reads ps := by
  rw [hF.parts_eq, List.cons_subset, List.append_subset] at hparts
  obtain ⟨-, hf, hg⟩ := hparts
  intro G r r' hG hr hr' h
  rcases G.shape with ⟨b, rfl⟩ | ⟨g', rfl⟩ | ⟨c', f', g', hG'⟩ | ⟨q, x, f', hG'⟩
  · rw [hF.written_eq] at h
    exact absurd h.symm (Atom.written_ne_cons hps hG hr' (c := '[') (by decide) _)
  · simp [written, hF.written_eq] at h
  · rw [hG'.parts_eq, List.cons_subset, List.append_subset] at hG
    rw [hF.written_eq, hG'.written_eq] at h
    simp only [List.cons_append, List.append_assoc, List.cons.injEq, true_and] at h
    -- the left sides end at the connective, the right sides at the bracket
    obtain ⟨rfl, hrest⟩ :=
      ihf hf f' _ _ hG.2.1 (.connective hF.sign_ne _) (.connective hG'.sign_ne _) h
    simp only [List.cons.injEq, true_and] at hrest
    obtain ⟨rfl, hrest⟩ := hrest
    obtain ⟨rfl, hend⟩ := ihg hg g' _ _ hG.2.2 (.bracket r) (.bracket r') hrest
    exact ⟨hF.unique hG', (List.cons.inj hend).2⟩
  · rw [hF.written_eq] at h
    simp only [List.cons_append, List.append_assoc] at h
    exact absurd h (written_ne_of_quantified hps hf hG' (.connective hF.sign_ne _))

private theorem reads_quantified (hps : Legible ps) {q : Char} {x : Ident} {f F : Formula}
    (hF : Quantified q x f F) (hparts : F.parts ⊆ ps) (ih : f.parts ⊆ ps → f.Reads ps) :
    F.Reads ps := by
  rw [hF.parts_eq, List.cons_subset, List.cons_subset] at hparts
  obtain ⟨-, hx, hf⟩ := hparts
  intro G r r' hG hr hr' h
  rcases G.shape with ⟨b, rfl⟩ | ⟨g', rfl⟩ | ⟨c', f', g', hG'⟩ | ⟨q', x', f', hG'⟩
  · rw [hF.written_eq] at h
    exact absurd h.symm (Atom.written_ne_cons hps hG hr' (c := '[') (by decide) _)
  · simp [written, hF.written_eq] at h
  · rw [hG'.parts_eq, List.cons_subset, List.append_subset] at hG
    rw [hG'.written_eq] at h
    simp only [List.cons_append, List.append_assoc] at h
    exact absurd h.symm (written_ne_of_quantified hps hG.2.1 hF (.connective hG'.sign_ne _))
  · rw [hG'.parts_eq, List.cons_subset, List.cons_subset] at hG
    rw [hF.written_eq, hG'.written_eq] at h
    simp only [List.cons_append, List.append_assoc, List.cons.injEq, true_and] at h
    obtain ⟨rfl, h⟩ := h
    have hcomma : ∀ cs, Ends isNameChar (',' :: cs) := fun cs => ends_cons.mpr (by decide)
    obtain ⟨rfl, hrest⟩ :=
      name_split (hps.plain _ hx) (hps.plain _ hG.2.1) (hcomma _) (hcomma _) h
    simp only [List.cons.injEq, true_and] at hrest
    obtain ⟨rfl, hend⟩ := ih hf f' _ _ hG.2.2 (.bracket r) (.bracket r') hrest
    exact ⟨hF.unique hG', (List.cons.inj hend).2⟩

/-- The written form of a formula can be read in one way only, whatever follows it. -/
theorem reads (hps : Legible ps) {F : Formula} (hF : F.parts ⊆ ps) : F.Reads ps := by
  induction F with
  | atom a => exact reads_atom hps hF
  | not f ih => exact reads_not hps hF ih
  | and f g ihf ihg => exact reads_binary hps (.and f g) hF ihf ihg
  | or f g ihf ihg => exact reads_binary hps (.or f g) hF ihf ihg
  | imp f g ihf ihg => exact reads_binary hps (.imp f g) hF ihf ihg
  | iff f g ihf ihg => exact reads_binary hps (.iff f g) hF ihf ihg
  | all x f ih => exact reads_quantified hps (.all x f) hF ih
  | ex x f ih => exact reads_quantified hps (.ex x f) hF ih

end Formula

end Formulas

/-- No two formulas have the same text in a formatter with the default labeller, whatever it has
    formatted before each of them, if their names are texts without the characters that formulas are
    put together with, and no name is used for two of variables, constants, and functions without
    arguments. -/
theorem format_unambiguous {labels : List String} {ns ns' : List Node} {F G : Formula}
    (hplain : ∀ p ∈ F.parts ++ G.parts, p.isPlain) (hroles : RolesApart (F.parts ++ G.parts)) :
    (∃ text, (F.format (scopeAfter labels ns)).1 = .ok text) ∧
    ((F.format (scopeAfter labels ns)).1 = (G.format (scopeAfter labels ns')).1 ↔ F = G) := by
  have hps : Legible (F.parts ++ G.parts) := ⟨hplain, hroles⟩
  rw [List.forall_mem_append] at hplain
  rw [Formula.format_writes hplain.1 _ (scopeAfter_byText labels ns),
    Formula.format_writes hplain.2 _ (scopeAfter_byText labels ns')]
  refine ⟨⟨_, rfl⟩, ?_, fun h => h ▸ rfl⟩
  intro h
  have hwritten : F.written = G.written := String.ofList_injective (Except.ok.inj h)
  have hread := Formula.reads hps (List.subset_append_left _ _) G [] []
    (List.subset_append_right _ _) .nil .nil (by rw [hwritten])
  exact hread.1

/-- For every `x`, it is not so that `f(x)` equals `a`. -/
def deniedEquation : Formula :=
  .all (.name "x") (.not (.atom (.eq (.app (.name "f") [.var (.name "x")]) (.const (.name "a")))))

/-- For every `x`, it is not so that `f` holds of `x` and of `a`; the predicate has the name of the
    function above. -/
def deniedConjunction : Formula :=
  .all (.name "x") (.not (.and (.atom (.pred (.name "f") [.var (.name "x")]))
    (.atom (.pred (.name "f") [.const (.name "a")]))))

theorem format_unambiguous_denied :
    (∀ p ∈ deniedEquation.parts ++ deniedConjunction.parts, p.isPlain) ∧
      RolesApart (deniedEquation.parts ++ deniedConjunction.parts) ∧
      (deniedEquation.format (scopeAfter ["A"] [])).1 ≠
        (deniedConjunction.format (scopeAfter ["A"] [.formula deniedEquation])).1 := by
  have hplain : ∀ p ∈ deniedEquation.parts ++ deniedConjunction.parts, p.isPlain := by decide
  have hroles : RolesApart (deniedEquation.parts ++ deniedConjunction.parts) := by
    unfold RolesApart
    decide
  refine ⟨hplain, hroles, fun h => ?_⟩
  have heq := (format_unambiguous hplain hroles).2.mp h
  simp [deniedEquation, deniedConjunction] at heq

end Clausal
