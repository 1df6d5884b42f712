import Clausal.Part
import Clausal.Proofs.Term
import Clausal.Proofs.Tptp.Document

/-!
# Parsing what was printed

The plain text of a term or formula is parsed as that term or formula, if its symbols are words of
the language and its functions and predicates have arguments.  Every plain text is one unit: binary
formulas bring their parentheses along, and all others end where their last part ends.  So a
negation or a quantifier reaches over exactly what was printed after it, even over an equation.

## Main definitions

- `Part.isReadable`: symbols that can be read back
- `Chunk`, `Prints`: texts that spell a phrase, whatever follows them

## Main statements

- `Term.prints_text`, `Formula.prints_text`: plain texts spell phrases
- `parse_text`: parsing undoes printing
-/

namespace Clausal

open Tptp

/-! ## Section 1: What can be read back -/

/-- Whether a text is a word of the language whose first character is in the given class. -/
def Tptp.isWord (first : Char → Bool) (s : String) : Bool :=
  match s.toList with
  | [] => false
  | c :: w => first c && w.all isWordChar

/-- Whether the symbol of a part is a word with an upper-case first letter, if it is a variable, or
    with a lower-case one, if it is anything else, and has arguments, if it is a function or a
    predicate.  Equations and compound formulas have no symbol of their own. -/
def Part.isReadable : Part → Bool
  | .term (.var (.name s)) => isWord Char.isUpper s
  | .term (.const (.name s)) => isWord Char.isLower s
  | .term (.app (.name s) args) => isWord Char.isLower s && !args.isEmpty
  | .term _ => false
  | .formula (.atom (.pred (.name s) args)) => isWord Char.isLower s && !args.isEmpty
  | .formula (.atom (.pred _ _)) => false
  | .formula _ => true

theorem Tptp.isWord_iff {first : Char → Bool} {s : String} :
    isWord first s ↔ ∃ c w, s = String.ofList (c :: w) ∧ first c ∧ ∀ d ∈ w, isWordChar d := by
  unfold isWord
  constructor
  · intro h
    split at h
    next => cases h
    next c w hs =>
      simp only [Bool.and_eq_true, List.all_eq_true] at h
      exact ⟨c, w, by rw [← hs, String.ofList_toList], h⟩
  · rintro ⟨c, w, rfl, hc, hw⟩
    simpa [hc] using hw

namespace Part

theorem isReadable_var {x : Ident} (h : (Part.term (.var x)).isReadable) :
    ∃ s, x = .name s ∧ isWord Char.isUpper s := by
  cases x <;> simp_all [isReadable]

private theorem isReadable_const {c : Ident} (h : (Part.term (.const c)).isReadable) :
    ∃ s, c = .name s ∧ isWord Char.isLower s := by
  cases c <;> simp_all [isReadable]

theorem isReadable_app {f : Ident} {args : List Term} (h : (Part.term (.app f args)).isReadable) :
    ∃ s, f = .name s ∧ isWord Char.isLower s ∧ args ≠ [] := by
  cases f <;> simp_all [isReadable]

private theorem isReadable_pred {p : Ident} {args : List Term}
    (h : (Part.formula (.atom (.pred p args))).isReadable) :
    ∃ s, p = .name s ∧ isWord Char.isLower s ∧ args ≠ [] := by
  cases p <;> simp_all [isReadable]

end Part

/-! ## Section 2: Chunks of text -/

namespace Tptp

/-- The text spells the tokens, and it goes on to spell those of whatever follows it, unless that
    could lengthen a word at its end. -/
def Chunk (glued : Bool) (cs : List Char) (ts : List Token) : Prop :=
  ∀ rest us, Ends isWordChar rest → Spells true rest us → Spells glued (cs ++ rest) (ts ++ us)

/-- The text spells a phrase of the given value, wherever it stands. -/
def Prints {α : Type} (derives : List Token → α → Prop) (text : String) (a : α) : Prop :=
  ∀ glued, ∃ ts, derives ts a ∧ Chunk glued text.toList ts

section Chunks

variable {glued : Bool} {cs ds : List Char} {ts us : List Token}

private theorem Chunk.spells (h : Chunk glued cs ts) : Spells glued cs ts := by
  simpa using h [] [] (by simp) .nil

theorem Chunk.nil : Chunk true [] [] :=
  fun _ _ _ h => h

theorem Chunk.upper {s : String} (h : isWord Char.isUpper s) :
    Chunk glued s.toList [.upper s] := by
  obtain ⟨c, w, rfl, hc, hw⟩ := isWord_iff.mp h
  intro rest us hrest hus
  rw [String.toList_ofList]
  exact .token (.upper hc hw hrest) hus

theorem Chunk.lower {s : String} (h : isWord Char.isLower s) :
    Chunk glued s.toList [.lower s] := by
  obtain ⟨c, w, rfl, hc, hw⟩ := isWord_iff.mp h
  intro rest us hrest hus
  rw [String.toList_ofList]
  exact .token (.lower hc hw hrest) hus

theorem Chunk.blank (h : Chunk false cs ts) : Chunk glued (' ' :: cs) ts :=
  fun rest us hrest hus => .gap (.blank (by decide)) (h rest us hrest hus)

theorem Chunk.mark {m : List Char} {t : Token} (hm : (m, t) ∈ marks glued) (h : Chunk true cs ts) :
    Chunk glued (m ++ cs) (t :: ts) := by
  intro rest us hrest hus
  rw [List.append_assoc]
  exact .token (.mark hm) (h rest us hrest hus)

theorem Chunk.sign {c : Char} {t : Token} (hm : ([c], t) ∈ marks glued) (h : Chunk true cs ts) :
    Chunk glued (c :: cs) (t :: ts) :=
  .mark hm h

/-- One chunk after another that does not begin like the rest of a word. -/
theorem Chunk.append (hcs : Chunk glued cs ts) (hends : Ends isWordChar ds)
    (hds : Chunk true ds us) : Chunk glued (cs ++ ds) (ts ++ us) := by
  intro rest vs hrest hvs
  rw [List.append_assoc, List.append_assoc]
  refine hcs _ _ ?_ (hds rest vs hrest hvs)
  cases ds with
  | nil => exact hrest
  | cons d ds => simpa using hends

end Chunks

/-! ## Section 3: Terms -/

/-- Terms one after the other, with commas between them. -/
theorem exists_derivesTerms {args : List Term} (hne : args ≠ [])
    (h : ∀ t ∈ args, Prints DerivesTerm t.text t) :
    ∀ glued, ∃ ts, DerivesTerms ts args ∧
      Chunk glued (", ".intercalate (args.map Term.text)).toList ts := by
  induction args with
  | nil => exact absurd rfl hne
  | cons t args ih =>
    intro glued
    obtain ⟨ts, hts, hchunk⟩ := h t (by simp) glued
    cases args with
    | nil => exact ⟨ts, .one hts, by simpa using hchunk⟩
    | cons u args =>
      obtain ⟨us, hus, hrest⟩ := ih (by simp) (fun a ha => h a (List.mem_cons_of_mem t ha)) false
      refine ⟨_, .more hts hus, ?_⟩
      have hcomma : Chunk true (',' :: ' ' :: _) (.comma :: us) := .sign (by simp [marks]) hrest.blank
      simpa using hchunk.append (by simp [isWordChar]) hcomma

/-- A symbol with its arguments in parentheses. -/
theorem exists_application {s : String} {args : List Term} (hs : isWord Char.isLower s)
    (hne : args ≠ []) (h : ∀ t ∈ args, Prints DerivesTerm t.text t) (glued : Bool) :
    ∃ ts, DerivesTerms ts args ∧
      Chunk glued (s ++ "(" ++ ", ".intercalate (args.map Term.text) ++ ")").toList
        (.lower s :: .lparen true :: (ts ++ [.rparen])) := by
  obtain ⟨ts, hts, hchunk⟩ := exists_derivesTerms hne h true
  refine ⟨ts, hts, ?_⟩
  have hclose : Chunk true [')'] [.rparen] := .sign (by simp [marks]) .nil
  have hopen : Chunk true ('(' :: _) (.lparen true :: (ts ++ [.rparen])) :=
    .sign (by simp [marks]) (hchunk.append (by simp [isWordChar]) hclose)
  simpa using (Chunk.lower hs).append (by simp [isWordChar]) hopen

end Tptp

private theorem Term.textList_eq_map (ts : List Term) : textList ts = ts.map text := by
  induction ts with
  | nil => rfl
  | cons t ts ih => rw [textList, ih, List.map_cons]

theorem Term.prints_text {t : Term} (h : ∀ p ∈ t.parts, p.isReadable) :
    Prints DerivesTerm t.text t := by
  induction t using Term.induction with
  | var x =>
    obtain ⟨s, rfl, hs⟩ := Part.isReadable_var (h (.term (.var x)) (List.mem_singleton_self _))
    exact fun glued => ⟨_, .var s, .upper hs⟩
  | const c =>
    obtain ⟨s, rfl, hs⟩ := Part.isReadable_const (h (.term (.const c)) (List.mem_singleton_self _))
    exact fun glued => ⟨_, .constant rfl, .lower hs⟩
  | app f args ih =>
    rw [parts_app, List.forall_mem_cons, List.forall_mem_flatMap] at h
    obtain ⟨s, rfl, hs, hne⟩ := Part.isReadable_app h.1
    intro glued
    obtain ⟨ts, hts, hchunk⟩ := exists_application hs hne (fun t ht => ih t ht (h.2 t ht)) glued
    refine ⟨.lower s :: .lparen true :: (ts ++ [.rparen]), .application rfl hts, ?_⟩
    rwa [text, textList_eq_map]

/-! ## Section 4: Formulas -/

private theorem Atom.prints_text {a : Atom} (h : ∀ p ∈ (Formula.atom a).parts, p.isReadable) :
    Prints DerivesAtom a.text (.atom a) := by
  rw [Formula.parts, List.forall_mem_cons, List.forall_mem_flatMap] at h
  cases a with
  | pred p args =>
    obtain ⟨s, rfl, hs, hne⟩ := Part.isReadable_pred h.1
    intro glued
    obtain ⟨ts, hts, hchunk⟩ :=
      exists_application hs hne (fun t ht => Term.prints_text (h.2 t ht)) glued
    exact ⟨_, .predicate (t := .lower s) rfl hts, hchunk⟩
  | eq l r =>
    intro glued
    obtain ⟨ts, hts, hleft⟩ := Term.prints_text (h.2 l (by simp [args])) glued
    obtain ⟨us, hus, hright⟩ := Term.prints_text (h.2 r (by simp [args])) false
    refine ⟨_, .equal hts hus, ?_⟩
    have hequal : Chunk false ('=' :: ' ' :: r.text.toList) (.equal :: us) :=
      .sign (by simp [marks]) hright.blank
    simpa [text] using hleft.append (by simp [isWordChar]) hequal.blank

namespace Tptp

/-- A binary formula brings its parentheses along. -/
theorem prints_binary {f g h : Formula} {op : String} {m : List Char} {t : Token}
    (hop : op.toList = ' ' :: (m ++ [' '])) (hm : (m, t) ∈ marks false)
    (hderives : ∀ {ts us}, DerivesUnit ts f → DerivesUnit us g → DerivesFormula (ts ++ t :: us) h)
    (hf : Prints DerivesUnit f.text f) (hg : Prints DerivesUnit g.text g) :
    Prints DerivesUnit ("(" ++ f.text ++ op ++ g.text ++ ")") h := by
  intro glued
  obtain ⟨ts, hts, hleft⟩ := hf true
  obtain ⟨us, hus, hright⟩ := hg false
  refine ⟨_, .parentheses glued (hderives hts hus), ?_⟩
  have hclose : Chunk true [')'] [.rparen] := .sign (by simp [marks]) .nil
  have hrest := Chunk.mark hm (hright.append (by simp [isWordChar]) hclose).blank
  have hopen : Chunk glued ('(' :: _) (.lparen glued :: _) :=
    .sign (by simp [marks]) (hleft.append (by simp [isWordChar]) hrest.blank)
  simpa [hop] using hopen

/-- A quantifier reaches over the unit after it. -/
theorem prints_quantified {f h : Formula} {x op : String} {c : Char} {t : Token}
    (hop : op.toList = [c, '[']) (hm : ∀ glued, ([c], t) ∈ marks glued)
    (hderives : ∀ {ts}, DerivesUnit ts f →
      DerivesUnit (t :: .lbrack :: ([.upper x] ++ .rbrack :: .colon :: ts)) h)
    (hx : isWord Char.isUpper x) (hf : Prints DerivesUnit f.text f) :
    Prints DerivesUnit (op ++ x ++ "]: " ++ f.text) h := by
  intro glued
  obtain ⟨ts, hts, hscope⟩ := hf false
  refine ⟨_, hderives hts, ?_⟩
  have hcolon : Chunk true (']' :: ':' :: ' ' :: f.text.toList) (.rbrack :: .colon :: ts) :=
    .sign (by simp [marks]) (.sign (by simp [marks]) hscope.blank)
  have hbrack : Chunk true ('[' :: _) (.lbrack :: _) :=
    .sign (by simp [marks]) ((Chunk.upper hx).append (by simp [isWordChar]) hcolon)
  simpa [hop] using hbrack.sign (hm glued)

end Tptp

/-- The plain text of a formula is one unit. -/
theorem Formula.prints_text {f : Formula} (h : ∀ p ∈ f.parts, p.isReadable) :
    Prints DerivesUnit f.text f := by
  induction f with
  | atom a =>
    intro glued
    obtain ⟨ts, hts, hchunk⟩ := Atom.prints_text h glued
    exact ⟨ts, .atom hts, hchunk⟩
  | not f ih =>
    rw [parts, List.forall_mem_cons] at h
    intro glued
    obtain ⟨ts, hts, hchunk⟩ := ih h.2 true
    refine ⟨_, .negation hts, ?_⟩
    have htilde : Chunk glued ('~' :: f.text.toList) (.tilde :: ts) := .sign (by simp [marks]) hchunk
    simpa [text] using htilde
  | and f g ihf ihg =>
    rw [parts, List.forall_mem_cons, List.forall_mem_append] at h
    exact prints_binary (m := ['&']) (by simp) (by simp [marks])
      (fun hf hg => .conjunction hf (.one hg)) (ihf h.2.1) (ihg h.2.2)
  | or f g ihf ihg =>
    rw [parts, List.forall_mem_cons, List.forall_mem_append] at h
    exact prints_binary (m := ['|']) (by simp) (by simp [marks])
      (fun hf hg => .disjunction hf (.one hg)) (ihf h.2.1) (ihg h.2.2)
  | imp f g ihf ihg =>
    rw [parts, List.forall_mem_cons, List.forall_mem_append] at h
    exact prints_binary (m := ['=', '>']) (by simp) (by simp [marks])
      (fun hf hg => .binary .imp hf hg) (ihf h.2.1) (ihg h.2.2)
  | iff f g ihf ihg =>
    rw [parts, List.forall_mem_cons, List.forall_mem_append] at h
    exact prints_binary (m := ['<', '=', '>']) (by simp) (by simp [marks])
      (fun hf hg => .binary .iff hf hg) (ihf h.2.1) (ihg h.2.2)
  | all x f ih =>
    rw [parts, List.forall_mem_cons, List.forall_mem_cons] at h
    obtain ⟨s, rfl, hs⟩ := Part.isReadable_var h.2.1
    exact prints_quantified (c := '!') (by simp) (by simp [marks]) (.universal (.one s)) hs
      (ih h.2.2)
  | ex x f ih =>
    rw [parts, List.forall_mem_cons, List.forall_mem_cons] at h
    obtain ⟨s, rfl, hs⟩ := Part.isReadable_var h.2.1
    exact prints_quantified (c := '?') (by simp) (by simp [marks]) (.existential (.one s)) hs
      (ih h.2.2)

/-! ## Section 5: Parsing undoes printing -/

/-- A text that spells a phrase is parsed as its value. -/
theorem Tptp.ParsesExactly.parse_of_prints {α : Type} {derives : List Token → α → Prop}
    {accept : List Token → Except ParseError α} {parse : String → Except ParseError α}
    (hparse : ParsesExactly derives accept parse) {text : String} {a : α}
    (h : Prints derives text a) : parse text = .ok a := by
  obtain ⟨ts, hts, hchunk⟩ := h false
  exact (hparse.parse_iff text a).mpr ⟨ts, hchunk.spells, hts⟩

/-- Parsing the plain text of a formula or of a term gives the formula or term back, if variables are
    words with an upper-case first letter, all other symbols are words with a lower-case one, and
    functions and predicates have arguments. -/
theorem parse_text :
    (∀ f : Formula, (∀ p ∈ f.parts, p.isReadable) → parseFormula f.text = .ok f) ∧
    ∀ t : Term, (∀ p ∈ t.parts, p.isReadable) → parseTerm t.text = .ok t := by
  constructor
  · intro f h
    apply parsesExactly_formula.parse_of_prints
    intro glued
    obtain ⟨ts, hts, hchunk⟩ := Formula.prints_text h glued
    exact ⟨ts, .unit hts, hchunk⟩
  · intro t h
    exact parsesExactly_term.parse_of_prints (Term.prints_text h)

/-- A formula with every connective, and with a negation that stands before an equation. -/
def everyConnective : Formula :=
  let x := Term.var (.name "X")
  let y := Term.var (.name "Y_1")
  let a := Term.const (.name "a")
  .all (.name "X") (.not (.and
    (.ex (.name "Y_1") (.not (.atom (.eq (.app (.name "f") [x, y]) a))))
    (.imp (.or (.atom (.pred (.name "p") [a, x])) (.atom (.eq a x)))
      (.iff (.atom (.pred (.name "qR2") [.app (.name "g") [y]])) (.atom (.eq x y))))))

theorem parse_text_everyConnective :
    everyConnective.text =
      "![X]: ~(?[Y_1]: ~f(X, Y_1) = a & ((p(a, X) | a = X) => (qR2(g(Y_1)) <=> X = Y_1)))" ∧
    (∀ p ∈ everyConnective.parts, p.isReadable) ∧
    parseFormula everyConnective.text = .ok everyConnective ∧
    parseTerm (Term.app (.name "f") [.const (.name "a")]).text =
      .ok (.app (.name "f") [.const (.name "a")]) :=
  ⟨by decide, by decide, parse_text.1 _ (by decide), parse_text.2 _ (by decide)⟩

end Clausal
