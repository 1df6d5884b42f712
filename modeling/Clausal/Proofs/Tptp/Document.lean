import Clausal.Proofs.Tptp.Scanning
import Clausal.Tptp.Document
import Mathlib.Data.Set.List

/-!
# Parsing is exact

The grammar of problem documents, and what parsing a whole text means: a formula, a term or a
document is parsed exactly when the text spells a sequence of tokens that has a derivation, and the
value is the one that the derivation builds.  So no sequence of tokens has two values.

## Main definitions

- `DerivesStatement`, `DerivesDocument`: the rules of documents

## Main statements

- `parsesExactly_grammar`: parsing accepts exactly the grammar, and the grammar is unambiguous
-/

namespace Clausal.Tptp

/-! ## Section 1: The grammar of documents -/

/-- Names separated by commas, at least one. -/
inductive DerivesNames : List Token → List String → Prop
  | one {t : Token} {s : String} : formulaName? t = some s → DerivesNames [t] [s]
  | more {t : Token} {s : String} {ts : List Token} {names : List String} :
      formulaName? t = some s → DerivesNames ts names →
      DerivesNames (t :: .comma :: ts) (s :: names)

/-- A name, a role and a formula, separated by commas. -/
inductive DerivesAnnotated (derives : List Token → Formula → Prop) : List Token → Annotated → Prop
  | intro {t : Token} {name role : String} {ts : List Token} {f : Formula} :
      formulaName? t = some name → role ∈ roles → derives ts f →
      DerivesAnnotated derives (t :: .comma :: .lower role :: .comma :: ts) ⟨name, role, f⟩

/-- `fof(…).`, `cnf(…).` or `include(…).`, where the word and the parenthesis are not apart. -/
inductive DerivesStatement : List Token → Statement → Prop
  | fof {ts : List Token} {a : Annotated} : DerivesAnnotated DerivesFormula ts a →
      DerivesStatement (.lower "fof" :: .lparen true :: (ts ++ [.rparenDot])) (.formula a)
  | cnf {ts : List Token} {a : Annotated} : DerivesAnnotated DerivesClause ts a →
      DerivesStatement (.lower "cnf" :: .lparen true :: (ts ++ [.rparenDot])) (.formula a)
  | whole (file : String) :
      DerivesStatement [.lower "include", .lparen true, .quoted file, .rparenDot]
        (.inclusion file none)
  | selection (file : String) {ts : List Token} {names : List String} : DerivesNames ts names →
      DerivesStatement (.lower "include" :: .lparen true :: .quoted file :: .comma :: .lbrack ::
        (ts ++ [.rbrack, .rparenDot])) (.inclusion file (some names))

/-- Statements one after the other. -/
inductive DerivesDocument : List Token → List Statement → Prop
  | nil : DerivesDocument [] []
  | cons {ts us : List Token} {s : Statement} {ss : List Statement} :
      DerivesStatement ts s → DerivesDocument us ss → DerivesDocument (ts ++ us) (s :: ss)

/-! ## Section 2: What is read has a derivation -/

theorem bind_eq_ok {ε α β : Type} {x : Except ε α} {f : α → Except ε β} {b : β} :
    x >>= f = .ok b ↔ ∃ a, x = .ok a ∧ f a = .ok b := by
  cases x <;> simp [bind, Except.bind]

theorem expect_eq_ok {t : Token} {ts rest : List Token} :
    expect t ts = .ok rest ↔ ts = t :: rest := by
  fun_cases expect t ts <;> simp_all

private theorem readName_eq_ok {ts rest : List Token} {s : String} :
    readName ts = .ok (s, rest) ↔ ∃ t, formulaName? t = some s ∧ ts = t :: rest := by
  fun_cases readName ts <;> simp_all

private theorem readRole_eq_ok {ts rest : List Token} {s : String} :
    readRole ts = .ok (s, rest) ↔ s ∈ roles ∧ ts = .lower s :: rest := by
  fun_cases readRole ts <;> grind

private theorem sound_readNames : Sound (Followed DerivesNames [.rbrack]) readNames := by
  intro ts names rest h
  fun_induction readNames ts generalizing names rest with
  | case3 t ts s hs names' rest' hread ih =>
    obtain ⟨rfl, rfl⟩ : names = s :: names' ∧ rest = rest' := by simpa [eq_comm] using h
    obtain ⟨_, rfl, us, rfl, hus⟩ := ih _ _ hread
    exact ⟨t :: .comma :: (us ++ [.rbrack]), by simp, _, rfl, .more hs hus⟩
  | case5 t ts s hs =>
    obtain ⟨rfl, rfl⟩ : names = [s] ∧ rest = ts := by simpa [eq_comm] using h
    exact ⟨[t, .rbrack], rfl, [t], rfl, .one hs⟩
  | case7 => exact absurd h stuck_ne_ok
  | _ => cases h

private theorem sound_readAnnotated {derives : List Token → Formula → Prop}
    {read : List Token → Parsed Formula} (hread : Sound derives read) {ts rest : List Token}
    {s : Statement} (h : readAnnotated read ts = .ok (s, rest)) :
    ∃ us a, ts = us ++ .rparenDot :: rest ∧ s = .formula a ∧ DerivesAnnotated derives us a := by
  simp only [readAnnotated, bind_eq_ok, expect_eq_ok] at h
  obtain ⟨⟨name, _⟩, hname, _, rfl, ⟨role, _⟩, hrole, _, rfl, ⟨f, _⟩, hf, _, rfl, h⟩ := h
  obtain ⟨t, ht, rfl⟩ := readName_eq_ok.1 hname
  obtain ⟨hrole', rfl⟩ := readRole_eq_ok.1 hrole
  obtain ⟨us, rfl, hus⟩ := hread _ _ _ hf
  obtain ⟨rfl, rfl⟩ : s = .formula ⟨name, role, f⟩ ∧ _ = rest := by
    simpa [pure, Except.pure, eq_comm] using h
  exact ⟨t :: .comma :: .lower role :: .comma :: us, _, by simp, rfl, .intro ht hrole' hus⟩

private theorem sound_readInclude {ts rest : List Token} {s : Statement}
    (h : readInclude ts = .ok (s, rest)) :
    ∃ us, .lower "include" :: .lparen true :: ts = us ++ rest ∧ DerivesStatement us s := by
  rw [readInclude.eq_def] at h
  split at h
  next file ts =>
    simp only [bind_eq_ok, expect_eq_ok] at h
    obtain ⟨_, rfl, ⟨names, _⟩, hnames, _, rfl, h⟩ := h
    obtain ⟨_, h', us, rfl, hus⟩ := sound_readNames _ _ _ hnames
    obtain ⟨rfl, rfl⟩ : s = .inclusion file (some names) ∧ _ = rest := by
      simpa [pure, Except.pure, eq_comm] using h
    refine ⟨_, ?_, .selection file hus⟩
    simp [h']
  next file ts _ =>
    simp only [bind_eq_ok, expect_eq_ok] at h
    obtain ⟨_, rfl, h⟩ := h
    obtain ⟨rfl, rfl⟩ : s = .inclusion file none ∧ _ = rest := by
      simpa [pure, Except.pure, eq_comm] using h
    exact ⟨_, rfl, .whole file⟩
  next => exact absurd h stuck_ne_ok

private theorem sound_readStatement (n : Nat) : Sound DerivesStatement (readStatement n) := by
  intro ts s rest h
  rw [readStatement.eq_def] at h
  split at h
  next ts =>
    obtain ⟨us, a, rfl, rfl, hus⟩ := sound_readAnnotated (soundTo n).formula h
    exact ⟨_, by simp, .fof hus⟩
  next ts =>
    obtain ⟨us, a, rfl, rfl, hus⟩ := sound_readAnnotated (sound_readClauseFormula n) h
    exact ⟨_, by simp, .cnf hus⟩
  next ts => exact sound_readInclude h
  next => cases h
  next => cases h

private theorem derivesDocument_of_readStatements {n : Nat} {ts : List Token} {ss : List Statement}
    (h : readStatements n ts = .ok ss) : DerivesDocument ts ss := by
  fun_induction readStatements n ts generalizing ss with
  | case1 =>
    obtain rfl : [] = ss := by simpa using h
    exact .nil
  | case2 => cases h
  | case3 => cases h
  | case4 => cases h
  | case5 n t ts s rest hread ss' hrest ih =>
    obtain rfl : s :: ss' = ss := by simpa using h
    obtain ⟨us, hus, hs⟩ := sound_readStatement _ _ _ _ hread
    rw [hus]
    exact .cons hs (ih hrest)

/-! ## Section 3: Reading what has a derivation -/

private theorem readNames_of_derives {us rest : List Token} {names : List String}
    (h : DerivesNames us names) : readNames (us ++ .rbrack :: rest) = .ok (names, rest) := by
  induction h with
  | one ht => simp [readNames, ht]
  | more ht _ ih => simp [readNames, ht, ih]

private theorem readAnnotated_of_derives {derives : List Token → Formula → Prop}
    {read : List Token → Parsed Formula} {us rest : List Token} {a : Annotated}
    (h : DerivesAnnotated derives us a)
    (hread : ∀ vs f, derives vs f → vs.length ≤ us.length →
      read (vs ++ .rparenDot :: rest) = .ok (f, .rparenDot :: rest)) :
    readAnnotated read (us ++ .rparenDot :: rest) = .ok (.formula a, rest) := by
  obtain ⟨ht, hrole, hf⟩ := h
  have := hread _ _ hf (by simp; omega)
  simp [readAnnotated, readName, readRole, expect, ht, hrole, this, bind, Except.bind, pure,
    Except.pure]

theorem readStatement_of_derives {us : List Token} {s : Statement} (h : DerivesStatement us s)
    (rest : List Token) {n : Nat} (hn : 2 * us.length ≤ n) :
    readStatement n (us ++ rest) = .ok (s, rest) := by
  have hrest : Ends Token.extendsFormula (.rparenDot :: rest) := by
    simp [Token.extendsFormula, Token.extendsAtom]
  cases h with
  | @fof ts a h =>
    simp only [List.length_cons, List.length_append] at hn
    have := readAnnotated_of_derives h fun vs f hf hvs =>
      readFormula_of_derives hf (n := n) (by omega) hrest
    simpa [readStatement] using this
  | @cnf ts a h =>
    simp only [List.length_cons, List.length_append] at hn
    have := readAnnotated_of_derives h fun vs f hf hvs =>
      readClauseFormula_of_derives hf (n := n) (by omega) hrest
    simpa [readStatement] using this
  | whole file => rfl
  | selection file h =>
    simp [readStatement, readInclude, expect, readNames_of_derives h, bind, Except.bind, pure,
      Except.pure]

theorem DerivesStatement.length_pos {us : List Token} {s : Statement} (h : DerivesStatement us s) :
    0 < us.length := by
  cases h <;> simp

private theorem readStatements_of_derives {us : List Token} {ss : List Statement}
    (h : DerivesDocument us ss) : ∀ n, us.length ≤ n → readStatements n us = .ok ss := by
  induction h with
  | nil =>
    intro n _
    cases n <;> rfl
  | @cons ts us s ss hs _ ih =>
    intro n hn
    have hpos := hs.length_pos
    rw [List.length_append] at hn
    obtain ⟨n, rfl⟩ := Nat.exists_eq_add_of_le' (show 1 ≤ n by omega)
    have hread := readStatement_of_derives hs us (n := nesting (ts ++ us))
      (by simp [nesting]; omega)
    have hrest := ih n (by omega)
    cases hts : ts ++ us with
    | nil => simp_all
    | cons t vs =>
      rw [hts] at hread
      simp [readStatements, hread, hrest]

/-! ### Documents fit -/

theorem joins_of_formulaName? {t : Token} {s : String} (h : formulaName? t = some s) :
    t.joins = true := by
  cases t <;> simp [formulaName?] at h <;> rfl

theorem DerivesNames.joins {ts : List Token} {names : List String} (h : DerivesNames ts names) :
    Joins ts := by
  induction h with
  | one ht => exact joins_nil.cons (joins_of_formulaName? ht)
  | more ht _ ih => exact (ih.cons rfl).cons (joins_of_formulaName? ht)

private theorem DerivesAnnotated.joins {derives : List Token → Formula → Prop} {ts : List Token}
    {a : Annotated} (h : DerivesAnnotated derives ts a) (hf : ∀ us f, derives us f → Joins us) :
    Joins ts := by
  obtain ⟨ht, -, h⟩ := h
  exact ((((hf _ _ h).cons rfl).cons rfl).cons rfl).cons (joins_of_formulaName? ht)

theorem DerivesStatement.joins {ts : List Token} {s : Statement} (h : DerivesStatement ts s) :
    Joins ts := by
  cases h with
  | fof h =>
    have hbody := h.joins fun _ _ => DerivesFormula.joins
    exact ((hbody.mark rfl joins_nil).cons rfl).cons rfl
  | cnf h =>
    have hbody := h.joins fun _ _ => DerivesClause.joins
    exact ((hbody.mark rfl joins_nil).cons rfl).cons rfl
  | whole file => exact (((joins_nil.cons rfl).cons rfl).cons rfl).cons rfl
  | selection file h =>
    have hend : Joins [.rbrack, .rparenDot] := (joins_nil.cons rfl).cons rfl
    exact (((((h.joins.append hend).cons rfl).cons rfl).cons rfl).cons rfl).cons rfl

theorem DerivesDocument.joins {ts : List Token} {ss : List Statement} (h : DerivesDocument ts ss) :
    Joins ts := by
  induction h with
  | nil => exact joins_nil
  | cons h _ ih => exact h.joins.append ih

/-! ## Section 4: Parsing is exact -/

/-- `accept` takes exactly the sequences of tokens that have a derivation and `parse` exactly the
    texts that spell one, both with the value that the derivation builds, and no sequence has two
    values. -/
structure ParsesExactly {α : Type} (derives : List Token → α → Prop)
    (accept : List Token → Except ParseError α) (parse : String → Except ParseError α) : Prop where
  accept_iff : ∀ ts a, accept ts = .ok a ↔ derives ts a
  parse_iff : ∀ text a, parse text = .ok a ↔ ∃ ts, Spells false text.toList ts ∧ derives ts a
  unambiguous : ∀ ts a b, derives ts a → derives ts b → a = b

/-- It is enough to scan the text and to accept its tokens. -/
theorem ParsesExactly.of_scan {α : Type} {derives : List Token → α → Prop}
    {accept : List Token → Except ParseError α} {parse : String → Except ParseError α}
    (haccept : ∀ ts a, accept ts = .ok a ↔ derives ts a) (hjoins : ∀ ts a, derives ts a → Joins ts)
    (hparse : ∀ text, parse text = match scan text with
      | none => .error .unexpected
      | some ts => accept ts) : ParsesExactly derives accept parse where
  accept_iff := haccept
  parse_iff text a := by
    constructor
    · intro h
      rw [hparse] at h
      split at h
      next => cases h
      next ts hts => exact ⟨ts, spells_of_scanFrom hts, (haccept ts a).1 h⟩
    · rintro ⟨ts, hts, h⟩
      have hscan : scan text = some ts := scanFrom_of_spells hts (hjoins ts a h).isChain
      rw [hparse, hscan]
      exact (haccept ts a).2 h
  unambiguous ts a b ha hb := by
    have h := ((haccept ts a).2 ha).symm.trans ((haccept ts b).2 hb)
    exact Except.ok.inj h

private theorem complete_eq_ok {α : Type} {p : Parsed α} {a : α} :
    complete p = .ok a ↔ p = .ok (a, []) := by
  unfold complete
  split <;> simp

/-- A reader that finds every phrase with a derivation accepts exactly these. -/
theorem complete_read_eq_ok {α : Type} {derives : List Token → α → Prop}
    {read : Nat → List Token → Parsed α} (hsound : ∀ n, Sound derives (read n))
    (hread : ∀ ts a, derives ts a → read (nesting ts) (ts ++ []) = .ok (a, [])) (ts : List Token)
    (a : α) : complete (read (nesting ts) ts) = .ok a ↔ derives ts a := by
  rw [complete_eq_ok]
  constructor
  · intro h
    obtain ⟨us, hus, ha⟩ := hsound _ _ _ _ h
    rwa [hus, List.append_nil]
  · intro h
    simpa using hread ts a h

theorem parsesExactly_formula :
    ParsesExactly DerivesFormula (fun ts => complete (readFormula (nesting ts) ts))
      parseFormula := by
  apply ParsesExactly.of_scan
  · apply complete_read_eq_ok
    · exact fun n => (soundTo n).formula
    · exact fun ts f h => readFormula_of_derives h (by simp [nesting]) (by simp)
  · exact fun _ _ => DerivesFormula.joins
  · exact fun _ => rfl

theorem parsesExactly_term :
    ParsesExactly DerivesTerm (fun ts => complete (readTerm (nesting ts) ts)) parseTerm := by
  apply ParsesExactly.of_scan
  · apply complete_read_eq_ok
    · exact sound_readTerm
    · exact fun ts t h => readTerm_of_derives h (by simp [nesting]; omega) (by simp)
  · exact fun _ _ => DerivesTerm.joins
  · exact fun _ => rfl

private theorem parsesExactly_document :
    ParsesExactly DerivesDocument (fun ts => readStatements ts.length ts) parseDocument := by
  apply ParsesExactly.of_scan
  · intro ts ss
    exact ⟨derivesDocument_of_readStatements, fun h => readStatements_of_derives h _ le_rfl⟩
  · exact fun _ _ => DerivesDocument.joins
  · exact fun _ => rfl

/-! ### Documents without includes -/

private theorem exists_expandDocument_eq (tree : FileTree) (dir : List String) (depth : Nat)
    (text : String) :
    ∃ included, expandDocument tree dir depth text = expandWith included text := by
  cases depth with
  | zero => exact ⟨_, rfl⟩
  | succ depth => exact ⟨_, rfl⟩

private theorem mapM_eq_ok_map {ε α β : Type} {g : α → Except ε β} {k : α → β} {as : List α}
    (h : ∀ a ∈ as, g a = .ok (k a)) : as.mapM g = .ok (as.map k) := by
  induction as with
  | nil => rfl
  | cons a as ih =>
    rw [List.mapM_cons, h a (by simp), ih fun b hb => h b (by simp [hb])]
    rfl

/-- The formula of a statement that is no include directive. -/
def Statement.formulas : Statement → List Annotated
  | .formula a => [a]
  | .inclusion _ _ => []

private theorem flatten_formulas (entries : List Annotated) :
    ((entries.map Statement.formula).map Statement.formulas).flatten = entries := by
  induction entries with
  | nil => rfl
  | cons a entries ih => simpa [Statement.formulas] using ih

private theorem expandWith_of_parseDocument {text : String} {entries : List Annotated}
    (h : parseDocument text = .ok (entries.map .formula))
    (included : String → Option (List String) → Except DocumentError (List Annotated)) :
    expandWith included text = .ok entries := by
  rw [expandWith, h]
  dsimp only
  rw [mapM_eq_ok_map (k := Statement.formulas) (by simp [Statement.formulas])]
  exact congrArg Except.ok (flatten_formulas entries)

private theorem exists_parseDocument_of_expandWith {text : String} {entries : List Annotated}
    {included : String → Option (List String) → Except DocumentError (List Annotated)}
    (h : expandWith included text = .ok entries) : ∃ ss, parseDocument text = .ok ss := by
  rw [expandWith] at h
  split at h
  next => cases h
  next ss hss => exact ⟨ss, hss⟩

/-- Parsing accepts exactly the grammar, from each of its start symbols, and the grammar is
    unambiguous.  A document is read as the formulas of its derivation when no statement of it is
    an include directive, whatever the files around it, and it is read only if it has a
    derivation. -/
theorem parsesExactly_grammar :
    ParsesExactly DerivesFormula (fun ts => complete (readFormula (nesting ts) ts)) parseFormula ∧
    ParsesExactly DerivesTerm (fun ts => complete (readTerm (nesting ts) ts)) parseTerm ∧
    ParsesExactly DerivesDocument (fun ts => readStatements ts.length ts) parseDocument ∧
    ∀ (tree : FileTree) (dir text : String) (entries : List Annotated),
      ((∃ ts, Spells false text.toList ts ∧ DerivesDocument ts (entries.map .formula)) →
        documentOfText tree dir text = .ok entries) ∧
      (documentOfText tree dir text = .ok entries →
        ∃ ts ss, Spells false text.toList ts ∧ DerivesDocument ts ss ∧
          ((∀ s ∈ ss, ∃ a, s = .formula a) → ss = entries.map .formula)) := by
  refine ⟨parsesExactly_formula, parsesExactly_term, parsesExactly_document, ?_⟩
  intro tree dir text entries
  obtain ⟨included, hexpand⟩ :=
    exists_expandDocument_eq tree (pathParts dir) tree.files.length text
  rw [documentOfText, hexpand]
  constructor
  · intro h
    apply expandWith_of_parseDocument
    exact (parsesExactly_document.parse_iff _ _).2 h
  · intro h
    obtain ⟨ss, hss⟩ := exists_parseDocument_of_expandWith h
    obtain ⟨ts, hts, hder⟩ := (parsesExactly_document.parse_iff _ _).1 hss
    refine ⟨ts, ss, hts, hder, fun hformulas => ?_⟩
    -- the formulas that are read are those of the statements
    obtain ⟨as, rfl⟩ : ss ∈ Set.range (List.map Statement.formula) := by
      rw [Set.range_list_map]
      intro s hs
      obtain ⟨a, rfl⟩ := hformulas s hs
      exact ⟨a, rfl⟩
    obtain rfl := Except.ok.inj ((expandWith_of_parseDocument hss included).symm.trans h)
    rfl

end Clausal.Tptp
