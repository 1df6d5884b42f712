import Clausal.Proofs.Tptp.Completeness
import Mathlib.Data.List.Chain
import Mathlib.Data.List.Infix
import Mathlib.Data.List.TakeWhile

/-!
# What scanning finds

`Spells` says which texts spell a sequence of tokens, one rule for each kind of token and of gap
between tokens, without a word on how a text is to be cut.  A text may then be cut in several ways:
`~|` is one mark or two.  Scanning takes the longest mark at each place, and that is the only way to
cut the text into a sequence in which no two neighbours could be read as a longer mark.  Every
sequence with a derivation is of that kind.

## Main definitions

- `Lexeme`, `Gap`, `Spells`: which texts spell which tokens
- `Fits`: which tokens may stand side by side

## Main statements

- `spells_of_scanFrom`: scanning finds tokens that the text spells
- `scanFrom_of_spells`: and it finds every sequence of fitting tokens that the text spells
- `DerivesFormula.joins` and others: derived sequences fit
-/

namespace Clausal.Tptp

/-! ## Section 1: Spellings -/

/-- The marks and how they are spelled.  `glued` tells whether a token ends directly before. -/
def marks (glued : Bool) : List (List Char × Token) :=
  [(['<', '=', '>'], .connective .iff), (['<', '~', '>'], .connective .xor),
    (['<', '='], .connective .revImp), (['=', '>'], .connective .imp),
    (['~', '|'], .connective .nor), (['~', '&'], .connective .nand), (['!', '='], .unequal),
    ([')', '.'], .rparenDot), (['('], .lparen glued), ([')'], .rparen), (['['], .lbrack),
    ([']'], .rbrack), ([','], .comma), ([':'], .colon), (['~'], .tilde), (['|'], .bar),
    (['&'], .ampersand), (['!'], .bang), (['?'], .question), (['='], .equal)]

/-- `Lexeme glued cs t rest`: the text `cs` starts with a spelling of `t`, which `rest` follows.
    Words and numerals end where no further character belongs to them. -/
inductive Lexeme (glued : Bool) : List Char → Token → List Char → Prop where
  | lower {c : Char} {w rest : List Char} : c.isLower → (∀ d ∈ w, isWordChar d) →
      Ends isWordChar rest → Lexeme glued (c :: (w ++ rest)) (.lower (String.ofList (c :: w))) rest
  | upper {c : Char} {w rest : List Char} : c.isUpper → (∀ d ∈ w, isWordChar d) →
      Ends isWordChar rest → Lexeme glued (c :: (w ++ rest)) (.upper (String.ofList (c :: w))) rest
  | digits {c : Char} {w rest : List Char} : c.isDigit → (∀ d ∈ w, d.isDigit) →
      Ends Char.isDigit rest →
      Lexeme glued (c :: (w ++ rest)) (.digits (String.ofList (c :: w))) rest
  | quoted {c : Char} {w rest : List Char} : (∀ d ∈ c :: w, isQuotable d) →
      Lexeme glued ('\x27' :: (c :: w ++ '\x27' :: rest)) (.quoted (String.ofList (c :: w))) rest
  | mark {m : List Char} {t : Token} {rest : List Char} : (m, t) ∈ marks glued →
      Lexeme glued (m ++ rest) t rest

/-- `Gap cs rest`: the text `cs` starts with a blank or a comment, which `rest` follows. -/
inductive Gap : List Char → List Char → Prop where
  | blank {c : Char} {rest : List Char} : isBlank c → Gap (c :: rest) rest
  | line {w rest : List Char} : (∀ d ∈ w, d ≠ '\n') → Ends (· ≠ '\n') rest →
      Gap ('%' :: (w ++ rest)) rest
  | block {w rest : List Char} : ¬ ['*', '/'] <:+: w →
      Gap ('/' :: '*' :: (w ++ '*' :: '/' :: rest)) rest

/-- The text spells the tokens, with gaps between them where it likes.  `glued` tells whether a
    token ends directly before the text. -/
inductive Spells : Bool → List Char → List Token → Prop where
  | nil {glued : Bool} : Spells glued [] []
  | gap {glued : Bool} {cs rest : List Char} {ts : List Token} :
      Gap cs rest → Spells false rest ts → Spells glued cs ts
  | token {glued : Bool} {cs rest : List Char} {t : Token} {ts : List Token} :
      Lexeme glued cs t rest → Spells true rest ts → Spells glued cs (t :: ts)

/-! ## Section 2: Scanning finds what the text spells -/

theorem ends_dropWhile (p : Char → Bool) (cs : List Char) : Ends p (cs.dropWhile p) := by
  induction cs with
  | nil => simp
  | cons c cs ih => by_cases hc : p c <;> simp [hc, ih]

theorem Ends.dropWhile {p : Char → Bool} {w rest : List Char} (hw : ∀ d ∈ w, p d)
    (h : Ends p rest) : (w ++ rest).dropWhile p = rest := by
  rw [List.dropWhile_append_of_pos hw]
  cases rest with
  | nil => rfl
  | cons c rest => simp_all

theorem Ends.takeWhile {p : Char → Bool} {w rest : List Char} (hw : ∀ d ∈ w, p d)
    (h : Ends p rest) : (w ++ rest).takeWhile p = w := by
  rw [List.takeWhile_append_of_pos hw]
  cases rest with
  | nil => simp
  | cons c rest => simp_all

theorem skipBlock_eq_some_iff {cs rest : List Char} :
    skipBlock cs = some rest ↔ ∃ w, ¬ ['*', '/'] <:+: w ∧ cs = w ++ '*' :: '/' :: rest := by
  constructor
  · intro h
    fun_induction skipBlock cs with
    | case1 => simp at h
    | case2 cs =>
      obtain rfl : cs = rest := by simpa using h
      exact ⟨[], by simp, rfl⟩
    | case3 c cs hcs ih =>
      obtain ⟨w, hw, rfl⟩ := ih h
      refine ⟨c :: w, ?_, rfl⟩
      rw [List.infix_cons_iff]
      rintro (⟨u, hu⟩ | hu)
      · -- the end would be found one character earlier
        obtain ⟨rfl, rfl⟩ : '*' = c ∧ '/' :: u = w := by simpa using hu
        exact hcs _ rfl rfl
      · exact hw hu
  · rintro ⟨w, hw, rfl⟩
    induction w with
    | nil => simp [skipBlock]
    | cons c w ih =>
      rw [List.infix_cons_iff, not_or] at hw
      rw [List.cons_append, skipBlock, ih hw.2]
      rintro rest' rfl h
      cases w with
      | nil => simp at h
      | cons d w =>
        obtain rfl : d = '/' := by simp_all
        exact hw.1 ⟨w, rfl⟩

private theorem mem_marks_of_mark? {glued : Bool} {cs rest : List Char} {t : Token}
    (h : mark? glued cs = some (t, rest)) : ∃ m, (m, t) ∈ marks glued ∧ cs = m ++ rest := by
  fun_cases mark? glued cs <;>
    simp_all only [mark?, Option.some.injEq, Prod.mk.injEq, reduceCtorEq]
  all_goals
    obtain ⟨rfl, rfl⟩ := h
    simp [marks]

/-- A word and what follows it, cut where `scanFrom` cuts. -/
theorem Lexeme.word {glued : Bool} {p : Char → Bool} {c : Char} {cs : List Char}
    {kind : String → Token}
    (h : ∀ {w rest : List Char}, (∀ d ∈ w, p d) → Ends p rest →
      Lexeme glued (c :: (w ++ rest)) (kind (String.ofList (c :: w))) rest) :
    Lexeme glued (c :: cs) (kind (String.ofList (c :: cs.takeWhile p))) (cs.dropWhile p) := by
  have := h (w := cs.takeWhile p) (fun d => List.mem_takeWhile_imp) (ends_dropWhile p cs)
  rwa [List.takeWhile_append_dropWhile] at this

/-- Scanning finds tokens that the text spells. -/
theorem spells_of_scanFrom {glued : Bool} {cs : List Char} {ts : List Token}
    (h : scanFrom glued cs = some ts) : Spells glued cs ts := by
  fun_induction scanFrom glued cs generalizing ts with
  | case1 =>
    obtain rfl : [] = ts := by simpa using h
    exact .nil
  | case2 glued c cs hc ih => exact .gap (.blank hc) (ih h)
  | case3 glued cs hc ih =>
    refine .gap ?_ (ih h)
    have := Gap.line (w := cs.takeWhile (· ≠ '\n'))
      (fun d hd => by simpa using List.mem_takeWhile_imp hd) (ends_dropWhile _ cs)
    rwa [List.takeWhile_append_dropWhile] at this
  | case4 glued c cs _ _ hc ih =>
    obtain ⟨us, hus, rfl⟩ := Option.map_eq_some_iff.1 h
    exact .token (.word (.lower hc)) (ih hus)
  | case5 glued c cs _ _ _ hc ih =>
    obtain ⟨us, hus, rfl⟩ := Option.map_eq_some_iff.1 h
    exact .token (.word (.upper hc)) (ih hus)
  | case6 glued c cs _ _ _ _ hc ih =>
    obtain ⟨us, hus, rfl⟩ := Option.map_eq_some_iff.1 h
    exact .token (.word (.digits hc)) (ih hus)
  | case7 => simp at h
  | case8 glued cs rest hrest _ _ _ _ _ ih =>
    obtain ⟨w, hw, rfl⟩ := skipBlock_eq_some_iff.1 hrest
    exact .gap (.block hw) (ih h)
  | case9 => simp at h
  | case10 glued cs q qs rest hrest hq _ _ _ _ _ _ ih =>
    obtain ⟨us, hus, rfl⟩ := Option.map_eq_some_iff.1 h
    have hcs : cs = q :: qs ++ '\x27' :: rest := by
      rw [← hq, ← hrest, List.takeWhile_append_dropWhile]
    rw [hcs]
    exact .token (.quoted fun d hd => List.mem_takeWhile_imp (hq ▸ hd)) (ih hus)
  | case11 => simp at h
  | case12 => simp at h
  | case13 glued c cs _ _ _ _ _ _ _ t rest hm ih =>
    obtain ⟨us, hus, rfl⟩ := Option.map_eq_some_iff.1 h
    obtain ⟨m, hm, hcs⟩ := mem_marks_of_mark? hm
    rw [hcs]
    exact .token (.mark hm) (ih hus)

/-! ## Section 3: Scanning finds every fitting sequence -/

private theorem isLower_iff_toNat {c : Char} : c.isLower ↔ 97 ≤ c.toNat ∧ c.toNat ≤ 122 := by
  show (decide (c.val ≥ 'a'.val) && decide (c.val ≤ 'z'.val)) ↔ _
  simp [UInt32.le_iff_toNat_le]

private theorem isUpper_iff_toNat {c : Char} : c.isUpper ↔ 65 ≤ c.toNat ∧ c.toNat ≤ 90 := by
  show decide (c.val ≥ 'A'.val ∧ c.val ≤ 'Z'.val) ↔ _
  simp [UInt32.le_iff_toNat_le]

private theorem isDigit_iff_toNat {c : Char} : c.isDigit ↔ 48 ≤ c.toNat ∧ c.toNat ≤ 57 := by
  simp [Char.isDigit, UInt32.le_iff_toNat_le]

private theorem toNat_le_of_isBlank {c : Char} (h : isBlank c) : c.toNat ≤ 32 := by
  simp only [isBlank, Bool.or_eq_true, decide_eq_true_eq] at h
  rcases h with (((rfl | rfl) | rfl) | rfl) | rfl <;> decide

private theorem scanFrom_of_gap {glued : Bool} {cs rest : List Char} (h : Gap cs rest) :
    scanFrom glued cs = scanFrom false rest := by
  cases h with
  | blank hc =>
    rw [scanFrom.eq_def]
    simp [hc]
  | line hw hrest =>
    rw [scanFrom.eq_def]
    simp only [isBlank, Char.reduceEq, decide_false, Bool.or_self, Bool.false_eq_true, if_false,
      if_true]
    rw [hrest.dropWhile (by simpa using hw)]
  | @block w _ hw =>
    have : skipBlock (w ++ '*' :: '/' :: rest) = some rest := skipBlock_eq_some_iff.2 ⟨w, hw, rfl⟩
    rw [scanFrom.eq_def]
    simp only [isBlank, Char.reduceEq, Char.reduceIsLower, Char.reduceIsUpper, Char.reduceIsDigit,
      decide_false, Bool.or_self, Bool.false_eq_true, if_false, if_true]
    split <;> simp_all

/-- Whether a character directly after a mark makes a longer mark of it. -/
def Token.grows (t : Token) (c : Char) : Bool :=
  (t = .connective .revImp ∨ t = .equal) ∧ c = '>' ∨ t = .tilde ∧ (c = '|' ∨ c = '&') ∨
    t = .bang ∧ c = '=' ∨ t = .rparen ∧ c = '.'

private theorem mark?_of_mem_marks {glued : Bool} {m rest : List Char} {t : Token}
    (h : (m, t) ∈ marks glued) (hrest : Ends t.grows rest) :
    mark? glued (m ++ rest) = some (t, rest) := by
  suffices ∀ p ∈ marks glued, Ends p.2.grows rest →
      mark? glued (p.1 ++ rest) = some (p.2, rest) from this _ h hrest
  simp only [marks, List.forall_mem_cons, List.cons_append, List.nil_append, List.not_mem_nil,
    false_imp_iff, implies_true, and_true]
  and_intros
  all_goals
    intro h
    rw [mark?]
  -- what is left are the marks that start a longer one
  all_goals
    rintro cs rfl
    simp [Token.grows] at h

/-- The first character of a mark belongs to no other token and to no gap. -/
theorem exists_cons_of_mem_marks {glued : Bool} {m : List Char} {t : Token}
    (h : (m, t) ∈ marks glued) :
    ∃ c w, m = c :: w ∧ isBlank c = false ∧ c ≠ '%' ∧ c.isLower = false ∧ c.isUpper = false ∧
      c.isDigit = false ∧ c ≠ '/' ∧ c ≠ '\x27' := by
  suffices ∀ p ∈ marks glued, ∃ c w, p.1 = c :: w ∧ isBlank c = false ∧ c ≠ '%' ∧
      c.isLower = false ∧ c.isUpper = false ∧ c.isDigit = false ∧ c ≠ '/' ∧ c ≠ '\x27' from this _ h
  simp [marks, isBlank]

private theorem scanFrom_of_lexeme {glued : Bool} {cs rest : List Char} {t : Token}
    (h : Lexeme glued cs t rest) (hrest : Ends t.grows rest) :
    scanFrom glued cs = (scanFrom true rest).map (t :: ·) := by
  rw [scanFrom.eq_def]
  cases h with
  | @lower c w _ hc hw hw' =>
    have := isLower_iff_toNat.1 hc
    have hb : ¬ isBlank c := fun h => by have := toNat_le_of_isBlank h; omega
    have hp : c ≠ '%' := by rintro rfl; simp at this
    simp [hb, hp, hc, hw'.dropWhile hw, hw'.takeWhile hw]
  | @upper c w _ hc hw hw' =>
    have := isUpper_iff_toNat.1 hc
    have hb : ¬ isBlank c := fun h => by have := toNat_le_of_isBlank h; omega
    have hp : c ≠ '%' := by rintro rfl; simp at this
    have hl : ¬ c.isLower := by rw [isLower_iff_toNat]; omega
    simp [hb, hp, hl, hc, hw'.dropWhile hw, hw'.takeWhile hw]
  | @digits c w _ hc hw hw' =>
    have := isDigit_iff_toNat.1 hc
    have hb : ¬ isBlank c := fun h => by have := toNat_le_of_isBlank h; omega
    have hp : c ≠ '%' := by rintro rfl; simp at this
    have hl : ¬ c.isLower := by rw [isLower_iff_toNat]; omega
    have hu : ¬ c.isUpper := by rw [isUpper_iff_toNat]; omega
    simp [hb, hp, hl, hu, hc, hw'.dropWhile hw, hw'.takeWhile hw]
  | @quoted c w _ hw =>
    have hq : Ends isQuotable ('\x27' :: rest) := by simp [isQuotable]
    simp only [isBlank, Char.reduceEq, Char.reduceIsLower, Char.reduceIsUpper, Char.reduceIsDigit,
      decide_false, Bool.or_self, Bool.false_eq_true, if_false, if_true]
    split
    next q qs rest' ht hd =>
      rw [hq.dropWhile hw] at hd
      rw [hq.takeWhile hw] at ht
      obtain ⟨rfl, rfl⟩ : c = q ∧ w = qs := by simpa using ht
      obtain rfl : rest = rest' := by simpa using hd
      rfl
    next h => exact (h _ _ _ (hq.takeWhile hw) (hq.dropWhile hw)).elim
  | mark hm =>
    obtain ⟨c, w, rfl, hb, hp, hl, hu, hd, hs, hq⟩ := exists_cons_of_mem_marks hm
    have := mark?_of_mem_marks hm hrest
    simp only [List.cons_append, hb, hp, hl, hu, hd, hs, hq, Bool.false_eq_true, if_false] at this ⊢
    split <;> simp_all

/-- The tokens may stand side by side: written without a gap, they do not start with a longer
    mark. -/
def Fits (t u : Token) : Prop :=
  ¬ (t = .tilde ∧ (u = .bar ∨ u = .ampersand)) ∧
    ¬ (t = .bang ∧ (u = .equal ∨ u = .connective .imp))

/-- A text that starts with a character that belongs to marks only starts with a mark. -/
theorem Spells.exists_mark {glued : Bool} {c : Char} {cs : List Char} {ts : List Token}
    (h : Spells glued (c :: cs) ts) (hc : c ∈ ['|', '&', '=', '>', '.']) :
    ∃ w t us, (c :: w, t) ∈ marks glued ∧ ts = t :: us := by
  have hclass : isBlank c = false ∧ c ≠ '%' ∧ c.isLower = false ∧ c.isUpper = false ∧
      c.isDigit = false ∧ c ≠ '/' ∧ c ≠ '\x27' := by
    simp only [List.mem_cons, List.not_mem_nil, or_false] at hc
    rcases hc with rfl | rfl | rfl | rfl | rfl <;> simp [isBlank]
  obtain ⟨hb, hp, hl, hu, hd, hs, hq⟩ := hclass
  generalize hcs : c :: cs = text at h
  cases h with
  | nil => cases hcs
  | gap hgap _ => cases hgap <;> simp_all
  | token hlex _ =>
    cases hlex with
    | mark hm =>
      obtain ⟨d, w, rfl, -⟩ := exists_cons_of_mem_marks hm
      obtain ⟨rfl, -⟩ : c = d ∧ _ := by simpa using hcs
      exact ⟨w, _, _, hm, rfl⟩
    | _ => simp_all

/-- No character after a token makes a longer mark of it, if the next token fits. -/
theorem Spells.ends {glued : Bool} {cs : List Char} {t : Token} {ts : List Token}
    (h : Spells glued cs ts) (hts : ∀ u ∈ ts.head?, Fits t u) : Ends t.grows cs := by
  cases cs with
  | nil => simp
  | cons c cs =>
    rw [ends_cons, Bool.eq_false_iff]
    intro hgrows
    simp only [Token.grows, decide_eq_true_eq] at hgrows
    have hc : c ∈ ['|', '&', '=', '>', '.'] := by
      simp only [List.mem_cons]
      tauto
    obtain ⟨w, u, us, hm, rfl⟩ := h.exists_mark hc
    have hu : Fits t u := hts u rfl
    -- the marks that start with `c` are those that do not fit
    obtain ⟨-, rfl⟩ | ⟨rfl, rfl | rfl⟩ | ⟨rfl, rfl⟩ | ⟨rfl, rfl⟩ := hgrows
    all_goals
      simp [marks] at hm
    · simp_all [Fits]
    · simp_all [Fits]
    · rcases hm with ⟨-, rfl⟩ | ⟨-, rfl⟩ <;> simp [Fits] at hu

/-- Scanning finds every sequence of fitting tokens that the text spells. -/
theorem scanFrom_of_spells {glued : Bool} {cs : List Char} {ts : List Token}
    (h : Spells glued cs ts) (hts : ts.IsChain Fits) :
    scanFrom glued cs = some ts := by
  induction h with
  | nil => rw [scanFrom.eq_def]
  | gap hgap _ ih => rw [scanFrom_of_gap hgap, ih hts]
  | token hlex hrest ih =>
    rw [List.isChain_cons] at hts
    rw [scanFrom_of_lexeme hlex (hrest.ends hts.1), ih hts.2]
    rfl

/-! ## Section 4: Derived sequences fit -/

/-- The tokens fit, and they fit whatever follows them. -/
def Joins (ts : List Token) : Prop :=
  ∀ rest, rest.IsChain Fits → (ts ++ rest).IsChain Fits

/-- Whether a token fits whatever follows it. -/
def Token.joins (t : Token) : Bool :=
  t ≠ .tilde ∧ t ≠ .bang

theorem Joins.isChain {ts : List Token} (h : Joins ts) : ts.IsChain Fits := by
  simpa using h [] .nil

@[simp]
theorem joins_nil : Joins [] :=
  fun _ h => h

theorem Joins.append {ts us : List Token} (hts : Joins ts) (hus : Joins us) : Joins (ts ++ us) := by
  intro rest hrest
  rw [List.append_assoc]
  exact hts _ (hus _ hrest)

theorem Joins.cons {t : Token} {ts : List Token} (ht : t.joins = true) (hts : Joins ts) :
    Joins (t :: ts) := by
  intro rest hrest
  simp only [Token.joins, decide_eq_true_eq] at ht
  rw [List.cons_append, List.isChain_cons]
  exact ⟨fun u _ => by simp [Fits, ht.1, ht.2], hts rest hrest⟩

/-- Two phrases with a mark between them. -/
theorem Joins.mark {t : Token} {ts us : List Token} (hts : Joins ts) (ht : t.joins = true)
    (hus : Joins us) : Joins (ts ++ t :: us) :=
  hts.append (hus.cons ht)

/-- A token that fits the first token of a phrase. -/
theorem Joins.cons_of_fits {t u : Token} {ts : List Token} (ht : Fits t u) (h : Joins (u :: ts)) :
    Joins (t :: u :: ts) := by
  intro rest hrest
  simp only [List.cons_append, List.isChain_cons_cons]
  exact ⟨ht, h rest hrest⟩

theorem joins_of_functor? {t : Token} {f : Ident} (h : functor? t = some f) : t.joins = true := by
  obtain ⟨s, -, rfl | rfl⟩ := functor?_eq_some h <;> rfl

private theorem joins_of_derivesTerm_derivesTerms :
    (∀ ts t, DerivesTerm ts t → Joins ts) ∧ ∀ ts args, DerivesTerms ts args → Joins ts := by
  refine derivesTerm_induction ?var ?constant ?application ?one ?more
  case var => exact fun x => joins_nil.cons rfl
  case constant => exact fun t c ht => joins_nil.cons (joins_of_functor? ht)
  case application =>
    intro t f glued ts args ht _ ih
    apply Joins.cons (joins_of_functor? ht)
    apply Joins.cons rfl
    exact ih.mark rfl joins_nil
  case one => exact fun ts t _ ih => ih
  case more => exact fun ts us t args _ _ ih ih' => ih.mark rfl ih'

theorem DerivesTerm.joins {ts : List Token} {t : Term} (h : DerivesTerm ts t) : Joins ts :=
  joins_of_derivesTerm_derivesTerms.1 ts t h

theorem DerivesAtom.joins {ts : List Token} {f : Formula} (h : DerivesAtom ts f) : Joins ts := by
  cases h with
  | proposition ht => exact (DerivesTerm.constant ht).joins
  | predicate ht hargs => exact (DerivesTerm.application ht hargs).joins
  | equal hl hr | unequal hl hr => exact hl.joins.mark rfl hr.joins

theorem DerivesVariables.joins {vs : List Token} {xs : List Ident} (h : DerivesVariables vs xs) :
    Joins vs := by
  induction h with
  | one x => exact joins_nil.cons rfl
  | more x _ ih => exact (ih.cons rfl).cons rfl

/-- A unit does not begin with a mark that could lengthen a `~` before it. -/
theorem DerivesUnit.exists_cons {ts : List Token} {f : Formula} (h : DerivesUnit ts f) :
    ∃ u us, ts = u :: us ∧ Fits .tilde u := by
  cases h with
  | atom h =>
    obtain ⟨u, us, rfl, hu⟩ := h.exists_cons
    exact ⟨u, us, rfl, by cases u <;> simp [Fits, Token.isWord] at hu ⊢⟩
  | _ => exact ⟨_, _, rfl, by simp [Fits]⟩

theorem joins_of_derivesUnit_derivesFormula :
    (∀ ts f, DerivesUnit ts f → Joins ts) ∧ ∀ ts f, DerivesFormula ts f → Joins ts := by
  refine derivesFormula_induction (R := fun op us _ => op.joins = true → Joins us)
    ?universal ?existential ?negation ?atom ?parentheses ?unit ?binary ?disjunction ?conjunction
    ?one ?more
  case universal =>
    intro vs ts xs f hxs _ ih
    apply Joins.cons_of_fits (by simp [Fits])
    apply Joins.cons rfl
    exact hxs.joins.mark rfl (ih.cons rfl)
  case existential =>
    intro vs ts xs f hxs _ ih
    apply Joins.cons rfl
    apply Joins.cons rfl
    exact hxs.joins.mark rfl (ih.cons rfl)
  case negation =>
    intro ts f h ih
    obtain ⟨u, us, rfl, hu⟩ := h.exists_cons
    exact ih.cons_of_fits hu
  case atom => exact fun ts f h => h.joins
  case parentheses => exact fun ts f glued _ ih => (ih.mark rfl joins_nil).cons rfl
  case unit => exact fun ts f _ ih => ih
  case binary => exact fun ts us f g c _ _ ih ih' => ih.mark rfl ih'
  case disjunction => exact fun ts us f gs _ _ ih ih' => ih.mark rfl (ih' rfl)
  case conjunction => exact fun ts us f gs _ _ ih ih' => ih.mark rfl (ih' rfl)
  case one => exact fun op ts f _ ih _ => ih
  case more => exact fun op ts us f gs _ _ ih ih' hop => ih.mark hop (ih' hop)

theorem DerivesFormula.joins {ts : List Token} {f : Formula} (h : DerivesFormula ts f) : Joins ts :=
  joins_of_derivesUnit_derivesFormula.2 ts f h

private theorem DerivesLiteral.joins {ts : List Token} {f : Formula} (h : DerivesLiteral ts f) :
    Joins ts := by
  cases h with
  | positive h => exact h.joins
  | negative h => exact joins_of_derivesUnit_derivesFormula.1 _ _ (.negation (.atom h))

theorem DerivesLiterals.joins {ts : List Token} {gs : List Formula} (h : DerivesLiterals ts gs) :
    Joins ts := by
  induction h with
  | one h => exact h.joins
  | more h _ ih => exact h.joins.mark rfl ih

theorem DerivesClause.joins {ts : List Token} {f : Formula} (h : DerivesClause ts f) :
    Joins ts := by
  cases h with
  | plain h =>
    obtain ⟨h⟩ := h
    exact h.joins
  | parentheses glued h =>
    obtain ⟨h⟩ := h
    exact (h.joins.mark rfl joins_nil).cons rfl

end Clausal.Tptp
