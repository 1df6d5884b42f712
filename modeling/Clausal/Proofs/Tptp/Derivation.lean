import Clausal.Tptp.Grammar
import Mathlib.Tactic.Common

/-!
# Derivations of terms and formulas

The grammar of terms and formulas, as relations between a sequence of tokens and the value that a
derivation of it builds.  Every rule of the grammar is a constructor.

What a reader takes from the front of a sequence has a derivation: `Sound` says so of one reader,
and it passes from the readers of the parts of a phrase to the reader of the phrase.

## Main definitions

- `DerivesTerm`, `DerivesAtom`, `DerivesFormula`, `DerivesClause`: the rules of the grammar
- `Sound`: a reader takes only what has a derivation

## Main statements

- `sound_readTerm`, `soundTo`, `sound_readClauseFormula`: the readers are sound
-/

namespace Clausal.Tptp

/-! ## Section 1: The grammar -/

mutual

/-- A word alone is a constant, a word with arguments a function term. -/
inductive DerivesTerm : List Token → Term → Prop
  | var (x : String) : DerivesTerm [.upper x] (.var (.name x))
  | constant {t : Token} {c : Ident} : functor? t = some c → DerivesTerm [t] (.const c)
  | application {t : Token} {f : Ident} {glued : Bool} {ts : List Token} {args : List Term} :
      functor? t = some f → DerivesTerms ts args →
      DerivesTerm (t :: .lparen glued :: (ts ++ [.rparen])) (.app f args)

/-- Terms separated by commas, at least one. -/
inductive DerivesTerms : List Token → List Term → Prop
  | one {ts : List Token} {t : Term} : DerivesTerm ts t → DerivesTerms ts [t]
  | more {ts us : List Token} {t : Term} {args : List Term} :
      DerivesTerm ts t → DerivesTerms us args → DerivesTerms (ts ++ .comma :: us) (t :: args)

end

/-- A predicate with or without arguments, an equation, or a negated equation. -/
inductive DerivesAtom : List Token → Formula → Prop
  | proposition {t : Token} {p : Ident} : functor? t = some p → DerivesAtom [t] (.atom (.pred p []))
  | predicate {t : Token} {p : Ident} {glued : Bool} {ts : List Token} {args : List Term} :
      functor? t = some p → DerivesTerms ts args →
      DerivesAtom (t :: .lparen glued :: (ts ++ [.rparen])) (.atom (.pred p args))
  | equal {ts us : List Token} {l r : Term} : DerivesTerm ts l → DerivesTerm us r →
      DerivesAtom (ts ++ .equal :: us) (.atom (.eq l r))
  | unequal {ts us : List Token} {l r : Term} : DerivesTerm ts l → DerivesTerm us r →
      DerivesAtom (ts ++ .unequal :: us) (.not (.atom (.eq l r)))

/-- Variables separated by commas, at least one. -/
inductive DerivesVariables : List Token → List Ident → Prop
  | one (x : String) : DerivesVariables [.upper x] [.name x]
  | more (x : String) {ts : List Token} {xs : List Ident} :
      DerivesVariables ts xs → DerivesVariables (.upper x :: .comma :: ts) (.name x :: xs)

mutual

/-- A quantified formula, a negation, an atom, or a formula in parentheses. -/
inductive DerivesUnit : List Token → Formula → Prop
  | universal {vs ts : List Token} {xs : List Ident} {f : Formula} :
      DerivesVariables vs xs → DerivesUnit ts f →
      DerivesUnit (.bang :: .lbrack :: (vs ++ .rbrack :: .colon :: ts)) (xs.foldr .all f)
  | existential {vs ts : List Token} {xs : List Ident} {f : Formula} :
      DerivesVariables vs xs → DerivesUnit ts f →
      DerivesUnit (.question :: .lbrack :: (vs ++ .rbrack :: .colon :: ts)) (xs.foldr .ex f)
  | negation {ts : List Token} {f : Formula} :
      DerivesUnit ts f → DerivesUnit (.tilde :: ts) (.not f)
  | atom {ts : List Token} {f : Formula} : DerivesAtom ts f → DerivesUnit ts f
  | parentheses {ts : List Token} {f : Formula} (glued : Bool) :
      DerivesFormula ts f → DerivesUnit (.lparen glued :: (ts ++ [.rparen])) f

/-- One unit, two units joined by a connective, or several joined by `|` or by `&`, which chain to
    the left. -/
inductive DerivesFormula : List Token → Formula → Prop
  | unit {ts : List Token} {f : Formula} : DerivesUnit ts f → DerivesFormula ts f
  | binary {ts us : List Token} {f g : Formula} (c : Connective) :
      DerivesUnit ts f → DerivesUnit us g →
      DerivesFormula (ts ++ .connective c :: us) (c.apply f g)
  | disjunction {ts us : List Token} {f : Formula} {gs : List Formula} :
      DerivesUnit ts f → DerivesUnits .bar us gs →
      DerivesFormula (ts ++ .bar :: us) (gs.foldl .or f)
  | conjunction {ts us : List Token} {f : Formula} {gs : List Formula} :
      DerivesUnit ts f → DerivesUnits .ampersand us gs →
      DerivesFormula (ts ++ .ampersand :: us) (gs.foldl .and f)

/-- Units separated by a mark, at least one. -/
inductive DerivesUnits : Token → List Token → List Formula → Prop
  | one {op : Token} {ts : List Token} {f : Formula} : DerivesUnit ts f → DerivesUnits op ts [f]
  | more {op : Token} {ts us : List Token} {f : Formula} {gs : List Formula} :
      DerivesUnit ts f → DerivesUnits op us gs → DerivesUnits op (ts ++ op :: us) (f :: gs)

end

/-- An atom, or `~` and an atom. -/
inductive DerivesLiteral : List Token → Formula → Prop
  | positive {ts : List Token} {f : Formula} : DerivesAtom ts f → DerivesLiteral ts f
  | negative {ts : List Token} {f : Formula} :
      DerivesAtom ts f → DerivesLiteral (.tilde :: ts) (.not f)

/-- Literals separated by `|`, at least one. -/
inductive DerivesLiterals : List Token → List Formula → Prop
  | one {ts : List Token} {f : Formula} : DerivesLiteral ts f → DerivesLiterals ts [f]
  | more {ts us : List Token} {f : Formula} {gs : List Formula} :
      DerivesLiteral ts f → DerivesLiterals us gs → DerivesLiterals (ts ++ .bar :: us) (f :: gs)

/-- A disjunction of literals, which chains to the left. -/
inductive DerivesDisjunction : List Token → Formula → Prop
  | literals {ts : List Token} {f : Formula} {gs : List Formula} :
      DerivesLiterals ts (f :: gs) → DerivesDisjunction ts (gs.foldl .or f)

/-- A disjunction of literals, in parentheses or not. -/
inductive DerivesClause : List Token → Formula → Prop
  | plain {ts : List Token} {f : Formula} : DerivesDisjunction ts f → DerivesClause ts f
  | parentheses {ts : List Token} {f : Formula} (glued : Bool) :
      DerivesDisjunction ts f → DerivesClause (.lparen glued :: (ts ++ [.rparen])) f

/-! ### Induction on derivations -/

/-- Induction on how terms and lists of arguments are derived. -/
theorem derivesTerm_induction {P : List Token → Term → Prop} {Q : List Token → List Term → Prop}
    (var : ∀ x, P [.upper x] (.var (.name x)))
    (constant : ∀ t c, functor? t = some c → P [t] (.const c))
    (application : ∀ t f glued ts args, functor? t = some f → DerivesTerms ts args → Q ts args →
      P (t :: .lparen glued :: (ts ++ [.rparen])) (.app f args))
    (one : ∀ ts t, DerivesTerm ts t → P ts t → Q ts [t])
    (more : ∀ ts us t args, DerivesTerm ts t → DerivesTerms us args → P ts t → Q us args →
      Q (ts ++ .comma :: us) (t :: args)) :
    (∀ ts t, DerivesTerm ts t → P ts t) ∧ ∀ ts args, DerivesTerms ts args → Q ts args :=
  ⟨fun _ _ => @DerivesTerm.rec (fun ts t _ => P ts t) (fun ts args _ => Q ts args) var
      (constant _ _) (application _ _ _ _ _) (one _ _) (more _ _ _ _) _ _,
    fun _ _ => @DerivesTerms.rec (fun ts t _ => P ts t) (fun ts args _ => Q ts args) var
      (constant _ _) (application _ _ _ _ _) (one _ _) (more _ _ _ _) _ _⟩

/-- Induction on how units, formulas and their chains are derived. -/
theorem derivesFormula_induction {P Q : List Token → Formula → Prop}
    {R : Token → List Token → List Formula → Prop}
    (universal : ∀ vs ts xs f, DerivesVariables vs xs → DerivesUnit ts f → P ts f →
      P (.bang :: .lbrack :: (vs ++ .rbrack :: .colon :: ts)) (xs.foldr .all f))
    (existential : ∀ vs ts xs f, DerivesVariables vs xs → DerivesUnit ts f → P ts f →
      P (.question :: .lbrack :: (vs ++ .rbrack :: .colon :: ts)) (xs.foldr .ex f))
    (negation : ∀ ts f, DerivesUnit ts f → P ts f → P (.tilde :: ts) (.not f))
    (atom : ∀ ts f, DerivesAtom ts f → P ts f)
    (parentheses : ∀ ts f glued, DerivesFormula ts f → Q ts f →
      P (.lparen glued :: (ts ++ [.rparen])) f)
    (unit : ∀ ts f, DerivesUnit ts f → P ts f → Q ts f)
    (binary : ∀ ts us f g c, DerivesUnit ts f → DerivesUnit us g → P ts f → P us g →
      Q (ts ++ .connective c :: us) (c.apply f g))
    (disjunction : ∀ ts us f gs, DerivesUnit ts f → DerivesUnits .bar us gs → P ts f →
      R .bar us gs → Q (ts ++ .bar :: us) (gs.foldl .or f))
    (conjunction : ∀ ts us f gs, DerivesUnit ts f → DerivesUnits .ampersand us gs → P ts f →
      R .ampersand us gs → Q (ts ++ .ampersand :: us) (gs.foldl .and f))
    (one : ∀ op ts f, DerivesUnit ts f → P ts f → R op ts [f])
    (more : ∀ op ts us f gs, DerivesUnit ts f → DerivesUnits op us gs → P ts f → R op us gs →
      R op (ts ++ op :: us) (f :: gs)) :
    (∀ ts f, DerivesUnit ts f → P ts f) ∧ ∀ ts f, DerivesFormula ts f → Q ts f :=
  ⟨fun _ _ => @DerivesUnit.rec (fun ts f _ => P ts f) (fun ts f _ => Q ts f)
      (fun op ts gs _ => R op ts gs) (universal _ _ _ _) (existential _ _ _ _) (negation _ _)
      (atom _ _) (parentheses _ _) (unit _ _) (binary _ _ _ _) (disjunction _ _ _ _)
      (conjunction _ _ _ _) (one _ _ _) (more _ _ _ _ _) _ _,
    fun _ _ => @DerivesFormula.rec (fun ts f _ => P ts f) (fun ts f _ => Q ts f)
      (fun op ts gs _ => R op ts gs) (universal _ _ _ _) (existential _ _ _ _) (negation _ _)
      (atom _ _) (parentheses _ _) (unit _ _) (binary _ _ _ _) (disjunction _ _ _ _)
      (conjunction _ _ _ _) (one _ _ _) (more _ _ _ _ _) _ _⟩

/-! ## Section 2: What is read has a derivation -/

/-- What a reader takes from the front of a sequence of tokens has a derivation. -/
def Sound {α : Type} (derives : List Token → α → Prop) (read : List Token → Parsed α) : Prop :=
  ∀ ts a rest, read ts = .ok (a, rest) → ∃ us, ts = us ++ rest ∧ derives us a

/-- Phrases with a mark after them. -/
def Followed {α : Type} (derives : List Token → α → Prop) (marks ts : List Token) (a : α) : Prop :=
  ∃ us, ts = us ++ marks ∧ derives us a

/-- A reader that is stuck has read nothing. -/
theorem stuck_ne_ok {α : Type} {ts : List Token} {a : α} : stuck ts ≠ .ok a := by
  cases ts <;> simp [stuck]

section Terms

variable {n : Nat}

/-- Terms are read rightly if the arguments in them are. -/
private theorem sound_readTerm_succ (hargs : Sound (Followed DerivesTerms [.rparen]) (readArgs n)) :
    Sound DerivesTerm (readTerm (n + 1)) := by
  intro ts t rest h
  rw [readTerm.eq_def] at h
  split at h
  next x us heq =>
    obtain ⟨rfl, rfl⟩ : t = .var (.name x) ∧ rest = us := by simpa [eq_comm] using h
    exact ⟨[.upper x], rfl, .var x⟩
  next m u us _ heq =>
    obtain rfl : n = m := by simpa using heq
    split at h
    next => cases h
    -- a functor is followed by arguments or stands alone
    next f glued vs hu =>
      split at h
      next => cases h
      next args ws hread =>
        obtain ⟨rfl, rfl⟩ : t = .app f args ∧ rest = ws := by simpa [eq_comm] using h
        obtain ⟨_, rfl, us, rfl, hargs⟩ := hargs _ _ _ hread
        exact ⟨u :: .lparen glued :: (us ++ [.rparen]), by simp, .application hu hargs⟩
    next c hu _ =>
      obtain ⟨rfl, rfl⟩ : t = .const c ∧ rest = _ := by simpa [eq_comm] using h
      exact ⟨[u], rfl, .constant hu⟩
  next => exact absurd h stuck_ne_ok

/-- Arguments are read rightly if the terms in them are, and the arguments after the first. -/
private theorem sound_readArgs_succ (hterm : Sound DerivesTerm (readTerm n))
    (hargs : Sound (Followed DerivesTerms [.rparen]) (readArgs n)) :
    Sound (Followed DerivesTerms [.rparen]) (readArgs (n + 1)) := by
  intro ts args rest h
  rw [readArgs] at h
  split at h
  next => cases h
  next t us hread =>
    obtain ⟨vs, rfl, ht⟩ := hterm _ _ _ hread
    split at h
    next => cases h
    next as ws hread =>
      obtain ⟨rfl, rfl⟩ : args = t :: as ∧ rest = ws := by simpa [eq_comm] using h
      obtain ⟨_, rfl, us, rfl, has⟩ := hargs _ _ _ hread
      exact ⟨vs ++ .comma :: us ++ [.rparen], by simp, _, rfl, .more ht has⟩
  next t us hread =>
    obtain ⟨rfl, rfl⟩ : args = [t] ∧ rest = us := by simpa [eq_comm] using h
    obtain ⟨vs, rfl, ht⟩ := hterm _ _ _ hread
    exact ⟨vs ++ [.rparen], by simp, _, rfl, .one ht⟩
  next => exact absurd h stuck_ne_ok

private theorem sound_readTerm_readArgs (n : Nat) : Sound DerivesTerm (readTerm n) ∧
    Sound (Followed DerivesTerms [.rparen]) (readArgs n) := by
  induction n with
  | zero =>
    constructor <;> intro ts _ _ h
    · rw [readTerm] at h <;> exact absurd h stuck_ne_ok
    · rw [readArgs] at h <;> exact absurd h stuck_ne_ok
  | succ n ih => exact ⟨sound_readTerm_succ ih.2, sound_readArgs_succ ih.1 ih.2⟩

/-- What is read as a term is one. -/
theorem sound_readTerm (n : Nat) : Sound DerivesTerm (readTerm n) :=
  (sound_readTerm_readArgs n).1

end Terms

/-- A term that is no variable is spelt like an atom. -/
theorem DerivesTerm.atom {ts : List Token} {t : Term} {a : Atom} (h : DerivesTerm ts t)
    (ha : atomOfTerm? t = some a) : DerivesAtom ts (.atom a) := by
  cases h with
  | var x => cases ha
  | constant ht =>
    obtain rfl := Option.some.inj ha
    exact .proposition ht
  | application ht hargs =>
    obtain rfl := Option.some.inj ha
    exact .predicate ht hargs

/-- After a first side comes the rest of an equation or disequation. -/
private theorem sound_readEquation (n : Nat) {l : Term} {ts : List Token} (hl : DerivesTerm ts l) :
    ∀ us f rest, readEquation n l us = .ok (f, rest) →
      ∃ vs, us = vs ++ rest ∧ DerivesAtom (ts ++ vs) f := by
  intro us f rest h
  unfold readEquation at h
  split at h
  next vs =>
    split at h
    next => cases h
    next r ws hread =>
      obtain ⟨rfl, rfl⟩ : f = .atom (.eq l r) ∧ rest = ws := by simpa [eq_comm] using h
      obtain ⟨ws, rfl, hr⟩ := sound_readTerm n _ _ _ hread
      exact ⟨.equal :: ws, rfl, .equal hl hr⟩
  next vs =>
    split at h
    next => cases h
    next r ws hread =>
      obtain ⟨rfl, rfl⟩ : f = .not (.atom (.eq l r)) ∧ rest = ws := by simpa [eq_comm] using h
      obtain ⟨ws, rfl, hr⟩ := sound_readTerm n _ _ _ hread
      exact ⟨.unequal :: ws, rfl, .unequal hl hr⟩
  next => exact absurd h stuck_ne_ok

/-- What is read as an atom is one. -/
theorem sound_readAtom (n : Nat) : Sound DerivesAtom (readAtom n) := by
  intro ts f rest h
  unfold readAtom at h
  split at h
  next => cases h
  next t us hread =>
    obtain ⟨vs, rfl, ht⟩ := sound_readTerm n _ _ _ hread
    split at h
    -- both marks of an equation
    iterate 2
      next =>
        obtain ⟨ws, heq, hf⟩ := sound_readEquation n ht _ _ _ h
        exact ⟨vs ++ ws, by rw [heq, List.append_assoc], hf⟩
    next a ha _ _ =>
      obtain ⟨rfl, rfl⟩ : f = .atom a ∧ rest = _ := by simpa [eq_comm] using h
      exact ⟨vs, rfl, ht.atom ha⟩
    next => exact absurd h stuck_ne_ok

/-! ### Formulas -/

private theorem sound_readVariables :
    Sound (Followed DerivesVariables [.rbrack, .colon]) readVariables := by
  intro ts xs rest h
  fun_induction readVariables ts generalizing xs rest with
  | case1 x ts e he => cases h
  | case2 x ts ys us hread ih =>
    obtain ⟨rfl, rfl⟩ : xs = .name x :: ys ∧ rest = us := by simpa [eq_comm] using h
    obtain ⟨_, rfl, vs, rfl, hxs⟩ := ih _ _ hread
    exact ⟨.upper x :: .comma :: (vs ++ [.rbrack, .colon]), by simp, _, rfl, .more x hxs⟩
  | case3 x us =>
    obtain ⟨rfl, rfl⟩ : xs = [.name x] ∧ rest = us := by simpa [eq_comm] using h
    exact ⟨[.upper x, .rbrack, .colon], rfl, [.upper x], rfl, .one x⟩
  | case4 | case5 | case6 => exact absurd h stuck_ne_ok

/-- The variables and the scope of a quantifier, with its brackets. -/
inductive DerivesScope (q : Ident → Formula → Formula) : List Token → Formula → Prop
  | mk {vs ts : List Token} {xs : List Ident} {f : Formula} :
      DerivesVariables vs xs → DerivesUnit ts f →
      DerivesScope q (.lbrack :: (vs ++ .rbrack :: .colon :: ts)) (xs.foldr q f)

/-- What a chain comes to that has come to `f` and goes on with further parts, if there are any. -/
inductive DerivesRest (parts : List Token → List Formula → Prop) (op : Token)
    (join : Formula → Formula → Formula) (f : Formula) : List Token → Formula → Prop
  | nil : DerivesRest parts op join f [] f
  | cons {ts : List Token} {gs : List Formula} :
      parts ts gs → DerivesRest parts op join f (op :: ts) (gs.foldl join f)

/-- A formula that has been joined to the first one is a first part of the rest. -/
theorem DerivesRest.of_join {parts : List Token → List Formula → Prop} {op : Token}
    {join : Formula → Formula → Formula} {f g k : Formula} {us vs : List Token}
    (h : DerivesRest parts op join (join f k) us g) (hone : parts vs [k])
    (hmore : ∀ {ts gs}, parts ts gs → parts (vs ++ op :: ts) (k :: gs)) :
    DerivesRest parts op join f (op :: (vs ++ us)) g := by
  cases h with
  | nil => simpa using @DerivesRest.cons parts op join f vs [k] hone
  | cons hgs => exact DerivesRest.cons (hmore hgs)

section Formulas

variable {n : Nat}

/-- A quantified formula is read rightly if what is quantified is. -/
private theorem sound_readQuantified_succ (hunit : Sound DerivesUnit (readUnit n))
    (q : Ident → Formula → Formula) : Sound (DerivesScope q) (readQuantified (n + 1) q) := by
  intro ts f rest h
  rw [readQuantified.eq_def] at h
  split at h
  next m us heq =>
    obtain rfl : n = m := by simpa using heq
    split at h
    next => cases h
    next xs vs hread =>
      obtain ⟨_, rfl, us, rfl, hxs⟩ := sound_readVariables _ _ _ hread
      split at h
      next => cases h
      next g ws hread =>
        obtain ⟨rfl, rfl⟩ : f = xs.foldr _ g ∧ rest = ws := by simpa [eq_comm] using h
        obtain ⟨vs, rfl, hg⟩ := hunit _ _ _ hread
        exact ⟨.lbrack :: (us ++ .rbrack :: .colon :: vs), by simp, .mk hxs hg⟩
  next => exact absurd h stuck_ne_ok

/-- Units are read rightly if the units and formulas in them are. -/
private theorem sound_readUnit_succ (hunit : Sound DerivesUnit (readUnit n))
    (hscope : ∀ q, Sound (DerivesScope q) (readQuantified n q))
    (hformula : Sound DerivesFormula (readFormula n)) :
    Sound DerivesUnit (readUnit (n + 1)) := by
  intro ts f rest h
  rw [readUnit.eq_def] at h
  split at h
  next m us heq =>
    obtain rfl : n = m := by simpa using heq
    obtain ⟨_, rfl, hxs, hg⟩ := hscope _ _ _ _ h
    exact ⟨_, rfl, .universal hxs hg⟩
  next m us heq =>
    obtain rfl : n = m := by simpa using heq
    obtain ⟨_, rfl, hxs, hg⟩ := hscope _ _ _ _ h
    exact ⟨_, rfl, .existential hxs hg⟩
  next m us heq =>
    obtain rfl : n = m := by simpa using heq
    split at h
    next => cases h
    next g ws hread =>
      obtain ⟨rfl, rfl⟩ : f = .not g ∧ rest = ws := by simpa [eq_comm] using h
      obtain ⟨vs, rfl, hg⟩ := hunit _ _ _ hread
      exact ⟨.tilde :: vs, rfl, .negation hg⟩
  next m glued us heq =>
    obtain rfl : n = m := by simpa using heq
    split at h
    next => cases h
    next g ws hread =>
      obtain ⟨rfl, rfl⟩ : f = g ∧ rest = ws := by simpa [eq_comm] using h
      obtain ⟨vs, rfl, hg⟩ := hformula _ _ _ hread
      exact ⟨.lparen glued :: (vs ++ [.rparen]), by simp, .parentheses glued hg⟩
    next => exact absurd h stuck_ne_ok
  next =>
    obtain ⟨us, rfl, hf⟩ := sound_readAtom _ _ _ _ h
    exact ⟨us, rfl, .atom hf⟩
  next => exact absurd h stuck_ne_ok

/-- A chain of units with one operator is read rightly if its units are. -/
private theorem sound_readChain_succ (hunit : Sound DerivesUnit (readUnit n)) (op : Token)
    (join : Formula → Formula → Formula)
    (hchain : ∀ f, Sound (DerivesRest (DerivesUnits op) op join f) (readChain n op join f))
    (f : Formula) :
    Sound (DerivesRest (DerivesUnits op) op join f) (readChain (n + 1) op join f) := by
  intro ts g rest h
  rw [readChain.eq_def] at h
  split at h
  next m t us heq =>
    obtain rfl : n = m := by simpa using heq
    split at h
    next ht =>
      -- the mark comes next, so one more unit is joined to what has been read
      subst ht
      split at h
      next => cases h
      next k ws hread =>
        obtain ⟨vs, rfl, hk⟩ := hunit _ _ _ hread
        obtain ⟨us, rfl, hrest⟩ := hchain _ _ _ _ h
        exact ⟨t :: (vs ++ us), by simp, hrest.of_join (.one hk) fun hgs => .more hk hgs⟩
    next =>
      obtain ⟨rfl, rfl⟩ : g = _ ∧ rest = t :: us := by simpa [eq_comm] using h
      exact ⟨[], rfl, .nil⟩
  next =>
    obtain ⟨rfl, rfl⟩ : g = _ ∧ rest = [] := by simpa [eq_comm] using h
    exact ⟨[], rfl, .nil⟩
  next => exact absurd h stuck_ne_ok

private theorem sound_readFormula_succ (hunit : Sound DerivesUnit (readUnit n))
    (hchain : ∀ op join f,
      Sound (DerivesRest (DerivesUnits op) op join f) (readChain n op join f)) :
    Sound DerivesFormula (readFormula (n + 1)) := by
  intro ts f rest h
  rw [readFormula] at h
  split at h
  next => cases h
  next g c us hread =>
    obtain ⟨vs, rfl, hg⟩ := hunit _ _ _ hread
    split at h
    next => cases h
    next k ws hread =>
      obtain ⟨rfl, rfl⟩ : f = c.apply g k ∧ rest = ws := by simpa [eq_comm] using h
      obtain ⟨us, rfl, hk⟩ := hunit _ _ _ hread
      exact ⟨vs ++ .connective c :: us, by simp, .binary c hg hk⟩
  next g us hread =>
    obtain ⟨vs, rfl, hg⟩ := hunit _ _ _ hread
    obtain ⟨ws, heq, hrest⟩ := hchain _ _ _ _ _ _ h
    cases hrest with
    | nil => exact ⟨vs, by rw [heq]; rfl, .unit hg⟩
    | cons hgs => exact ⟨_, by rw [heq, ← List.append_assoc], .disjunction hg hgs⟩
  next g us hread =>
    obtain ⟨vs, rfl, hg⟩ := hunit _ _ _ hread
    obtain ⟨ws, heq, hrest⟩ := hchain _ _ _ _ _ _ h
    cases hrest with
    | nil => exact ⟨vs, by rw [heq]; rfl, .unit hg⟩
    | cons hgs => exact ⟨_, by rw [heq, ← List.append_assoc], .conjunction hg hgs⟩
  next g us _ _ _ hread =>
    obtain ⟨rfl, rfl⟩ : f = g ∧ rest = us := by simpa [eq_comm] using h
    obtain ⟨vs, rfl, hg⟩ := hunit _ _ _ hread
    exact ⟨vs, rfl, .unit hg⟩

/-- The readers of formulas are sound to every nesting. -/
structure SoundTo (n : Nat) : Prop where
  unit : Sound DerivesUnit (readUnit n)
  scope : ∀ q, Sound (DerivesScope q) (readQuantified n q)
  formula : Sound DerivesFormula (readFormula n)
  chain : ∀ op join f, Sound (DerivesRest (DerivesUnits op) op join f) (readChain n op join f)

/-- The readers of formulas are sound, however deep they may go. -/
theorem soundTo (n : Nat) : SoundTo n := by
  induction n with
  | zero =>
    constructor
    case unit =>
      intro ts f rest h
      rw [readUnit] at h
      exact absurd h stuck_ne_ok
    case scope =>
      intro q ts f rest h
      rw [readQuantified] at h <;> exact absurd h stuck_ne_ok
    case formula =>
      intro ts f rest h
      rw [readFormula] at h
      exact absurd h stuck_ne_ok
    case chain =>
      intro op join f ts g rest h
      -- without nesting a chain that is at its end can still be read
      cases ts with
      | nil =>
        rw [readChain] at h
        obtain ⟨rfl, rfl⟩ : g = f ∧ rest = [] := by simpa [eq_comm] using h
        exact ⟨[], rfl, .nil⟩
      | cons t ts =>
        rw [readChain] at h <;> exact absurd h stuck_ne_ok
  | succ n ih =>
    constructor
    case unit => exact sound_readUnit_succ ih.unit ih.scope ih.formula
    case scope => exact sound_readQuantified_succ ih.unit
    case formula => exact sound_readFormula_succ ih.unit ih.chain
    case chain => exact fun op join => sound_readChain_succ ih.unit op join (ih.chain op join)

end Formulas

/-- What is read as a literal is one. -/
theorem sound_readLiteral (n : Nat) : Sound DerivesLiteral (readLiteral n) := by
  intro ts f rest h
  unfold readLiteral at h
  split at h
  next us =>
    split at h
    next => cases h
    next g ws hread =>
      obtain ⟨rfl, rfl⟩ : f = .not g ∧ rest = ws := by simpa [eq_comm] using h
      obtain ⟨vs, rfl, hg⟩ := sound_readAtom n _ _ _ hread
      exact ⟨.tilde :: vs, rfl, .negative hg⟩
  next =>
    obtain ⟨us, rfl, hf⟩ := sound_readAtom n _ _ _ h
    exact ⟨us, rfl, .positive hf⟩

private theorem sound_readLiterals (n : Nat) (f : Formula) :
    Sound (DerivesRest DerivesLiterals .bar .or f) (readLiterals n f) := by
  intro ts g rest h
  fun_induction readLiterals n f ts generalizing g rest with
  | case1 => cases h
  -- a further literal is joined before the rest is read
  | case2 n f us k ws hread ih =>
    obtain ⟨vs, rfl, hk⟩ := sound_readLiteral n _ _ _ hread
    obtain ⟨us, rfl, hrest⟩ := ih _ _ h
    exact ⟨.bar :: (vs ++ us), by simp, hrest.of_join (.one hk) fun hgs => .more hk hgs⟩
  | case3 => exact absurd h stuck_ne_ok
  | case4 m f ts =>
    obtain ⟨rfl, rfl⟩ : g = f ∧ rest = ts := by simpa [eq_comm] using h
    exact ⟨[], rfl, .nil⟩

private theorem sound_readDisjunction (n : Nat) : Sound DerivesDisjunction (readDisjunction n) := by
  intro ts f rest h
  unfold readDisjunction at h
  split at h
  next => cases h
  next g us hread =>
    obtain ⟨vs, rfl, hg⟩ := sound_readLiteral n _ _ _ hread
    obtain ⟨us, rfl, hrest⟩ := sound_readLiterals n g _ _ _ h
    cases hrest with
    | nil => exact ⟨vs, rfl, .literals (.one hg)⟩
    | cons hgs => exact ⟨vs ++ .bar :: _, by simp, .literals (.more hg hgs)⟩

/-- What is read as a clause is one, with or without parentheses. -/
theorem sound_readClauseFormula (n : Nat) : Sound DerivesClause (readClauseFormula n) := by
  intro ts f rest h
  unfold readClauseFormula at h
  split at h
  next glued us =>
    split at h
    next => cases h
    next g ws hread =>
      obtain ⟨rfl, rfl⟩ : f = g ∧ rest = ws := by simpa [eq_comm] using h
      obtain ⟨vs, rfl, hg⟩ := sound_readDisjunction n _ _ _ hread
      exact ⟨.lparen glued :: (vs ++ [.rparen]), by simp, .parentheses glued hg⟩
    next => exact absurd h stuck_ne_ok
  next =>
    obtain ⟨us, rfl, hf⟩ := sound_readDisjunction n _ _ _ h
    exact ⟨us, rfl, .plain hf⟩

end Clausal.Tptp
