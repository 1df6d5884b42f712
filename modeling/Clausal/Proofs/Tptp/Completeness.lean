import Clausal.Proofs.Tptp.Derivation

/-!
# Reading what has a derivation

A reader takes the longest phrase that it can, so it finds a phrase only if the token after it does
not make a longer phrase of it; `Ends` says so.  It also needs enough nesting: two levels for each
token of the phrase suffice.

## Main definitions

- `Ends`, `Token.extendsTerm`, `Token.extendsAtom`, `Token.extendsFormula`: where a phrase ends

## Main statements

- `readTerm_of_derives`, `readFormula_of_derives`, `readClauseFormula_of_derives`
-/

namespace Clausal.Tptp

/-! ## Section 1: Where a phrase ends -/

/-- The next token or character, if there is one, does not have the given property. -/
def Ends {α : Type} (goesOn : α → Bool) (rest : List α) : Prop :=
  ∀ a ∈ rest.head?, goesOn a = false

/-- Whether a token after a term makes a longer term of it. -/
def Token.extendsTerm : Token → Bool
  | .lparen _ => true
  | _ => false

/-- Whether a token after an atom makes a longer atom of it. -/
def Token.extendsAtom : Token → Bool
  | .lparen _ | .equal | .unequal => true
  | _ => false

/-- Whether a token after a formula makes a longer formula of it. -/
def Token.extendsFormula : Token → Bool
  | .connective _ | .bar | .ampersand => true
  | t => t.extendsAtom

@[simp]
theorem ends_nil {α : Type} (p : α → Bool) : Ends p [] := by
  simp [Ends]

@[simp]
theorem ends_cons {α : Type} {p : α → Bool} {a : α} {rest : List α} :
    Ends p (a :: rest) ↔ p a = false := by
  simp [Ends]

/-- Where an atom ends, a term ends. -/
private theorem Ends.term {ts : List Token} (h : Ends Token.extendsAtom ts) :
    Ends Token.extendsTerm ts := by
  cases ts with
  | nil => simp
  | cons t ts => cases t <;> simp_all [Token.extendsAtom, Token.extendsTerm]

/-- Where a formula ends, an atom ends. -/
theorem Ends.atom {ts : List Token} (h : Ends Token.extendsFormula ts) :
    Ends Token.extendsAtom ts := by
  cases ts with
  | nil => simp
  | cons t ts => cases t <;> simp_all [Token.extendsAtom, Token.extendsFormula]

/-! ## Section 2: Terms and atoms -/

/-- A functor is a lower word or a quoted text. -/
theorem functor?_eq_some {t : Token} {f : Ident} (h : functor? t = some f) :
    ∃ s, f = .name s ∧ (t = .lower s ∨ t = .quoted s) := by
  unfold functor? at h
  split at h
  next s => exact ⟨s, (Option.some.inj h).symm, .inl rfl⟩
  next s => exact ⟨s, (Option.some.inj h).symm, .inr rfl⟩
  next => cases h

/-- A functor without parentheses is read as a constant. -/
private theorem readTerm_constant {t : Token} {c : Ident} (ht : functor? t = some c) (n : Nat)
    {rest : List Token} (hrest : Ends Token.extendsTerm rest) :
    readTerm (n + 1) (t :: rest) = .ok (.const c, rest) := by
  obtain ⟨s, rfl, rfl | rfl⟩ := functor?_eq_some ht
  all_goals
    cases rest with
    | nil => simp [readTerm, functor?]
    | cons u rest => cases u <;> simp_all [readTerm, functor?, Token.extendsTerm]

/-- A functor with arguments is read as soon as the arguments are. -/
private theorem readTerm_application {t : Token} {f : Ident} (ht : functor? t = some f) {n : Nat}
    {glued : Bool} {us rest : List Token} {args : List Term}
    (h : readArgs n us = .ok (args, rest)) :
    readTerm (n + 1) (t :: .lparen glued :: us) = .ok (.app f args, rest) := by
  obtain ⟨s, rfl, rfl | rfl⟩ := functor?_eq_some ht <;> simp [readTerm, functor?, h]

private theorem DerivesTerm.length_pos {us : List Token} {t : Term} (h : DerivesTerm us t) :
    0 < us.length := by
  cases h <;> simp

/-- Terms and arguments are read back from their derivations. -/
private theorem read_of_derivesTerm_derivesTerms :
    (∀ us t, DerivesTerm us t → ∀ n rest, 2 * us.length ≤ n + 1 → Ends Token.extendsTerm rest →
      readTerm n (us ++ rest) = .ok (t, rest)) ∧
    ∀ us args, DerivesTerms us args → ∀ n rest, 2 * us.length ≤ n →
      readArgs n (us ++ .rparen :: rest) = .ok (args, rest) := by
  refine derivesTerm_induction ?var ?constant ?application ?one ?more
  case var =>
    intro x n rest hn _
    obtain ⟨n, rfl⟩ := Nat.exists_eq_add_of_le' (show 1 ≤ n by simpa using hn)
    rfl
  case constant =>
    intro t c ht n rest hn hrest
    obtain ⟨n, rfl⟩ := Nat.exists_eq_add_of_le' (show 1 ≤ n by simpa using hn)
    exact readTerm_constant ht n hrest
  case application =>
    -- the functor and the parentheses leave levels to spare for the arguments
    intro t f glued ts args ht _ ih n rest hn _
    simp only [List.length_cons, List.length_append, List.length_nil] at hn
    obtain ⟨n, rfl⟩ := Nat.exists_eq_add_of_le' (show 1 ≤ n by omega)
    have hargs := ih n rest (by omega)
    simpa using readTerm_application ht hargs
  case one =>
    intro ts t ht ih n rest hn
    have hpos := ht.length_pos
    obtain ⟨n, rfl⟩ := Nat.exists_eq_add_of_le' (show 1 ≤ n by omega)
    have hread := ih n (.rparen :: rest) (by omega) (by simp [Token.extendsTerm])
    simp [readArgs, hread]
  case more =>
    intro ts us t args ht _ ih ih' n rest hn
    simp only [List.length_cons, List.length_append] at hn
    obtain ⟨n, rfl⟩ := Nat.exists_eq_add_of_le' (show 1 ≤ n by omega)
    have hread := ih n (.comma :: (us ++ .rparen :: rest)) (by omega) (by simp [Token.extendsTerm])
    have hargs := ih' n rest (by omega)
    simp [readArgs, hread, hargs]

/-- A term is read in full if the next token does not go on with it. -/
theorem readTerm_of_derives {us rest : List Token} {t : Term} {n : Nat} (h : DerivesTerm us t)
    (hn : 2 * us.length ≤ n + 1) (hrest : Ends Token.extendsTerm rest) :
    readTerm n (us ++ rest) = .ok (t, rest) :=
  read_of_derivesTerm_derivesTerms.1 us t h n rest hn hrest

/-- A term that does not stand in an equation is read as an atom. -/
theorem readAtom_of_readTerm {ts rest : List Token} {t : Term} {a : Atom} {n : Nat}
    (h : readTerm n ts = .ok (t, rest)) (ha : atomOfTerm? t = some a)
    (hrest : Ends Token.extendsAtom rest) : readAtom n ts = .ok (.atom a, rest) := by
  cases rest with
  | nil => simp [readAtom, h, ha]
  | cons u rest => cases u <;> simp_all [readAtom, Token.extendsAtom]

/-- Whether a token is a word, which a term or an atom begins with. -/
def Token.isWord : Token → Bool
  | .lower _ | .upper _ | .quoted _ => true
  | _ => false

private theorem DerivesTerm.exists_cons {us : List Token} {t : Term} (h : DerivesTerm us t) :
    ∃ u vs, us = u :: vs ∧ u.isWord = true := by
  cases h with
  | var x => exact ⟨_, _, rfl, rfl⟩
  | constant ht | application ht _ =>
    obtain ⟨s, rfl, rfl | rfl⟩ := functor?_eq_some ht <;> exact ⟨_, _, rfl, rfl⟩

/-- An atom starts with a word. -/
theorem DerivesAtom.exists_cons {us : List Token} {f : Formula} (h : DerivesAtom us f) :
    ∃ u vs, us = u :: vs ∧ u.isWord = true := by
  cases h with
  | proposition ht => exact (DerivesTerm.constant ht).exists_cons
  | predicate ht hargs => exact (DerivesTerm.application ht hargs).exists_cons
  | equal hl _ | unequal hl _ =>
    obtain ⟨u, vs, rfl, hu⟩ := hl.exists_cons
    exact ⟨u, _, rfl, hu⟩

/-- An atom is read in full if the next token does not go on with it. -/
theorem readAtom_of_derives {us rest : List Token} {f : Formula} {n : Nat} (h : DerivesAtom us f)
    (hn : 2 * us.length ≤ n + 1) (hrest : Ends Token.extendsAtom rest) :
    readAtom n (us ++ rest) = .ok (f, rest) := by
  cases h with
  | proposition ht =>
    exact readAtom_of_readTerm (readTerm_of_derives (.constant ht) hn hrest.term) rfl hrest
  | predicate ht hargs =>
    exact readAtom_of_readTerm (readTerm_of_derives (.application ht hargs) hn hrest.term) rfl hrest
  | @equal ts us l r hl hr =>
    simp only [List.length_cons, List.length_append] at hn
    have hleft : readTerm n (ts ++ .equal :: (us ++ rest)) = .ok (l, .equal :: (us ++ rest)) :=
      readTerm_of_derives hl (by omega) (by simp [Token.extendsTerm])
    have hright : readTerm n (us ++ rest) = .ok (r, rest) :=
      readTerm_of_derives hr (by omega) hrest.term
    simp [readAtom, hleft, readEquation, hright]
  | @unequal ts us l r hl hr =>
    simp only [List.length_cons, List.length_append] at hn
    have hleft : readTerm n (ts ++ .unequal :: (us ++ rest)) = .ok (l, .unequal :: (us ++ rest)) :=
      readTerm_of_derives hl (by omega) (by simp [Token.extendsTerm])
    have hright : readTerm n (us ++ rest) = .ok (r, rest) :=
      readTerm_of_derives hr (by omega) hrest.term
    simp [readAtom, hleft, readEquation, hright]

/-! ## Section 3: Formulas -/

/-- Every list of variables is read up to its colon. -/
private theorem readVariables_of_derives {vs rest : List Token} {xs : List Ident}
    (h : DerivesVariables vs xs) :
    readVariables (vs ++ .rbrack :: .colon :: rest) = .ok (xs, rest) := by
  induction h with
  | one x => rfl
  | more x _ ih => simp [readVariables, ih]

private theorem DerivesUnit.length_pos {us : List Token} {f : Formula} (h : DerivesUnit us f) :
    0 < us.length := by
  cases h with
  | atom h =>
    obtain ⟨u, vs, rfl, -⟩ := h.exists_cons
    simp
  | _ => simp

/-- An atom begins with a word, so it is not taken for another kind of unit. -/
theorem readUnit_of_derivesAtom {us rest : List Token} {f : Formula} {n : Nat}
    (h : DerivesAtom us f) (hn : 2 * us.length ≤ n + 1) (hrest : Ends Token.extendsAtom rest) :
    readUnit n (us ++ rest) = .ok (f, rest) := by
  have hread := readAtom_of_derives h hn hrest
  obtain ⟨u, vs, rfl, hu⟩ := h.exists_cons
  simp only [List.length_cons] at hn
  obtain ⟨n, rfl⟩ := Nat.exists_eq_add_of_le' (show 1 ≤ n by omega)
  rw [← hread]
  -- of the tokens that a unit may begin with, an atom has the words
  cases u <;> simp [readUnit, Token.isWord] at hu ⊢

/-- Units, formulas and chains are read back from their derivations. -/
private theorem read_of_derivesUnit_derivesFormula :
    (∀ us f, DerivesUnit us f → ∀ n rest, 2 * us.length ≤ n + 1 → Ends Token.extendsAtom rest →
      readUnit n (us ++ rest) = .ok (f, rest)) ∧
    ∀ us f, DerivesFormula us f → ∀ n rest, 2 * us.length ≤ n → Ends Token.extendsFormula rest →
      readFormula n (us ++ rest) = .ok (f, rest) := by
  refine derivesFormula_induction
    (R := fun op us gs => ∀ join f n rest, op.extendsFormula = true → op.extendsAtom = false →
      2 * us.length ≤ n → Ends Token.extendsFormula rest →
      readChain n op join f (op :: (us ++ rest)) = .ok (gs.foldl join f, rest))
    ?universal ?existential ?negation ?atom ?parentheses ?unit ?binary ?disjunction ?conjunction
    ?one ?more
  case universal =>
    intro vs ts xs f hxs _ ih n rest hn hrest
    simp only [List.length_cons, List.length_append] at hn
    obtain ⟨n, rfl⟩ := Nat.exists_eq_add_of_le' (show 2 ≤ n by omega)
    have hread := ih n rest (by omega) hrest
    simp [readUnit, readQuantified, readVariables_of_derives hxs, hread]
  case existential =>
    intro vs ts xs f hxs _ ih n rest hn hrest
    simp only [List.length_cons, List.length_append] at hn
    obtain ⟨n, rfl⟩ := Nat.exists_eq_add_of_le' (show 2 ≤ n by omega)
    have hread := ih n rest (by omega) hrest
    simp [readUnit, readQuantified, readVariables_of_derives hxs, hread]
  case negation =>
    intro ts f _ ih n rest hn hrest
    simp only [List.length_cons] at hn
    obtain ⟨n, rfl⟩ := Nat.exists_eq_add_of_le' (show 1 ≤ n by omega)
    have hread := ih n rest (by omega) hrest
    simp [readUnit, hread]
  case atom =>
    intro ts f h n rest hn hrest
    exact readUnit_of_derivesAtom h hn hrest
  case parentheses =>
    -- the closing parenthesis ends the formula within, whatever comes after it
    intro ts f glued _ ih n rest hn _
    simp only [List.length_cons, List.length_append, List.length_nil] at hn
    obtain ⟨n, rfl⟩ := Nat.exists_eq_add_of_le' (show 1 ≤ n by omega)
    have hread := ih n (.rparen :: rest) (by omega)
      (by simp [Token.extendsFormula, Token.extendsAtom])
    simp [readUnit, hread]
  case unit =>
    intro ts f h ih n rest hn hrest
    have hpos := h.length_pos
    obtain ⟨n, rfl⟩ := Nat.exists_eq_add_of_le' (show 1 ≤ n by omega)
    have hread := ih n rest (by omega) hrest.atom
    cases rest with
    | nil => simp_all [readFormula]
    | cons t rest => cases t <;> simp_all [readFormula, Token.extendsFormula]
  case binary =>
    intro ts us f g c _ _ ih ih' n rest hn hrest
    simp only [List.length_cons, List.length_append] at hn
    obtain ⟨n, rfl⟩ := Nat.exists_eq_add_of_le' (show 1 ≤ n by omega)
    have hread := ih n (.connective c :: (us ++ rest)) (by omega) (by simp [Token.extendsAtom])
    have hread' := ih' n rest (by omega) hrest.atom
    simp [readFormula, hread, hread']
  case disjunction =>
    intro ts us f gs _ _ ih ih' n rest hn hrest
    simp only [List.length_cons, List.length_append] at hn
    obtain ⟨n, rfl⟩ := Nat.exists_eq_add_of_le' (show 1 ≤ n by omega)
    have hread := ih n (.bar :: (us ++ rest)) (by omega) (by simp [Token.extendsAtom])
    have hchain := ih' .or f n rest rfl rfl (by omega) hrest
    simp [readFormula, hread, hchain]
  case conjunction =>
    intro ts us f gs _ _ ih ih' n rest hn hrest
    simp only [List.length_cons, List.length_append] at hn
    obtain ⟨n, rfl⟩ := Nat.exists_eq_add_of_le' (show 1 ≤ n by omega)
    have hread := ih n (.ampersand :: (us ++ rest)) (by omega) (by simp [Token.extendsAtom])
    have hchain := ih' .and f n rest rfl rfl (by omega) hrest
    simp [readFormula, hread, hchain]
  case one =>
    intro op ts f h ih join g n rest hop _ hn hrest
    have hpos := h.length_pos
    obtain ⟨n, rfl⟩ := Nat.exists_eq_add_of_le' (show 2 ≤ n by omega)
    have hread := ih (n + 1) rest (by omega) hrest.atom
    simp only [readChain, hread]
    -- the mark does not stand after the last unit
    cases rest with
    | nil => simp [readChain]
    | cons t rest =>
      have hne : t ≠ op := by
        rintro rfl
        simp [hop] at hrest
      simp [readChain, hne]
  case more =>
    intro op ts us f gs _ _ ih ih' join g n rest hop hatom hn hrest
    simp only [List.length_cons, List.length_append] at hn
    obtain ⟨n, rfl⟩ := Nat.exists_eq_add_of_le' (show 1 ≤ n by omega)
    have hread := ih n (op :: (us ++ rest)) (by omega) (by simpa using hatom)
    have hchain := ih' join (join g f) n rest hop hatom (by omega) hrest
    simp [readChain, hread, hchain]

/-- A formula is read in full if the next token does not go on with it. -/
theorem readFormula_of_derives {us rest : List Token} {f : Formula} {n : Nat}
    (h : DerivesFormula us f) (hn : 2 * us.length ≤ n) (hrest : Ends Token.extendsFormula rest) :
    readFormula n (us ++ rest) = .ok (f, rest) :=
  read_of_derivesUnit_derivesFormula.2 us f h n rest hn hrest

/-! ## Section 4: Clauses -/

theorem DerivesLiteral.length_pos {us : List Token} {f : Formula} (h : DerivesLiteral us f) :
    0 < us.length := by
  cases h with
  | positive h =>
    obtain ⟨u, vs, rfl, -⟩ := h.exists_cons
    simp
  | negative _ => simp

/-- A literal is read in full if the next token does not go on with it. -/
theorem readLiteral_of_derives {us rest : List Token} {f : Formula} {n : Nat}
    (h : DerivesLiteral us f) (hn : 2 * us.length ≤ n + 1) (hrest : Ends Token.extendsAtom rest) :
    readLiteral n (us ++ rest) = .ok (f, rest) := by
  cases h with
  | positive h =>
    have hread := readAtom_of_derives h hn hrest
    obtain ⟨u, vs, rfl, hu⟩ := h.exists_cons
    rw [← hread]
    cases u <;> simp [readLiteral, Token.isWord] at hu ⊢
  | negative h =>
    simp only [List.length_cons] at hn
    have hread := readAtom_of_derives h (n := n) (by omega) hrest
    simp [readLiteral, hread]

/-- The literals after the first are joined to it one by one. -/
private theorem readLiterals_of_derives {us rest : List Token} {gs : List Formula}
    (h : DerivesLiterals us gs) (hrest : Ends Token.extendsFormula rest) :
    ∀ n f, 2 * us.length ≤ n →
      readLiterals n f (.bar :: (us ++ rest)) = .ok (gs.foldl .or f, rest) := by
  induction h with
  | one hf =>
    intro n f hn
    have hpos := hf.length_pos
    obtain ⟨n, rfl⟩ := Nat.exists_eq_add_of_le' (show 1 ≤ n by omega)
    have hread := readLiteral_of_derives hf (n := n) (by omega) hrest.atom
    simp only [readLiterals, hread]
    -- no further bar comes after the last literal
    cases rest with
    | nil => simp [readLiterals]
    | cons t rest => cases t <;> simp_all [readLiterals, Token.extendsFormula]
  | @more ts us g gs hg _ ih =>
    intro n f hn
    simp only [List.length_cons, List.length_append] at hn
    obtain ⟨n, rfl⟩ := Nat.exists_eq_add_of_le' (show 1 ≤ n by omega)
    have hread : readLiteral n (ts ++ .bar :: (us ++ rest)) = .ok (g, .bar :: (us ++ rest)) :=
      readLiteral_of_derives hg (by omega) (by simp [Token.extendsAtom])
    have hmore := ih n (.or f g) (by omega)
    simp [readLiterals, hread, hmore]

private theorem readDisjunction_of_derives {us rest : List Token} {f : Formula} {n : Nat}
    (h : DerivesDisjunction us f) (hn : 2 * us.length ≤ n + 1)
    (hrest : Ends Token.extendsFormula rest) :
    readDisjunction n (us ++ rest) = .ok (f, rest) := by
  obtain @⟨g, gs, h⟩ := h
  cases h with
  | one hf =>
    have hread := readLiteral_of_derives hf hn hrest.atom
    simp only [readDisjunction, hread]
    cases rest with
    | nil => cases n <;> simp [readLiterals]
    | cons t rest => cases t <;> cases n <;> simp_all [readLiterals, Token.extendsFormula]
  | @more ts us _ _ hg hgs =>
    simp only [List.length_cons, List.length_append] at hn
    have hread : readLiteral n (ts ++ .bar :: (us ++ rest)) = .ok (g, .bar :: (us ++ rest)) :=
      readLiteral_of_derives hg (by omega) (by simp [Token.extendsAtom])
    have hmore := readLiterals_of_derives hgs hrest n g (by omega)
    simp [readDisjunction, hread, hmore]

private theorem DerivesLiterals.exists_cons {us : List Token} {gs : List Formula}
    (h : DerivesLiterals us gs) : ∃ u vs, us = u :: vs ∧ (u.isWord = true ∨ u = .tilde) := by
  have hliteral : ∀ {ts f}, DerivesLiteral ts f →
      ∃ u vs, ts = u :: vs ∧ (u.isWord = true ∨ u = .tilde) := by
    rintro ts f (h | h)
    · obtain ⟨u, vs, rfl, hu⟩ := h.exists_cons
      exact ⟨u, vs, rfl, .inl hu⟩
    · exact ⟨.tilde, _, rfl, .inr rfl⟩
  cases h with
  | one h => exact hliteral h
  | more h _ =>
    obtain ⟨u, vs, rfl, hu⟩ := hliteral h
    exact ⟨u, _, rfl, hu⟩

/-- A clause is read in full if the next token does not go on with it. -/
theorem readClauseFormula_of_derives {us rest : List Token} {f : Formula} {n : Nat}
    (h : DerivesClause us f) (hn : 2 * us.length ≤ n + 1)
    (hrest : Ends Token.extendsFormula rest) :
    readClauseFormula n (us ++ rest) = .ok (f, rest) := by
  cases h with
  | plain h =>
    have hread := readDisjunction_of_derives h hn hrest
    obtain ⟨hgs⟩ := h
    obtain ⟨u, vs, rfl, hu⟩ := hgs.exists_cons
    -- a word or a tilde, so it is not taken for a clause in parentheses
    rw [← hread]
    cases u <;> simp [readClauseFormula, Token.isWord] at hu ⊢
  | @parentheses ts _ glued h =>
    simp only [List.length_cons, List.length_append, List.length_nil] at hn
    have hread : readDisjunction n (ts ++ .rparen :: rest) = .ok (f, .rparen :: rest) :=
      readDisjunction_of_derives h (by omega) (by simp [Token.extendsFormula, Token.extendsAtom])
    simp [readClauseFormula, hread]

end Clausal.Tptp
