import Clausal.Proofs.Index.Spelling

/-!
# Keys aligned with a query

A walk through a discrimination tree compares the symbols of a key with those of the query.  Where
one side has a variable, it passes over a whole term of the other side, and the symbols of that term
are what the variable stands for.

Which keys are accepted depends on the key alone.  Both sides spell as many terms at every point of
the comparison, so that it never gets out of step, and it comes to the same end as matching the terms.

## Main definitions

- `Encodes`: bindings of variables to symbols say the same as a substitution
- `meets`, `meetsAll`: whether a key is accepted where instances are looked for
- `covers`, `coversAll`: whether a key is accepted where generalisations are looked for

## Main statements

- `meetsAll_elements`: the keys that are accepted are the instances of the query
- `coversAll_elements`: the keys that are accepted are those of which the query is an instance
-/

namespace Clausal

/-! ## Section 1: Bindings -/

/-- The symbols that variables are bound to spell the terms that a substitution binds them to. -/
structure Encodes (b : ElementBindings) (σ : Substitution) : Prop where
  lookup : ∀ n : Nat, b.lookup n = (σ.find? (.num n)).map Term.spelling
  numbered : ∀ x u, σ.find? x = some u → u.Numbered

theorem encodes_empty : Encodes [] .empty where
  lookup _ := rfl
  numbered x u hu := by simp [Substitution.find?, Substitution.empty] at hu

variable {b : ElementBindings} {σ : Substitution}

/-- A variable takes the symbols of a term if and only if it matches the term. -/
theorem Encodes.bindElements_cases (h : Encodes b σ) {k : Term} (hk : k.Numbered) (n : Nat) :
    (bindElements b n k.spelling = none ∧ Term.match? σ (.var (.num n)) k = none) ∨
      ∃ b' σ', bindElements b n k.spelling = some b' ∧
        Term.match? σ (.var (.num n)) k = some σ' ∧ Encodes b' σ' := by
  unfold bindElements Term.match?
  rw [h.lookup]
  cases hfind : σ.find? (.num n) with
  | none =>
    refine Or.inr ⟨_, _, rfl, rfl, fun m => ?_, fun x u hu => ?_⟩
    · rw [Substitution.find?_insert, List.lookup_cons]
      by_cases hmn : m = n
      · simp [hmn]
      · have hne : Ident.num (m : Int) ≠ Ident.num (n : Int) := by
          intro heq
          have := Ident.num.inj heq
          omega
        rw [if_neg hne, beq_eq_false_iff_ne.mpr hmn]
        exact h.lookup m
    · rw [Substitution.find?_insert] at hu
      split at hu
      next =>
        obtain rfl := Option.some.inj hu
        exact hk
      next => exact h.numbered x u hu
  | some u =>
    have hu : u.Numbered := h.numbered _ u hfind
    by_cases huk : u = k
    · exact Or.inr ⟨b, σ, by simp [huk], by simp [huk], h⟩
    · have hspelling : u.spelling ≠ k.spelling := fun heq => huk ((hu.spelling_inj hk).mp heq)
      exact Or.inl ⟨by simp [hspelling], by simp [huk]⟩

/-! ## Section 2: Instances of the query -/

/-- Whether a key meets a target and then the rest of the query. -/
def meets : Target → List Element → ElementBindings → List Element → Bool
  | _, _, _, [] => false
  | target, query, b, key :: path =>
    match target.step b key, query with
    | none, _ => false
    | some (some target, b), query => meets target query b path
    | some (none, _), [] => path.isEmpty
    | some (none, b), e :: query => meets (.ofElement e) query b path

/-- Whether a key meets the whole query. -/
def meetsAll (query : List Element) (b : ElementBindings) (path : List Element) : Bool :=
  match query with
  | [] => path.isEmpty
  | e :: query => meets (.ofElement e) query b path

theorem meets_cons (target : Target) (query : List Element) (b : ElementBindings) (key : Element)
    (path : List Element) : meets target query b (key :: path) =
      match target.step b key with
      | none => false
      | some (some target, b) => meets target query b path
      | some (none, b) => meetsAll query b path := by
  cases hstep : target.step b key with
  | none => simp [meets, hstep]
  | some next =>
    obtain ⟨target?, b'⟩ := next
    cases target? <;> cases query <;> simp [meets, meetsAll, hstep]

/-- A variable of the query takes as many terms of the key as it has to. -/
theorem meets_term {ts : List Term} (hts : ts ≠ []) (n : Nat) (known query : List Element)
    (b : ElementBindings) (path : List Element) :
    meets (.term n known ts.length) query b (spellingList ts ++ path) =
      match bindElements b n (known ++ spellingList ts) with
      | none => false
      | some b => meetsAll query b path := by
  induction ts using Term.stackInduction generalizing known with
  | nil => exact absurd rfl hts
  | cons t ts ih =>
    -- the arguments of the first term are still open
    have hleft : (t :: ts).length + t.ordinalElement.arity - 1 = (t.args ++ ts).length := by
      rw [t.arity_ordinalElement, List.length_cons, List.length_append]
      omega
    have hknown : known ++ t.ordinalElement :: spellingList (t.args ++ ts) =
        known ++ [t.ordinalElement] ++ spellingList (t.args ++ ts) := by simp
    rw [spellingList_cons, List.cons_append, meets_cons, hknown, Target.step]
    rw [hleft]
    by_cases hopen : t.args ++ ts = []
    · rw [hopen, if_neg (by simp)]
      cases hbind : bindElements b n (known ++ [t.ordinalElement]) <;> simp [hbind]
    · rw [if_pos (List.length_pos_iff.mpr hopen)]
      exact ih hopen (known ++ [t.ordinalElement])

/-- The terms of a key meet those of a query if and only if they match. -/
theorem meetsAll_spellingList {qs ks : List Term} (hlength : qs.length = ks.length)
    (hqs : ∀ q ∈ qs, q.Numbered) (hks : ∀ k ∈ ks, k.Numbered) (h : Encodes b σ) :
    meetsAll (spellingList qs) b (spellingList ks) = (Term.matchList? σ qs ks).isSome := by
  induction qs using Term.stackInduction generalizing ks b σ with
  | nil =>
    obtain rfl : ks = [] := by simpa using hlength.symm
    simp [meetsAll, Term.matchList?]
  | cons q qs ih =>
    cases ks with
    | nil => simp at hlength
    | cons k ks =>
      have htail : qs.length = ks.length := by simpa using hlength
      have hpush := Term.Numbered.push hqs
      rw [spellingList_cons, meetsAll]
      cases hvar : q.isVar with
      | true =>
        -- the variable takes the first term of the key
        obtain ⟨x, rfl⟩ : ∃ x, q = .var x := by
          cases q <;> simp_all [Term.isVar]
        obtain ⟨n, rfl⟩ := hqs _ List.mem_cons_self x (by simp [Term.vars])
        have hkey : spellingList (k :: ks) = spellingList [k] ++ spellingList ks :=
          spellingList_append [k] ks
        have htake := meets_term (List.cons_ne_nil k []) n [] (spellingList qs) b (spellingList ks)
        rw [List.nil_append, ← k.spelling_eq_spellingList] at htake
        show meets (.term n [] [k].length) (spellingList qs) b (spellingList (k :: ks)) = _
        rw [hkey, ← k.spelling_eq_spellingList, htake, Term.matchList?]
        rcases h.bindElements_cases (hks k List.mem_cons_self) n with
          ⟨hbind, hmatch⟩ | ⟨b', σ', hbind, hmatch, h'⟩
        · rw [hbind, hmatch]
          rfl
        · rw [hbind, hmatch]
          exact ih htail hpush (fun u hu => hks u (List.mem_cons_of_mem _ hu)) h'
      | false =>
        -- the key has to have the same symbol, with as many arguments
        have htarget : Target.ofElement q.ordinalElement = .symbol q.ordinalElement := by
          cases q <;> simp_all [Term.isVar, Term.ordinalElement, Target.ofElement]
        rw [htarget, spellingList_cons, meets_cons, Target.step, Term.matchList?_cons σ hvar]
        by_cases hsymbol : k.ordinalElement = q.ordinalElement
        · rw [if_pos hsymbol, if_pos hsymbol]
          refine ih ?_ hpush (Term.Numbered.push hks) h
          rw [List.length_append, List.length_append, ← q.arity_ordinalElement,
            ← k.arity_ordinalElement, hsymbol, htail]
        · rw [if_neg hsymbol, if_neg hsymbol]
          rfl

theorem Term.isInstanceOf_eq (k q : Term) :
    k.isInstanceOf q = (matchList? .empty [q] [k]).isSome := by
  rw [isInstanceOf, matchList?]
  cases match? .empty q k <;> simp [matchList?]

/-- Where instances are looked for, the keys that are accepted are the instances of the query. -/
theorem meetsAll_elements (q k : Term) :
    meetsAll q.elements [] k.elements = k.isInstanceOf q := by
  rw [q.elements_eq_spelling, k.elements_eq_spelling, Term.spelling_eq_spellingList,
    Term.spelling_eq_spellingList, ← Term.isInstanceOf_ordinalise, Term.isInstanceOf_eq]
  exact meetsAll_spellingList rfl (by simpa using q.numbered_ordinalise)
    (by simpa using k.numbered_ordinalise) encodes_empty

/-! ## Section 3: Generalisations of the query -/

/-- Whether the symbols of a key lead through the query. -/
def covers : List Element → ElementBindings → List Element → Bool
  | _, _, [] => false
  | query, b, key :: path =>
    match afterKey? key query b with
    | none => false
    | some ([], _) => path.isEmpty
    | some (e :: query, b) => covers (e :: query) b path

/-- Whether a key leads through the query and ends with it. -/
def coversAll (query : List Element) (b : ElementBindings) (path : List Element) : Bool :=
  match query with
  | [] => path.isEmpty
  | e :: query => covers (e :: query) b path

theorem covers_cons (query : List Element) (b : ElementBindings) (key : Element)
    (path : List Element) : covers query b (key :: path) =
      match afterKey? key query b with
      | none => false
      | some (query, b) => coversAll query b path := by
  cases hafter : afterKey? key query b with
  | none => simp [covers, hafter]
  | some next =>
    obtain ⟨query', b'⟩ := next
    cases query' <;> simp [covers, coversAll, hafter]

/-- A variable of the key takes the first term of the query. -/
theorem afterKey?_variable (n : Nat) (q : Term) (qs : List Term) (b : ElementBindings) :
    afterKey? (.variable n) (spellingList (q :: qs)) b =
      (bindElements b n q.spelling).map fun b => (spellingList qs, b) := by
  have hsplit : splitTerms 1 (spellingList (q :: qs)) = (q.spelling, spellingList qs) := by
    rw [show spellingList (q :: qs) = spellingList [q] ++ spellingList qs from
      spellingList_append [q] qs, q.spelling_eq_spellingList]
    exact splitTerms_spellingList [q] (spellingList qs)
  show (bindElements b n (splitTerms 1 (spellingList (q :: qs))).1).map
    (fun b => ((splitTerms 1 (spellingList (q :: qs))).2, b)) = _
  rw [hsplit]

/-- The query has to have the symbol of the key, with as many arguments. -/
theorem afterKey?_symbol {k : Term} (hk : k.isVar = false) (q : Term) (qs : List Term)
    (b : ElementBindings) : afterKey? k.ordinalElement (spellingList (q :: qs)) b =
      if k.ordinalElement = q.ordinalElement then some (spellingList (q.args ++ qs), b)
      else none := by
  rw [spellingList_cons]
  cases k with
  | var x => cases hk
  | const c => rfl
  | app f ts => rfl

/-- The terms of a key lead through those of a query if and only if they match. -/
theorem coversAll_spellingList {qs ks : List Term} (hlength : ks.length = qs.length)
    (hqs : ∀ q ∈ qs, q.Numbered) (hks : ∀ k ∈ ks, k.Numbered) (h : Encodes b σ) :
    coversAll (spellingList qs) b (spellingList ks) = (Term.matchList? σ ks qs).isSome := by
  induction ks using Term.stackInduction generalizing qs b σ with
  | nil =>
    obtain rfl : qs = [] := by simpa using hlength.symm
    simp [coversAll, Term.matchList?]
  | cons k ks ih =>
    cases qs with
    | nil => simp at hlength
    | cons q qs =>
      have htail : ks.length = qs.length := by simpa using hlength
      have hpush := Term.Numbered.push hks
      have hstart : coversAll (spellingList (q :: qs)) b (spellingList (k :: ks)) =
          covers (spellingList (q :: qs)) b (k.ordinalElement :: spellingList (k.args ++ ks)) := by
        rw [spellingList_cons q, spellingList_cons k]
        rfl
      rw [hstart, covers_cons]
      cases hvar : k.isVar with
      | true =>
        obtain ⟨x, rfl⟩ : ∃ x, k = .var x := by
          cases k <;> simp_all [Term.isVar]
        obtain ⟨n, rfl⟩ := hks _ List.mem_cons_self x (by simp [Term.vars])
        have hafter := afterKey?_variable n q qs b
        rw [show (Term.var (.num n)).ordinalElement = .variable n from rfl, hafter, Term.matchList?]
        rcases h.bindElements_cases (hqs q List.mem_cons_self) n with
          ⟨hbind, hmatch⟩ | ⟨b', σ', hbind, hmatch, h'⟩
        · rw [hbind, hmatch]
          rfl
        · rw [hbind, hmatch]
          exact ih htail (fun u hu => hqs u (List.mem_cons_of_mem _ hu)) hpush h'
      | false =>
        rw [afterKey?_symbol hvar, Term.matchList?_cons σ hvar]
        by_cases hsymbol : k.ordinalElement = q.ordinalElement
        · rw [if_pos hsymbol, if_pos hsymbol.symm]
          refine ih ?_ (Term.Numbered.push hqs) hpush h
          rw [List.length_append, List.length_append, ← q.arity_ordinalElement,
            ← k.arity_ordinalElement, hsymbol, htail]
        · rw [if_neg hsymbol, if_neg fun heq => hsymbol heq.symm]
          rfl

/-- Where generalisations are looked for, the keys that are accepted are those of which the query is
    an instance. -/
theorem coversAll_elements (q k : Term) :
    coversAll q.elements [] k.elements = q.isInstanceOf k := by
  rw [q.elements_eq_spelling, k.elements_eq_spelling, Term.spelling_eq_spellingList,
    Term.spelling_eq_spellingList, ← Term.isInstanceOf_ordinalise, Term.isInstanceOf_eq]
  exact coversAll_spellingList rfl (by simpa using q.numbered_ordinalise)
    (by simpa using k.numbered_ordinalise) encodes_empty

end Clausal
