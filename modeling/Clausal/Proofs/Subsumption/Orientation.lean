import Clausal.Proofs.Subsumption

/-!
# Subsumption and the way clauses are written

Equal clauses may list their literals in different orders and write the sides of their equations in
different orders.  Without equations the search for a replacement is exact, so neither is seen.  An
equation that can become another one in both orders is matched in the given order only, whatever the
remaining literals need; then the answer depends on the order of the sides and of the literals.

It does not if both orders agree on the variables that the equation shares with other literals.  And
whatever is found for one way of writing two clauses is found for any other way, once some equations
of the first clause are turned round.

## Main definitions

- `Clause.Kindred`: an ordinary literal does not have the name of an equation
- `Clause.Settled`: both orders of the sides of an equation have the same consequences

## Main statements

- `subsumption_exact`: subsumption without equations
- `Clause.subsumes_iff_of_settled`: the search for a replacement is exact if equations are settled
- `subsumes_eq_of_beq`: equal clauses have the same answers if equations are settled
-/

namespace Clausal

variable {ρ υ : Ident → Term} {σ : Substitution} {l l' m m' k : Literal} {c c' d d' e : Clause}

/-! ## Section 1: Clauses without equations -/

/-- An ordinary literal becomes another one exactly if that is its instance. -/
theorem Literal.mapsTo_iff_subst_eq (hl : l.atom.isEq = false) (hm : m.atom.isEq = false) :
    l.MapsTo ρ m ↔ l.subst ρ = m := by
  obtain ⟨b, a⟩ := l
  obtain ⟨b', a'⟩ := m
  cases a with
  | eq s t => cases hl
  | pred p ts =>
    cases a' with
    | eq s t => cases hm
    | pred q us => simp [MapsTo, Atom.MapsTo, Atom.isEq, Atom.symbol, Atom.args, subst, Atom.subst]

/-- Without equations, a clause subsumes another exactly if it is not empty and one replacement
    makes each of its literals a literal of the other.  So non-empty clauses subsume themselves, and
    subsumption is transitive. -/
theorem subsumption_exact (hc : c.EquationFree) (hd : d.EquationFree) :
    (c.subsumes d = true ↔
      c.isEmpty = false ∧ ∃ θ : Ident → Term, ∀ l ∈ c.literals, l.subst θ ∈ d.literals) ∧
      (c.isEmpty = false → c.subsumes c = true) ∧
      ∀ e : Clause, c.subsumes d = true → d.subsumes e = true → c.subsumes e = true := by
  refine ⟨(Clause.subsumes_iff hc).trans ?_, Clause.subsumes_self,
    fun e => Clause.subsumes_trans hc hd⟩
  refine and_congr_right fun _ => exists_congr fun θ => forall₂_congr fun l hl => ?_
  constructor
  · rintro ⟨m, hm, hlm⟩
    rwa [(Literal.mapsTo_iff_subst_eq (hc l hl) (hd m hm)).mp hlm]
  · intro hmem
    exact ⟨_, hmem, (Literal.mapsTo_iff_subst_eq (hc l hl) (hd _ hmem)).mpr rfl⟩

/-- `p(X, Y) | q(X)` becomes `p(Y, X) | q(Y)` only if the two variables change places, and from
    there it is carried on to `p(a, a) | q(a)`. -/
theorem subsumption_exact_exchange :
    let c := Clause.ofList [⟨true, .pred (.num 0) [.var (.num 1), .var (.num 2)]⟩,
      ⟨true, .pred (.num 3) [.var (.num 1)]⟩]
    let d := Clause.ofList [⟨true, .pred (.num 3) [.var (.num 2)]⟩,
      ⟨true, .pred (.num 0) [.var (.num 2), .var (.num 1)]⟩]
    let e := Clause.ofList [⟨true, .pred (.num 0) [.const (.num 4), .const (.num 4)]⟩,
      ⟨true, .pred (.num 3) [.const (.num 4)]⟩]
    (∃ θ : Ident → Term, ∀ l ∈ c.literals, l.subst θ ∈ d.literals) ∧ c.subsumes e = true := by
  intro c d e
  have h := subsumption_exact (c := c) (d := d) (by decide) (by decide)
  exact ⟨(h.1.mp (by decide)).2, h.2.2 e (by decide) (by decide)⟩

/-! ## Section 2: Equations in either order -/

/-- Equal literals are the same up to the order of the sides of an equation. -/
theorem Literal.args_of_beq (h : (l == l') = true) :
    l.positive = l'.positive ∧ l.atom.symbol = l'.atom.symbol ∧ l.atom.isEq = l'.atom.isEq ∧
      (l.atom.args = l'.atom.args ∨ l.atom.isEq = true ∧ l.atom.args = l'.atom.args.reverse) := by
  obtain ⟨hatom, hsign⟩ := Literal.beq_iff.mp h
  refine ⟨hsign, ?_⟩
  rcases Atom.beq_iff.mp hatom with heq | ⟨s, t, hl, hl'⟩
  · simp [heq]
  · simp [hl, hl', Atom.symbol, Atom.isEq, Atom.args]

theorem Literal.mem_vars_of_beq (h : (l == l') = true) {x : Ident} : x ∈ l.vars ↔ x ∈ l'.vars := by
  obtain ⟨-, -, -, hargs | ⟨-, hargs⟩⟩ := Literal.args_of_beq h <;>
    simp [Literal.vars, Atom.vars, hargs]

namespace Clause

/-- An ordinary literal of `c` does not have the name of an equation of `d`. -/
def Kindred (c d : Clause) : Prop :=
  ∀ l ∈ c.literals, ∀ m ∈ d.literals,
    l.atom.symbol = m.atom.symbol → m.atom.isEq = true → l.atom.isEq = true

/-- Wherever an equation of `c` can become a literal of `d` in both orders of the sides, the two
    orders agree on the variables that the equation shares with another literal of `c`. -/
def Settled (c d : Clause) : Prop :=
  ∀ l ∈ c.literals, l.atom.isEq = true → ∀ m ∈ d.literals, l.positive = m.positive →
    l.atom.symbol = m.atom.symbol → ∀ ρ υ : Ident → Term,
      l.atom.args.map (Term.subst ρ) = m.atom.args →
      l.atom.args.map (Term.subst υ) = m.atom.args.reverse →
        ∀ k ∈ c.literals, (k == l) = false → ∀ x ∈ l.vars, x ∈ k.vars → ρ x = υ x

private theorem Kindred.congr (h : c.Kindred d) (hc : (c == c') = true) (hd : (d == d') = true) :
    c'.Kindred d' := by
  intro l' hl' m' hm' hsymbol heq
  obtain ⟨l, hl, hll'⟩ := (Clause.beq_iff.mp hc).2 l' hl'
  obtain ⟨m, hm, hmm'⟩ := (Clause.beq_iff.mp hd).2 m' hm'
  obtain ⟨-, hsl, hel, -⟩ := Literal.args_of_beq hll'
  obtain ⟨-, hsm, hem, -⟩ := Literal.args_of_beq hmm'
  exact hel ▸ h l hl m hm (hsl ▸ hsm ▸ hsymbol) (hem ▸ heq)

private theorem Settled.congr (h : c.Settled d) (hc : (c == c') = true) (hd : (d == d') = true) :
    c'.Settled d' := by
  intro l' hl' heq' m' hm' hsign hsymbol ρ υ hρ hυ k' hk' hne x hxl hxk
  obtain ⟨l, hl, hll'⟩ := (Clause.beq_iff.mp hc).2 l' hl'
  obtain ⟨k, hk, hkk'⟩ := (Clause.beq_iff.mp hc).2 k' hk'
  obtain ⟨m, hm, hmm'⟩ := (Clause.beq_iff.mp hd).2 m' hm'
  obtain ⟨hpl, hsl, hel, hal⟩ := Literal.args_of_beq hll'
  obtain ⟨hpm, hsm, -, ham⟩ := Literal.args_of_beq hmm'
  have hkl : (k == l) = false := by
    by_contra hkl
    have hkl' := BEq.trans hkk' (BEq.trans (Bool.eq_true_of_not_eq_false hkl) (BEq.symm hll'))
    rw [hne] at hkl'
    cases hkl'
  -- turning one of the two equations round exchanges the two orders, and turning both keeps them
  have horders := h l hl (hel ▸ heq') m hm (by rw [← hpl, ← hpm, hsign])
    (by rw [← hsl, ← hsm, hsymbol])
  have hshared := fun ρ υ hρ hυ => horders ρ υ hρ hυ k hk hkl x
    ((Literal.mem_vars_of_beq hll').mp hxl) ((Literal.mem_vars_of_beq hkk').mp hxk)
  rcases hal with hal | ⟨-, hal⟩ <;> rcases ham with ham | ⟨-, ham⟩ <;> rw [hal, ham] at hρ hυ
  · exact hshared ρ υ hρ hυ
  · rw [List.reverse_reverse] at hυ
    exact (hshared υ ρ hυ hρ).symm
  · rw [List.map_reverse, List.reverse_eq_iff] at hρ hυ
    rw [List.reverse_reverse] at hυ
    exact (hshared υ ρ hυ hρ).symm
  · rw [List.map_reverse, List.reverse_inj] at hρ hυ
    exact hshared ρ υ hρ hυ

end Clause

/-- What one literal can become, an equal one can become, also in an equal clause. -/
theorem Literal.MapsTo.congr (h : l.MapsTo ρ m) (hl : (l == l') = true) (hm : (m == m') = true)
    (hkind : m.atom.isEq = true → l.atom.isEq = true) : l'.MapsTo ρ m' := by
  obtain ⟨hpl, hsl, hel, hal⟩ := Literal.args_of_beq hl
  obtain ⟨hpm, hsm, hem, ham⟩ := Literal.args_of_beq hm
  obtain ⟨hsign, hsymbol, hargs⟩ := h
  refine ⟨by rw [← hpl, ← hpm, hsign], by rw [← hsl, ← hsm, hsymbol], ?_⟩
  rw [← hel]
  cases heq : l.atom.isEq with
  | false =>
    -- then nothing is turned round
    have hal : l.atom.args = l'.atom.args := by simpa [heq] using hal
    have ham : m.atom.args = m'.atom.args := by
      rcases ham with ham | ⟨hmeq, -⟩
      · exact ham
      · rw [hkind hmeq] at heq
        cases heq
    rw [← hal, ← ham]
    simpa [heq] using hargs
  | true =>
    have hargs : l.atom.args.map (Term.subst ρ) = m.atom.args ∨
        l.atom.args.map (Term.subst ρ) = m.atom.args.reverse := by simpa [heq] using hargs
    simp only [true_and]
    rcases hal with hal | ⟨-, hal⟩ <;> rcases ham with ham | ⟨-, ham⟩ <;>
      simp only [hal, ham, List.map_reverse, List.reverse_reverse, List.reverse_eq_iff] at hargs
    · exact hargs
    · exact hargs.symm
    · exact hargs.symm
    · exact hargs

namespace Clause

/-- One replacement makes each literal of `c` a literal of `d`, up to the order of sides. -/
def MapsTo (ρ : Ident → Term) (c d : Clause) : Prop :=
  ∀ l ∈ c.literals, ∃ m ∈ d.literals, l.MapsTo ρ m

private theorem MapsTo.congr (h : c.MapsTo ρ d) (hkind : c.Kindred d) (hc : (c == c') = true)
    (hd : (d == d') = true) : c'.MapsTo ρ d' := by
  intro l' hl'
  obtain ⟨l, hl, hll'⟩ := (Clause.beq_iff.mp hc).2 l' hl'
  obtain ⟨m, hm, hlm⟩ := h l hl
  obtain ⟨m', hm', hmm'⟩ := (Clause.beq_iff.mp hd).1 m hm
  exact ⟨m', hm', hlm.congr (BEq.symm hll') hmm' (hkind l hl m hm hlm.2.1)⟩

private theorem isEmpty_eq_of_beq (h : (c == c') = true) : c.isEmpty = c'.isEmpty := by
  obtain ⟨hcc', hc'c⟩ := Clause.beq_iff.mp h
  cases hc : c.literals with
  | nil =>
    cases hc' : c'.literals with
    | nil => simp [isEmpty, hc, hc']
    | cons m ms => simpa [hc, hc'] using hc'c m
  | cons l ls =>
    cases hc' : c'.literals with
    | nil => simpa [hc, hc'] using hcc' l
    | cons m ms => simp [isEmpty, hc, hc']

end Clause

/-! ## Section 3: The search with settled equations -/

/-- An equation that becomes a literal with its sides turned round is matched with it.  Either the
    replacement keeps the bindings found, or these are about the given order. -/
theorem Literal.exists_match?_of_turned (h : l.MapsTo ρ m) (heq : l.atom.isEq = true)
    (hargs : l.atom.args.map (Term.subst ρ) = m.atom.args.reverse) (hσ : σ.Agrees ρ) :
    ∃ τ, l.match? σ m = some τ ∧ (τ.Agrees ρ ∨
      ∀ υ, τ.Agrees υ ↔ σ.Agrees υ ∧ l.atom.args.map (Term.subst υ) = m.atom.args) := by
  obtain ⟨hsign, hsymbol, -⟩ := h
  have hlen : l.atom.args.length = m.atom.args.length := by
    simpa using congrArg List.length hargs
  rw [match?, if_pos hsign, Atom.match?, if_pos ⟨hsymbol, hlen⟩]
  cases hτ : Term.matchList? σ l.atom.args m.atom.args with
  | some τ =>
    refine ⟨τ, rfl, Or.inr fun υ => ?_⟩
    exact Term.agrees_of_matchList? (fun t _ => Term.agrees_of_match?) hlen hτ
  | none =>
    obtain ⟨τ, hτ⟩ := Term.exists_matchList? (fun t _ _ hσ => Term.exists_match? hσ t) hσ
    rw [hargs] at hτ
    refine ⟨τ, by simp [heq, hτ], Or.inl ?_⟩
    have hlen' : l.atom.args.length = m.atom.args.reverse.length := by
      rw [List.length_reverse, hlen]
    exact (Term.agrees_of_matchList? (fun t _ => Term.agrees_of_match?) hlen' hτ).mpr ⟨hσ, hargs⟩

theorem Literal.map_args_congr (h : ∀ x ∈ l.vars, ρ x = υ x) :
    l.atom.args.map (Term.subst ρ) = l.atom.args.map (Term.subst υ) :=
  List.map_congr_left fun t ht =>
    Term.subst_congr fun x hx => h x (List.mem_flatMap.mpr ⟨t, ht, hx⟩)

theorem Literal.mapsTo_congr (h : ∀ x ∈ l.vars, ρ x = υ x) : l.MapsTo ρ m ↔ l.MapsTo υ m := by
  simp only [MapsTo, Atom.MapsTo, Literal.map_args_congr h]

namespace Clause

/-- If equations are settled, no replacement is missed. -/
theorem matchAll_of_settled (hsettled : c.Settled d) {ls : List Literal}
    (hls : ∀ l ∈ ls, l ∈ c.literals) (hdistinct : Distinct ls) (hσ : σ.Agrees ρ)
    (h : ∀ l ∈ ls, ∃ m ∈ d.literals, l.MapsTo ρ m) : matchAll d.literals ls σ = true := by
  induction ls generalizing σ ρ with
  | nil => rfl
  | cons l ls ih =>
    obtain ⟨hlc, hls⟩ := List.forall_mem_cons.mp hls
    obtain ⟨hne, hdistinct⟩ := List.pairwise_cons.mp hdistinct
    obtain ⟨⟨m, hm, hlm⟩, hrest⟩ := List.forall_mem_cons.mp h
    have found {τ : Substitution} {υ : Ident → Term} (hτ : l.match? σ m = some τ)
        (hυ : τ.Agrees υ) (hagree : ∀ k ∈ ls, ∀ x ∈ k.vars, ρ x = υ x) :
        matchAll d.literals (l :: ls) σ = true := by
      refine List.any_eq_true.mpr ⟨m, hm, ?_⟩
      rw [hτ]
      refine ih hls hdistinct hυ fun k hk => ?_
      obtain ⟨m', hm', hkm'⟩ := hrest k hk
      exact ⟨m', hm', (Literal.mapsTo_congr (hagree k hk)).mp hkm'⟩
    rcases hlm.2.2 with hargs | ⟨heq, hargs⟩
    · obtain ⟨τ, hτ, hagrees⟩ := Literal.exists_match? hlm hargs hσ
      exact found hτ hagrees fun _ _ _ _ => rfl
    · obtain ⟨τ, hτ, hagrees | hiff⟩ := Literal.exists_match?_of_turned hlm heq hargs hσ
      · exact found hτ hagrees fun _ _ _ _ => rfl
      · -- the given order was taken: give the variables of the equation what that order asks for
        obtain ⟨υ, hυ⟩ := τ.exists_agrees
        obtain ⟨hσυ, hargs'⟩ := (hiff υ).mp hυ
        refine found (υ := fun x => if x ∈ l.vars then υ x else ρ x) hτ ((hiff _).mpr ⟨?_, ?_⟩) ?_
        · intro x t hx
          by_cases hxl : x ∈ l.vars
          · exact (if_pos hxl).trans (hσυ x t hx)
          · exact (if_neg hxl).trans (hσ x t hx)
        · exact (Literal.map_args_congr fun x hx => if_pos hx).trans hargs'
        · intro k hk x hxk
          by_cases hxl : x ∈ l.vars
          · have hkl : (k == l) = false := by rw [BEq.comm]; exact hne k hk
            rw [if_pos hxl]
            exact (hsettled l hlc heq m hm hlm.1 hlm.2.1 υ ρ hargs' hargs k (hls k hk) hkl x hxl
              hxk).symm
          · exact (if_neg hxl).symm

/-- If equations are settled, subsumption is what it is meant to be. -/
theorem subsumes_iff_of_settled (h : c.Settled d) :
    c.subsumes d = true ↔ c.isEmpty = false ∧ ∃ ρ, c.MapsTo ρ d := by
  refine ⟨fun hcd => ⟨isEmpty_of_subsumes hcd, exists_mapsTo_of_subsumes hcd⟩, ?_⟩
  rintro ⟨hempty, ρ, hρ⟩
  refine Bool.and_eq_true_iff.mpr ⟨by rw [hempty]; rfl, ?_⟩
  exact matchAll_of_settled h (fun _ => id) c.distinct (Substitution.agrees_empty ρ) hρ

/-! ## Section 4: Turning equations round -/

/-- Of a clause that a replacement maps into another one there is a way of writing it that the
    search maps there. -/
theorem exists_beq_subsumes (hempty : c.isEmpty = false) (h : c.MapsTo ρ d) :
    ∃ e, (e == c) = true ∧ e.subsumes d = true := by
  -- each literal as it is, or turned round if only that becomes a literal in the given order
  have hturn : ∀ l ∈ c.literals, ∃ l' : Literal, (l' == l) = true ∧ ∃ m ∈ d.literals,
      l'.MapsTo ρ m ∧ l'.atom.args.map (Term.subst ρ) = m.atom.args := by
    intro l hl
    obtain ⟨m, hm, hlm⟩ := h l hl
    rcases hlm.2.2 with hargs | ⟨heq, hargs⟩
    · exact ⟨l, BEq.rfl, m, hm, hlm, hargs⟩
    · have hargs' : l.atom.mirror.args.map (Term.subst ρ) = m.atom.args := by
        rw [Atom.args_mirror heq, List.map_reverse, hargs, List.reverse_reverse]
      refine ⟨⟨l.positive, l.atom.mirror⟩, Literal.beq_iff.mpr ⟨?_, rfl⟩, m, hm, ?_, hargs'⟩
      · exact Atom.beq_iff_mirror.mpr (Or.inr rfl)
      · exact ⟨hlm.1, (Atom.symbol_mirror _).trans hlm.2.1, Or.inl hargs'⟩
  choose! f hf hmaps using hturn
  have hdistinct : Distinct (c.literals.map f) := by
    refine List.pairwise_map.mpr (c.distinct.imp_of_mem fun {l l'} hl hl' hne => ?_)
    by_contra heq
    have hll' := BEq.trans (BEq.symm (hf l hl))
      (BEq.trans (Bool.eq_true_of_not_eq_false heq) (hf l' hl'))
    rw [hne] at hll'
    cases hll'
  refine ⟨⟨c.literals.map f, c.form, hdistinct⟩, Clause.beq_iff.mpr ⟨?_, ?_⟩, ?_⟩
  · exact List.forall_mem_map.mpr fun l hl => ⟨l, hl, hf l hl⟩
  · exact fun l hl => ⟨f l, List.mem_map_of_mem hl, BEq.symm (hf l hl)⟩
  · refine Bool.and_eq_true_iff.mpr ⟨by simpa [isEmpty] using hempty, ?_⟩
    exact matchAll_of_mapsTo (Substitution.agrees_empty ρ) (List.forall_mem_map.mpr hmaps)

end Clause

/-- Let two clauses be written in two ways.  What is found for the one way is found for the other
    after some equations of the first clause are turned round; and if equations are settled, both
    ways have the same answer. -/
theorem subsumes_eq_of_beq (hc : (c == c') = true) (hd : (d == d') = true) (hkind : c.Kindred d) :
    (c.subsumes d = true → ∃ e, (e == c') = true ∧ e.subsumes d' = true) ∧
      (c.Settled d → c.subsumes d = c'.subsumes d') := by
  have hempty := Clause.isEmpty_eq_of_beq hc
  constructor
  · intro h
    obtain ⟨ρ, hρ⟩ := Clause.exists_mapsTo_of_subsumes h
    refine Clause.exists_beq_subsumes ?_ (Clause.MapsTo.congr hρ hkind hc hd)
    rw [← hempty, Clause.isEmpty_of_subsumes h]
  · intro hsettled
    rw [Bool.eq_iff_iff, Clause.subsumes_iff_of_settled hsettled,
      Clause.subsumes_iff_of_settled (hsettled.congr hc hd), hempty]
    refine and_congr_right fun _ => exists_congr fun ρ => ⟨?_, ?_⟩
    · exact fun h => h.congr hkind hc hd
    · exact fun h => h.congr (hkind.congr hc hd) (BEq.symm hc) (BEq.symm hd)

/-- `f(X) = b | p(X)` and `f(a) = b | p(a)`, and the same with the literals and the sides of the
    equations in the other order: `f(X)` cannot become `b`, so the equation is settled. -/
theorem subsumes_eq_of_beq_settled :
    let s := fun t => Term.app (.num 0) [t]
    let b := Term.const (.num 1)
    let p := fun t => Literal.mk true (.pred (.num 2) [t])
    let x := Term.var (.num 3)
    let a := Term.const (.num 4)
    let c := Clause.ofList [⟨true, .eq (s x) b⟩, p x]
    let c' := Clause.ofList [p x, ⟨true, .eq b (s x)⟩]
    let d := Clause.ofList [⟨true, .eq (s a) b⟩, p a]
    let d' := Clause.ofList [⟨true, .eq b (s a)⟩, p a]
    c.subsumes d = true ∧ c.subsumes d = c'.subsumes d' := by
  intro s b p x a c c' d d'
  have hkind : c.Kindred d := by
    unfold Clause.Kindred
    decide
  have hsettled : c.Settled d := by
    intro l hl heq m hm _ hsymbol ρ υ _ hυ
    have hl : l = ⟨true, .eq (s x) b⟩ ∨ l = p x := by simpa using mem_of_mem_dedup hl
    have hm : m = ⟨true, .eq (s a) b⟩ ∨ m = p a := by simpa using mem_of_mem_dedup hm
    rcases hl with rfl | rfl
    · rcases hm with rfl | rfl
      · simp [s, b, Atom.args, Term.subst] at hυ
      · simp [p, Atom.symbol] at hsymbol
    · simp [p, Atom.isEq] at heq
  exact ⟨by decide, (subsumes_eq_of_beq (by decide) (by decide) hkind).2 hsettled⟩

/-- `X = Y | p(X)` and `Y = X | p(X)` are equal, and the first subsumes itself but not the second:
    matching `X = Y` with `Y = X` in the given order exchanges the variables, and then `p(X)` no
    longer fits. -/
theorem subsumes_sees_order :
    let x := Term.var (.num 0)
    let y := Term.var (.num 1)
    let p := Literal.mk true (.pred (.num 2) [x])
    let c := Clause.ofList [⟨true, .eq x y⟩, p]
    let c' := Clause.ofList [⟨true, .eq y x⟩, p]
    (c == c') = true ∧ c.subsumes c = true ∧ c.subsumes c' = false := by
  decide

end Clausal
