import Clausal.Proofs.Chaining.Store

/-!
# A store is a list

Buckets are a way to find clauses faster and have no other bearing.  A store answers like the list
of the distinct clauses that were added to it: a clause is new if no equal one is listed, and the
clauses for a goal are found, in the order of the list, by trying each of them.

Each clause is tried as a copy.  That copies do not share variables with anything else is a matter
of a whole run, so runs are followed with all that they have found so far.

## Main definitions

- `ClauseStore.Filed`: every clause is in the one bucket of its symbol
- `StoreRun`: the states of a store that is used, with the clauses that were added

## Main statements

- `ClauseStore.Filed.bucket_eq`: a bucket holds what the list has for its symbol, in order
- `StoreRun.linear_scan`: a store answers like a list
-/

namespace Clausal

/-! ## Section 1: Buckets -/

instance : EquivBEq DefiniteClause where
  rfl := BEq.rfl (α := Clause)
  symm h := BEq.symm (α := Clause) h
  trans h h' := BEq.trans (α := Clause) h h'

/-- Equal clauses have heads with the same symbol. -/
theorem DefiniteClause.symbol_eq_of_beq {d e : DefiniteClause} (h : (d == e) = true) :
    d.head.symbol = e.head.symbol := by
  obtain ⟨⟨p, a⟩, hl, hbeq⟩ := (Clause.beq_iff.mp h).1 ⟨true, d.head⟩ (mem_literals.mpr rfl)
  obtain ⟨hatom, hp⟩ := Literal.beq_iff.mp hbeq
  obtain rfl : true = p := hp
  obtain rfl : a = e.head := mem_literals.mp hl
  rcases Atom.beq_iff_mirror.mp hatom with heq | heq
  · exact congrArg Atom.symbol heq
  · exact (congrArg Atom.symbol heq).trans e.head.symbol_mirror

namespace ClauseStore

variable {t : ClauseStore} {d : DefiniteClause}

/-- Every bucket holds clauses of its own symbol, and no symbol has two buckets. -/
structure Filed (t : ClauseStore) : Prop where
  keys : (t.buckets.map Prod.fst).Nodup
  heads : ∀ b ∈ t.buckets, ∀ d ∈ b.2, d.head.symbol = b.1

private theorem filed_empty : empty.Filed :=
  ⟨List.nodup_nil, fun _ hb => absurd hb List.not_mem_nil⟩

/-- A bucket holds what the list has for its symbol, in order. -/
theorem Filed.bucket_eq (h : t.Filed) (p : Ident) :
    t.bucket p = t.toList.filter fun d => d.head.symbol = p := by
  obtain ⟨bs⟩ := t
  obtain ⟨hkeys, hheads⟩ := h
  simp only [bucket, toList] at *
  induction bs with
  | nil => rfl
  | cons b bs ih =>
    obtain ⟨q, ds⟩ := b
    rw [List.map_cons, List.nodup_cons] at hkeys
    have ih := ih hkeys.2 fun c hc => hheads c (List.mem_cons_of_mem _ hc)
    have hds : ∀ d ∈ ds, d.head.symbol = q := hheads (q, ds) List.mem_cons_self
    rw [List.flatMap_cons, List.filter_append, ← ih]
    by_cases hp : p = q
    · -- the symbol has no other bucket
      subst hp
      have hnone : bs.lookup p = none := by
        rw [List.lookup_eq_none_iff]
        intro c hc
        rw [bne_iff_ne]
        rintro rfl
        exact hkeys.1 (List.mem_map.mpr ⟨c, hc, rfl⟩)
      rw [List.lookup_cons_self, hnone, List.filter_eq_self.mpr (by simpa using hds)]
      simp
    · have hpq : (p == q) = false := by simpa using hp
      have hnone : ds.filter (fun d => d.head.symbol = p) = [] := by
        rw [List.filter_eq_nil_iff]
        intro d hd
        rw [hds d hd, decide_eq_true_eq]
        exact fun hqp => hp hqp.symm
      rw [hnone, List.nil_append, List.lookup_cons, hpq]

/-- Adding to a bucket that is there changes no other bucket. -/
theorem Filed.exists_split (h : t.Filed) {p : Ident} {ds : List DefiniteClause}
    (hl : t.buckets.lookup p = some ds) (d : DefiniteClause) :
    ∃ l₁ l₂, t.buckets = l₁ ++ (p, ds) :: l₂ ∧
      (t.buckets.map fun b => if b.1 = p then (p, b.2 ++ [d]) else b) =
        l₁ ++ (p, ds ++ [d]) :: l₂ := by
  obtain ⟨l₁, l₂, hbuckets, -⟩ := List.lookup_eq_some_iff.mp hl
  refine ⟨l₁, l₂, hbuckets, ?_⟩
  have hkeys := h.keys
  rw [hbuckets, List.map_append, List.map_cons, List.nodup_middle, List.nodup_cons] at hkeys
  have hother : ∀ b ∈ l₁ ++ l₂, (if b.1 = p then (p, b.2 ++ [d]) else b) = b := by
    intro b hb
    refine if_neg ?_
    rintro rfl
    rw [← List.map_append] at hkeys
    exact hkeys.1 (List.mem_map.mpr ⟨b, hb, rfl⟩)
  rw [hbuckets, List.map_append, List.map_cons, if_pos rfl,
    List.map_congr_left (g := id) fun b hb => hother b (List.mem_append_left _ hb),
    List.map_congr_left (g := id) fun b hb => hother b (List.mem_append_right _ hb)]
  simp

private theorem Filed.add (h : t.Filed) (d : DefiniteClause) : (t.add d).2.Filed := by
  rcases t.add_cases d with ⟨hl, heq⟩ | ⟨ds, -, -, heq⟩ | ⟨ds, hl, heq⟩
  · rw [heq]
    constructor
    · rw [List.map_append, List.map_singleton, ← List.concat_eq_append, List.nodup_concat]
      refine ⟨?_, h.keys⟩
      intro hmem
      obtain ⟨b, hb, hkey⟩ := List.mem_map.mp hmem
      have := List.lookup_eq_none_iff.mp hl b hb
      simp [hkey] at this
    · intro b hb
      rcases List.mem_append.mp hb with hb | hb
      · exact h.heads b hb
      · obtain rfl := List.mem_singleton.mp hb
        simp
  · rwa [heq]
  · obtain ⟨l₁, l₂, hbuckets, hmap⟩ := h.exists_split hl d
    have hheads := h.heads
    rw [hbuckets] at hheads
    rw [heq, hmap]
    constructor
    · simpa [hbuckets] using h.keys
    · simp only [List.forall_mem_append, List.forall_mem_cons] at hheads ⊢
      obtain ⟨h₁, hds, h₂⟩ := hheads
      exact ⟨h₁, ⟨hds, by simp⟩, h₂⟩

/-! ## Section 2: Adding -/

private theorem fst_add (t : ClauseStore) (d : DefiniteClause) :
    (t.add d).1 = !(t.bucket d.head.symbol).contains d := by
  unfold ClauseStore.add bucket
  dsimp only
  split
  next hl => simp [hl]
  next ds hl =>
    simp only [hl, Option.getD_some]
    split <;> simp_all

/-- A clause is new if no equal one is listed. -/
theorem Filed.add_eq_true_iff (h : t.Filed) (d : DefiniteClause) :
    (t.add d).1 = true ↔ ∀ e ∈ t.toList, (e == d) = false := by
  rw [fst_add, h.bucket_eq, Bool.not_eq_true', Bool.eq_false_iff, Ne,
    List.contains_iff_exists_mem_beq]
  simp only [List.mem_filter, decide_eq_true_eq, not_exists, not_and, and_imp, Bool.not_eq_true]
  refine forall₂_congr fun e he => ?_
  rw [BEq.comm (a := e)]
  constructor
  · intro hne
    by_contra hde
    rw [Bool.not_eq_false] at hde
    exact absurd (hne (DefiniteClause.symbol_eq_of_beq hde).symm) (by simp [hde])
  · exact fun hne _ => hne

private theorem Filed.toList_add (h : t.Filed) (d : DefiniteClause) :
    (t.add d).2.toList.Perm (if (t.add d).1 then t.toList ++ [d] else t.toList) := by
  cases hl : t.buckets.lookup d.head.symbol with
  | none => simp [ClauseStore.add, hl, toList]
  | some ds =>
    by_cases hd : ds.contains d
    · simp [ClauseStore.add, hl, hd]
    · obtain ⟨l₁, l₂, hbuckets, hmap⟩ := h.exists_split hl d
      simp only [ClauseStore.add, hl, hd, Bool.false_eq_true, if_false, if_true, hmap]
      simp only [toList, hbuckets, List.flatMap_append, List.flatMap_cons, List.append_assoc]
      apply List.Perm.append_left
      apply List.Perm.append_left
      exact List.perm_append_comm

end ClauseStore

namespace ClauseStore

theorem filed_ofList (ds : List DefiniteClause) : (ofList ds).Filed := by
  induction ds using List.reverseRecOn with
  | nil => exact filed_empty
  | append_singleton ds d ih =>
    rw [ofList, addAll, List.foldl_append]
    exact ih.add d

/-- The list of a store has the distinct clauses that were added, each once. -/
theorem toList_ofList (ds : List DefiniteClause) : (ofList ds).toList.Perm (dedup ds) := by
  induction ds using List.reverseRecOn with
  | nil => exact .nil
  | append_singleton ds d ih =>
    rw [ofList, addAll, List.foldl_append]
    refine ((filed_ofList ds).toList_add d).trans ?_
    have hnew : ((ofList ds).add d).1 = !ds.any (· == d) := by
      rw [Bool.eq_iff_iff, (filed_ofList ds).add_eq_true_iff, Bool.not_eq_true', List.any_eq_false]
      simp only [ih.mem_iff, Bool.not_eq_true]
      exact forall_mem_dedup (fun a b hab ha => (BEq.congr_left hab).symm.trans ha) ds
    rw [dedup_concat, hnew]
    cases ds.any (· == d) with
    | true => exact ih
    | false => exact ih.append_right [d]

end ClauseStore

/-! ## Section 3: Copies -/

namespace DefiniteClause

/-- The variables of the first clause can be replaced one for one so that it becomes the second;
    no two of its literals become equal. -/
def RenamesTo (c d : DefiniteClause) : Prop :=
  ∃ ρ : Ident → Ident, Set.InjOn ρ {x | x ∈ c.clause.vars} ∧ d.clause.form = c.clause.form ∧
    d.clause.literals = c.clause.literals.map (Literal.subst fun x => .var (ρ x))

theorem renamesTo_renameApart (s : Names) (d : DefiniteClause) :
    d.RenamesTo (d.renameApart s).1 := by
  refine ⟨freshVariable s d.clause.vars, fun x hx y _ hxy => freshVariable_inj hx hxy, rfl, ?_⟩
  apply dedup_eq_self
  -- the old variables can be put back, so different literals stay different
  obtain ⟨υ, -, hυ⟩ := exists_valuation_of_copy s d.clause.vars Term.var Term.var
  have hback : ∀ l ∈ d.clause.literals,
      (l.subst fun x => .var (freshVariable s d.clause.vars x)).subst υ = l := by
    intro l hl
    have hatom : l.atom.subst (fun x => υ (freshVariable s d.clause.vars x)) = l.atom.subst .var :=
      Atom.subst_congr fun x hx => hυ x (Clause.mem_vars.mpr ⟨l, hl, hx⟩)
    rw [Literal.subst_subst]
    show Literal.mk l.positive (l.atom.subst fun x => υ (freshVariable s d.clause.vars x)) = l
    rw [hatom, Atom.subst_var]
  rw [Distinct, List.pairwise_map]
  refine d.clause.distinct.imp_of_mem fun {l m} hl hm hlm => ?_
  by_contra hbeq
  rw [Bool.not_eq_false] at hbeq
  have := Literal.beq_subst hbeq υ
  rw [hback l hl, hback m hm, hlm] at this
  cases this

end DefiniteClause

/-- Atoms unify under acyclic bindings if their arguments have a common instance, in one of the
    orders in which they may stand. -/
theorem Atom.isSome_unify_iff {σ : Substitution} (hσ : σ.Acyclic) {a b : Atom} :
    (a.unify σ b).isSome ↔ a.symbol = b.symbol ∧ a.args.length = b.args.length ∧
      ∃ ts, (ts = b.args ∨ a.isEq = true ∧ ts = b.args.reverse) ∧
        ∃ θ, σ.Solves θ ∧ a.args.map (Term.subst θ) = ts.map (Term.subst θ) := by
  constructor
  · intro h
    obtain ⟨τ, hτ⟩ := Option.isSome_iff_exists.mp h
    obtain ⟨hsymbol, hlen, ts, hts, hrun⟩ := Atom.unification_of_unify hτ
    have hlen' : a.args.length = ts.length := by
      rcases hts with rfl | ⟨-, rfl⟩ <;> simp [hlen]
    have hsolves := (hrun.solves_iff hσ τ.value).mp (hrun.acyclic hσ).solves_value
    exact ⟨hsymbol, hlen, ts, hts, τ.value, hsolves.1, (map_subst_eq_iff hlen' _).mpr hsolves.2⟩
  · rintro ⟨hsymbol, hlen, ts, hts, θ, hθ, heq⟩
    have hlen' : a.args.length = ts.length := by
      rcases hts with rfl | ⟨-, rfl⟩ <;> simp [hlen]
    obtain ⟨τ, hτ⟩ := exists_unifyList hσ hθ ((map_subst_eq_iff hlen' θ).mp heq)
    rw [Atom.unify, if_pos ⟨hsymbol, hlen⟩]
    split
    next => rfl
    next hnone =>
      rcases hts with rfl | ⟨hisEq, rfl⟩
      · rw [hnone] at hτ
        cases hτ
      · simp [hisEq, hτ]

namespace DefiniteClause

variable {goal : Atom} {σ : Substitution} {s s' : Names}

theorem head_renameApart (s : Names) (d : DefiniteClause) : (d.renameApart s).1.head =
    d.head.subst fun x => .var (freshVariable s d.clause.vars x) :=
  head_subst _ d

/-- Whether a copy of a clause can be applied does not depend on the names that it got. -/
theorem isSome_unify_copy (hσ : σ.Acyclic) (hgoal : ∀ x ∈ goal.vars, x.Below s'.next)
    (hover : σ.Over (·.Below s'.next)) {d : DefiniteClause}
    (h : ((d.renameApart s).1.head.unify σ goal).isSome) :
    ((d.renameApart s').1.head.unify σ goal).isSome := by
  rw [Atom.isSome_unify_iff hσ] at h ⊢
  simp only [head_renameApart, Atom.symbol_subst, Atom.args_subst, Atom.isEq_subst,
    List.length_map] at h ⊢
  obtain ⟨hsymbol, hlen, ts, hts, θ, hθ, heq⟩ := h
  refine ⟨hsymbol, hlen, ts, hts, ?_⟩
  -- the new copy takes the values of the old one
  obtain ⟨υ, hold, hnew⟩ := exists_valuation_of_copy s' d.clause.vars θ
    fun x => θ (freshVariable s d.clause.vars x)
  refine ⟨υ, hover.solves_congr hold hθ, ?_⟩
  have hmem : ∀ t ∈ ts, t ∈ goal.args := by
    rcases hts with rfl | ⟨-, rfl⟩ <;> simp
  have hargs : (d.head.args.map (Term.subst fun x => .var (freshVariable s' d.clause.vars x))).map
      (Term.subst υ) = (d.head.args.map
        (Term.subst fun x => .var (freshVariable s d.clause.vars x))).map (Term.subst θ) := by
    rw [List.map_map, List.map_map]
    refine List.map_congr_left fun t ht => ?_
    simp only [Function.comp_apply, Term.subst_subst]
    refine Term.subst_congr fun x hx => ?_
    exact hnew x (vars_head_subset (List.mem_flatMap.mpr ⟨t, ht, hx⟩))
  rw [hargs, heq]
  refine List.map_congr_left fun t ht => Term.subst_congr fun x hx => ?_
  exact (hold x (hgoal x (List.mem_flatMap.mpr ⟨t, hmem t ht, hx⟩))).symm

/-- A clause can be applied to a goal: a copy of its head unifies with the goal. -/
def Applies (goal : Atom) (σ : Substitution) (s : Names) (d : DefiniteClause) : Bool :=
  ((d.renameApart s).1.head.unify σ goal).isSome

theorem applies_congr (hσ : σ.Acyclic) (hgoal : ∀ x ∈ goal.vars, x.Below s.next)
    (hover : σ.Over (·.Below s.next)) (hle : s.next ≤ s'.next) (d : DefiniteClause) :
    d.Applies goal σ s' = d.Applies goal σ s := by
  rw [Bool.eq_iff_iff]
  exact ⟨isSome_unify_copy hσ hgoal hover, isSome_unify_copy hσ
    (fun x hx => (hgoal x hx).mono hle) (hover.mono fun x hx => hx.mono hle)⟩

private theorem symbol_eq_of_applies {d : DefiniteClause} (h : d.Applies goal σ s) :
    d.head.symbol = goal.symbol := by
  obtain ⟨τ, hτ⟩ := Option.isSome_iff_exists.mp h
  have hsymbol := (Atom.unification_of_unify hτ).1
  rwa [head_renameApart, Atom.symbol_subst] at hsymbol

end DefiniteClause

/-! ## Section 4: Trying clauses one after the other -/

namespace Application

/-- The pair is what applying the clause to the goal gives. -/
structure Of (goal : Atom) (σ : Substitution) (d : DefiniteClause) (a : Application) : Prop where
  copy : d.RenamesTo a.clause
  unifies : a.clause.head.unify σ goal = some a.unifier

/-- The variables of the pair, those of the clause and of the unifier, have the property. -/
structure Over (p : Ident → Prop) (a : Application) : Prop where
  clause : ∀ x ∈ a.clause.clause.vars, p x
  unifier : a.unifier.Over p

theorem Over.mono {p q : Ident → Prop} {a : Application} (h : a.Over p) (hpq : ∀ x, p x → q x) :
    a.Over q :=
  ⟨fun x hx => hpq x (h.clause x hx), h.unifier.mono hpq⟩

end Application

namespace ClauseStore

variable {goal : Atom} {σ : Substitution} {s s₀ : Names} {t : ClauseStore}

/-- Trying clauses finds, in order, one pair for each that can be applied. -/
theorem forall₂_flatMap_applyTo (hσ : σ.Acyclic) (hgoal : ∀ x ∈ goal.vars, x.Below s₀.next)
    (hover : σ.Over (·.Below s₀.next)) (hle : s₀.next ≤ s.next) (ds : List DefiniteClause) :
    List.Forall₂ (Application.Of goal σ) (ds.filter (DefiniteClause.Applies goal σ s₀))
      (s.flatMap (DefiniteClause.applyTo goal σ) ds).1 := by
  induction ds generalizing s with
  | nil => exact .nil
  | cons d ds ih =>
    have hrest := ih (hle.trans (d.next_le_next_applyTo goal σ s))
    rw [List.filter_cons, ← DefiniteClause.applies_congr hσ hgoal hover hle]
    simp only [Names.flatMap]
    cases hunify : (d.renameApart s).1.head.unify σ goal with
    | none => simpa [DefiniteClause.Applies, hunify, DefiniteClause.applyTo] using hrest
    | some τ =>
      have hof : Application.Of goal σ d ⟨(d.renameApart s).1, τ⟩ :=
        ⟨d.renamesTo_renameApart s, hunify⟩
      simp only [DefiniteClause.Applies, DefiniteClause.applyTo, hunify, Option.isSome_some,
        if_true] at hrest ⊢
      exact .cons hof hrest

private theorem candidates_filter (ht : t.Filed) :
    (t.candidates goal).filter (DefiniteClause.Applies goal σ s) =
      t.toList.filter (DefiniteClause.Applies goal σ s) := by
  unfold candidates
  split
  next => rfl
  next =>
    rw [ht.bucket_eq, List.filter_filter]
    refine List.filter_congr fun d _ => ?_
    cases hd : d.Applies goal σ s with
    | false => simp
    | true => simp [DefiniteClause.symbol_eq_of_applies hd]

theorem over_of_mem_applyTo (hσ : σ.Acyclic) (hgoal : ∀ x ∈ goal.vars, x.Below s.next)
    (hover : σ.Over (·.Below s.next)) {d : DefiniteClause} {a : Application}
    (ha : a ∈ (d.applyTo goal σ s).1) : a.Over (·.Below (d.applyTo goal σ s).2.next) := by
  have hle := d.next_le_next_applyTo goal σ s
  obtain ⟨hcopy, hunify⟩ := DefiniteClause.mem_applyTo.mp ha
  have hvars : ∀ x ∈ a.clause.clause.vars, x.Below (d.applyTo goal σ s).2.next := by
    rw [hcopy, DefiniteClause.snd_applyTo]
    exact fun x hx => (DefiniteClause.mem_vars_renameApart hx).2
  refine ⟨hvars, (Atom.over_of_unify hσ (hover.mono fun x hx => hx.mono hle)
    (fun x hx => hvars x (DefiniteClause.vars_head_subset hx))
    (fun x hx => (hgoal x hx).mono hle) hunify).2⟩

theorem not_below_of_mem_flatMap {ds : List DefiniteClause} {a : Application}
    (ha : a ∈ (s.flatMap (DefiniteClause.applyTo goal σ) ds).1) {x : Ident}
    (hx : x ∈ a.clause.clause.vars) : ¬ x.Below s.next := by
  obtain ⟨d, -, s', hle, -, ha⟩ :=
    Names.exists_of_mem_flatMap (DefiniteClause.next_le_next_applyTo goal σ) ha
  rw [(DefiniteClause.mem_applyTo.mp ha).1] at hx
  exact fun hbelow => (DefiniteClause.mem_vars_renameApart hx).1 (hbelow.mono hle)

/-- Copies that are made later have no variable of a pair that was found before. -/
theorem pairwise_flatMap_applyTo (hσ : σ.Acyclic) (hgoal : ∀ x ∈ goal.vars, x.Below s.next)
    (hover : σ.Over (·.Below s.next)) (ds : List DefiniteClause) :
    (s.flatMap (DefiniteClause.applyTo goal σ) ds).1.Pairwise fun a b =>
      ∀ x ∈ b.clause.clause.vars, a.Over (· ≠ x) := by
  induction ds generalizing s with
  | nil => exact .nil
  | cons d ds ih =>
    have hle := d.next_le_next_applyTo goal σ s
    have hrest := ih (s := (d.applyTo goal σ s).2) (fun x hx => (hgoal x hx).mono hle)
      (hover.mono fun x hx => hx.mono hle)
    simp only [Names.flatMap, List.pairwise_append]
    refine ⟨?_, hrest, ?_⟩
    · -- one clause gives one pair at most
      unfold DefiniteClause.applyTo
      dsimp only
      split <;> simp
    · intro a ha b hb x hx
      refine (over_of_mem_applyTo hσ hgoal hover ha).mono fun y hy => ?_
      rintro rfl
      exact not_below_of_mem_flatMap hb hx hy

private theorem over_of_mem_applications (hσ : σ.Acyclic) (hgoal : ∀ x ∈ goal.vars, x.Below s.next)
    (hover : σ.Over (·.Below s.next)) {a : Application} (ha : a ∈ (t.applications s goal σ).1) :
    a.Over (·.Below (t.applications s goal σ).2.next) := by
  obtain ⟨d, -, s', hle, hle', ha⟩ :=
    Names.exists_of_mem_flatMap (DefiniteClause.next_le_next_applyTo goal σ) ha
  refine (over_of_mem_applyTo hσ (fun x hx => (hgoal x hx).mono hle)
    (hover.mono fun x hx => hx.mono hle) ha).mono fun x hx => hx.mono hle'

end ClauseStore

/-! ## Section 5: Runs -/

instance (n : Nat) (c : Clause) : Decidable (c.Below n) :=
  inferInstanceAs (Decidable (∀ x ∈ c.vars, x.Below n))

/-- A store, the supply of names, and the pairs that were found so far. -/
structure StoreState where
  store : ClauseStore
  names : Names
  found : List Application

/-- The goal and the bindings are those that a client can have: their variables exist, and the
    bindings are acyclic. -/
structure Askable (s : Names) (goal : Atom) (σ : Substitution) : Prop where
  acyclic : σ.Acyclic
  goal : ∀ x ∈ goal.vars, x.Below s.next
  bindings : σ.Over (·.Below s.next)

/-- The states of a store that clauses are added to and looked up in, with the clauses that were
    added.  Names may be taken for other purposes at any time. -/
inductive StoreRun : List DefiniteClause → StoreState → Prop
  | start (s : Names) : StoreRun [] ⟨.empty, s, []⟩
  | add {ds : List DefiniteClause} {st : StoreState} {d : DefiniteClause} :
      StoreRun ds st → d.clause.Below st.names.next →
      StoreRun (ds ++ [d]) { st with store := (st.store.add d).2 }
  | applications {ds : List DefiniteClause} {st : StoreState} {goal : Atom} {σ : Substitution} :
      StoreRun ds st → Askable st.names goal σ →
      StoreRun ds { st with
        names := (st.store.applications st.names goal σ).2
        found := st.found ++ (st.store.applications st.names goal σ).1 }
  | elsewhere {ds : List DefiniteClause} {st : StoreState} {s : Names} :
      StoreRun ds st → st.names.next ≤ s.next → StoreRun ds { st with names := s }

namespace StoreRun

variable {ds : List DefiniteClause} {st : StoreState}

private theorem store_eq (h : StoreRun ds st) : st.store = ClauseStore.ofList ds := by
  induction h with
  | start s => rfl
  | add h _ ih => simp [ClauseStore.ofList, ClauseStore.addAll, List.foldl_append, ih]
  | applications _ _ ih => exact ih
  | elsewhere _ _ ih => exact ih

private theorem added_below (h : StoreRun ds st) : ∀ d ∈ ds, d.clause.Below st.names.next := by
  induction h with
  | start s => simp
  | add _ hd ih =>
    rw [List.forall_mem_append]
    exact ⟨ih, by simpa using hd⟩
  | applications _ _ ih =>
    exact fun d hd => (ih d hd).mono (ClauseStore.next_le_next_applications _ _ _ _)
  | elsewhere _ hle ih => exact fun d hd => (ih d hd).mono hle

theorem found_below (h : StoreRun ds st) : ∀ a ∈ st.found, a.Over (·.Below st.names.next) := by
  induction h with
  | start s => simp
  | add _ _ ih => exact ih
  | @applications ds st goal σ _ hask ih =>
    intro a ha
    rcases List.mem_append.mp ha with ha | ha
    · exact (ih a ha).mono fun x hx => hx.mono (st.store.next_le_next_applications _ _ _)
    · exact ClauseStore.over_of_mem_applications hask.acyclic hask.goal hask.bindings ha
  | elsewhere _ hle ih => exact fun a ha => (ih a ha).mono fun x hx => hx.mono hle

/-- A store answers like the list of the distinct clauses that were added to it.  A clause is new if
    no equal one is listed.  Looking up a goal finds, in the order of the list, one pair for each
    listed clause that can be applied to the goal, whatever names its copy would get: a renaming of
    the clause and its unifier.  No variable of the copy is in a listed clause, in the goal, in the
    bindings or in a pair that was found before. -/
theorem linear_scan (h : StoreRun ds st) :
    (∀ d, (st.store.add d).1 = true ↔ ∀ e ∈ st.store.toList, (e == d) = false) ∧
    st.store.toList.Perm (dedup ds) ∧ st.store.size = (dedup ds).length ∧
    ∀ goal σ, Askable st.names goal σ →
      (∀ d ∈ st.store.toList, ∀ s : Names, st.names.next ≤ s.next →
        d.Applies goal σ s = d.Applies goal σ st.names) ∧
      List.Forall₂ (Application.Of goal σ)
        (st.store.toList.filter (DefiniteClause.Applies goal σ st.names))
        (st.store.applications st.names goal σ).1 ∧
      (∀ a ∈ (st.store.applications st.names goal σ).1, ∀ x ∈ a.clause.clause.vars,
        (∀ d ∈ st.store.toList, x ∉ d.clause.vars) ∧ x ∉ goal.vars ∧ σ.Over (· ≠ x) ∧
          ∀ b ∈ st.found, b.Over (· ≠ x)) ∧
      (st.store.applications st.names goal σ).1.Pairwise fun a b =>
        ∀ x ∈ b.clause.clause.vars, a.Over (· ≠ x) := by
  have hfiled : st.store.Filed := h.store_eq ▸ ClauseStore.filed_ofList ds
  have hperm : st.store.toList.Perm (dedup ds) := h.store_eq ▸ ClauseStore.toList_ofList ds
  refine ⟨hfiled.add_eq_true_iff, hperm, hperm.length_eq, ?_⟩
  rintro goal σ ⟨hσ, hgoal, hover⟩
  refine ⟨?_, ?_, ?_, ?_⟩
  · exact fun d _ s hle => DefiniteClause.applies_congr hσ hgoal hover hle d
  · rw [← ClauseStore.candidates_filter hfiled]
    exact ClauseStore.forall₂_flatMap_applyTo hσ hgoal hover le_rfl _
  · intro a ha x hx
    have hfresh : ¬ x.Below st.names.next := ClauseStore.not_below_of_mem_flatMap ha hx
    have hne : ∀ y : Ident, y.Below st.names.next → y ≠ x := by
      rintro y hy rfl
      exact hfresh hy
    refine ⟨fun d hd hxd => ?_, fun hxg => hfresh (hgoal x hxg), hover.mono hne, ?_⟩
    · exact hfresh (h.added_below d (mem_of_mem_dedup (hperm.mem_iff.mp hd)) x hxd)
    · exact fun b hb => (h.found_below b hb).mono hne
  · exact ClauseStore.pairwise_flatMap_applyTo hσ hgoal hover _

/-- `p(X)` if `q(X)`. -/
def ruleForP : DefiniteClause :=
  ⟨Clause.ofList [⟨true, .pred (.name "p") [.var (.name "X")]⟩,
    ⟨false, .pred (.name "q") [.var (.name "X")]⟩] .rule, rfl⟩

/-- A fact about everything, for the predicate with the null name. -/
def nullFact : DefiniteClause :=
  .ofAtom (.pred .null [.var (.name "X")])

/-- A store with both clauses that has been asked for `p(Y)` already. -/
def askedOnce : StoreState :=
  let t := ClauseStore.ofList [ruleForP, nullFact]
  let answer := t.applications {} (.pred (.name "p") [.var (.name "Y")]) .empty
  ⟨t, answer.2, answer.1⟩

/-- A goal whose name is null is looked up in all buckets, and the one clause that applies is
    found. -/
theorem linear_scan_null : StoreRun [ruleForP, nullFact] askedOnce ∧
    Askable askedOnce.names (.pred .null [.var (.name "Y")]) .empty ∧
    askedOnce.found.length = 1 ∧
    List.Forall₂ (Application.Of (.pred .null [.var (.name "Y")]) .empty) [nullFact]
      (askedOnce.store.applications askedOnce.names (.pred .null [.var (.name "Y")]) .empty).1 := by
  have hask : ∀ (s : Names) (p : Ident), Askable s (.pred p [.var (.name "Y")]) .empty := by
    intro s p
    refine ⟨Substitution.acyclic_empty, ?_, Substitution.over_empty _⟩
    intro x hx
    obtain rfl : x = .name "Y" := by simpa [Atom.vars, Atom.args, Term.vars] using hx
    trivial
  have hrun : StoreRun [ruleForP, nullFact] askedOnce :=
    (((start {}).add (d := ruleForP) (by decide)).add (d := nullFact) (by decide)).applications
      (hask _ _)
  refine ⟨hrun, hask _ _, rfl, ?_⟩
  exact ((linear_scan hrun).2.2.2 _ _ (hask _ _)).2.1

end StoreRun

end Clausal
