import Clausal.Chaining.Store
import Clausal.Proofs.Clause
import Clausal.Proofs.MostGeneral
import Clausal.Proofs.Resolution.Resolvent
import Clausal.Proofs.Resolution.Search

/-!
# Definite clauses and their stores

A definite clause says that its head is true wherever its body is.  A store has the clauses that were
added to it and no others, up to equality, and finds the clauses for a goal in the bucket of its
symbol.

## Main definitions

- `ClauseStore.Keyed`: every clause is found in the bucket of its head

## Main statements

- `DefiniteClause.holdsClause_iff`: a definite clause as a rule
- `ClauseStore.mem_addAll`, `ClauseStore.exists_mem_addAll`: the clauses of a store
- `ClauseStore.of_mem_applications`, `ClauseStore.exists_application`: what can be applied to a goal
-/

namespace Clausal

universe u

/-! ## Section 1: Definite clauses -/

namespace DefiniteClause

theorem mem_body {d : DefiniteClause} {a : Atom} :
    a ∈ d.body ↔ (⟨false, a⟩ : Literal) ∈ d.clause.literals := by
  simp only [body, Clause.negatives, List.mem_map, List.mem_filter]
  constructor
  · rintro ⟨⟨p, b⟩, ⟨hl, hp⟩, rfl⟩
    obtain rfl : p = false := by simpa using hp
    exact hl
  · intro h
    exact ⟨⟨false, a⟩, ⟨h, rfl⟩, rfl⟩

/-- The head is the atom of the only positive literal. -/
theorem positives_eq (d : DefiniteClause) : d.clause.positives = [⟨true, d.head⟩] := by
  have hlength : d.clause.positives.length = 1 := by
    simpa [Clause.isDefinite] using d.definite
  obtain ⟨l, hl⟩ := List.length_eq_one_iff.mp hlength
  have hpos : l.positive = true := by
    have hmem : l ∈ d.clause.positives := by simp [hl]
    exact (List.mem_filter.mp hmem).2
  have hhead : d.head = l.atom := by simp [head, hl]
  rw [hl, hhead, ← hpos]

theorem mem_literals {d : DefiniteClause} {a : Atom} :
    (⟨true, a⟩ : Literal) ∈ d.clause.literals ↔ a = d.head := by
  have hmem : (⟨true, a⟩ : Literal) ∈ d.clause.positives ↔ a = d.head := by
    simp [positives_eq]
  simpa [Clause.positives] using hmem

theorem head_subst (θ : Ident → Term) (d : DefiniteClause) : (d.subst θ).head = d.head.subst θ := by
  have hpos : (d.subst θ).clause.positives = [⟨true, d.head.subst θ⟩] := by
    rw [subst, Clause.positives_subst, positives_eq]
    rfl
  rw [positives_eq] at hpos
  simpa using hpos

private theorem of_mem_body_subst {θ : Ident → Term} {d : DefiniteClause} {a : Atom}
    (h : a ∈ (d.subst θ).body) : ∃ b ∈ d.body, a = b.subst θ := by
  obtain ⟨l, hl, heq⟩ := List.mem_map.mp (mem_of_mem_dedup (mem_body.mp h))
  obtain ⟨p, b⟩ := l
  obtain ⟨rfl, rfl⟩ := Literal.mk.inj heq
  exact ⟨b, mem_body.mpr hl, rfl⟩

theorem exists_mem_body_subst (θ : Ident → Term) {d : DefiniteClause} {b : Atom}
    (h : b ∈ d.body) : ∃ a ∈ (d.subst θ).body, (b.subst θ == a) = true := by
  obtain ⟨⟨p, a⟩, hl, hbeq⟩ := (d.clause.isImage_subst θ).onto ⟨false, b⟩ (mem_body.mp h)
  obtain ⟨hatom, hpos⟩ := Literal.beq_iff.mp hbeq
  obtain rfl : false = p := hpos
  exact ⟨a, mem_body.mpr hl, hatom⟩

theorem vars_head_subset {d : DefiniteClause} {x : Ident} (hx : x ∈ d.head.vars) :
    x ∈ d.clause.vars :=
  Clause.mem_vars.mpr ⟨⟨true, d.head⟩, mem_literals.mpr rfl, hx⟩

theorem vars_body_subset {d : DefiniteClause} {a : Atom} (ha : a ∈ d.body) {x : Ident}
    (hx : x ∈ a.vars) : x ∈ d.clause.vars :=
  Clause.mem_vars.mpr ⟨⟨false, a⟩, mem_body.mp ha, hx⟩

/-- The variables of a copy are fresh. -/
theorem mem_vars_renameApart {s : Names} {d : DefiniteClause} {y : Ident}
    (hy : y ∈ (d.renameApart s).1.clause.vars) :
    ¬ y.Below s.next ∧ y.Below (d.renameApart s).2.next := by
  refine ⟨?_, Clause.Below.renameApart s y hy⟩
  obtain ⟨l, hl, hy⟩ := Clause.mem_vars.mp hy
  obtain ⟨k, -, rfl⟩ := List.mem_map.mp (mem_of_mem_dedup hl)
  obtain ⟨x, -, hy⟩ := Atom.mem_vars_subst.mp hy
  obtain rfl : y = freshVariable s d.clause.vars x := by simpa [Term.vars] using hy
  exact not_below_freshVariable s _ x

/-- A copy takes every instance of the clause, whatever values older variables have. -/
theorem exists_instance_of_copy (s : Names) (d : DefiniteClause) (θ ρ : Ident → Term) :
    ∃ υ : Ident → Term, (∀ y, y.Below s.next → υ y = θ y) ∧
      (d.renameApart s).1.head.subst υ = d.head.subst ρ ∧
      (∀ a ∈ (d.renameApart s).1.body, ∃ b ∈ d.body, a.subst υ = b.subst ρ) ∧
      ∀ b ∈ d.body, ∃ a ∈ (d.renameApart s).1.body, (b.subst ρ == a.subst υ) = true := by
  obtain ⟨υ, hold, hcopy⟩ := exists_valuation_of_copy s d.clause.vars θ ρ
  have hsubst : ∀ a : Atom, (∀ x ∈ a.vars, x ∈ d.clause.vars) →
      (a.subst fun x => .var (freshVariable s d.clause.vars x)).subst υ = a.subst ρ := by
    intro a ha
    rw [Atom.subst_subst]
    exact Atom.subst_congr fun x hx => hcopy x (ha x hx)
  refine ⟨υ, hold, ?_, fun a ha => ?_, fun b hb => ?_⟩
  · rw [renameApart, head_subst]
    exact hsubst _ fun x => vars_head_subset
  · obtain ⟨b, hb, rfl⟩ := of_mem_body_subst ha
    exact ⟨b, hb, hsubst b fun x => vars_body_subset hb⟩
  · obtain ⟨a, ha, hbeq⟩ := exists_mem_body_subst _ hb
    refine ⟨a, ha, ?_⟩
    rw [← hsubst b fun x => vars_body_subset hb]
    exact Atom.beq_subst hbeq υ

/-- A definite clause is true if its head is true or its body is not. -/
theorem holdsClause_iff {D : Type u} {I : Interpretation D} {v : Ident → D} {d : DefiniteClause} :
    I.HoldsClause v d.clause ↔ ((∀ a ∈ d.body, I.HoldsAtom v a) → I.HoldsAtom v d.head) := by
  constructor
  · rintro ⟨⟨p, a⟩, hl, hv⟩ hbody
    cases p with
    | true => exact mem_literals.mp hl ▸ hv.mpr rfl
    | false => exact absurd (hv.mp (hbody a (mem_body.mpr hl))) Bool.false_ne_true
  · intro h
    by_cases hbody : ∀ a ∈ d.body, I.HoldsAtom v a
    · exact ⟨⟨true, d.head⟩, mem_literals.mpr rfl, iff_of_true (h hbody) rfl⟩
    · obtain ⟨a, ha⟩ := not_forall.mp hbody
      obtain ⟨ha, hv⟩ := Classical.not_imp.mp ha
      exact ⟨⟨false, a⟩, mem_body.mp ha, iff_of_false hv Bool.false_ne_true⟩

instance : ReflBEq DefiniteClause :=
  ⟨fun {d} => BEq.refl d.clause⟩

@[simp]
theorem head_ofAtom (a : Atom) : (ofAtom a).head = a := rfl

@[simp]
theorem body_ofAtom (a : Atom) : (ofAtom a).body = [] := rfl

/-- What is equal to a fact is a fact with an equal head. -/
theorem isFact_of_beq {d e : DefiniteClause} (hd : d.isFact = true) (h : (d == e) = true) :
    e.isFact = true ∧ (e.head == d.head) = true := by
  obtain ⟨-, honto⟩ := Clause.beq_iff.mp h
  constructor
  · -- no negative literal is equal to the head
    refine List.isEmpty_iff.mpr (List.eq_nil_iff_forall_not_mem.mpr fun b hb => ?_)
    obtain ⟨⟨p, a⟩, hl, hbeq⟩ := honto _ (mem_body.mp hb)
    obtain rfl : false = p := (Literal.beq_iff.mp hbeq).2
    have ha : a ∈ d.body := mem_body.mpr hl
    rw [show d.body = [] from List.isEmpty_iff.mp hd] at ha
    exact absurd ha List.not_mem_nil
  · obtain ⟨⟨p, a⟩, hl, hbeq⟩ := honto _ (mem_literals.mpr rfl)
    obtain ⟨hatom, hpos⟩ := Literal.beq_iff.mp hbeq
    obtain rfl : true = p := hpos
    obtain rfl := mem_literals.mp hl
    exact hatom

end DefiniteClause

/-! ## Section 2: The clauses of a store -/

namespace ClauseStore

variable {t : ClauseStore} {d e : DefiniteClause} {ds : List DefiniteClause}

theorem mem_bucket_iff {p : Ident} :
    d ∈ t.bucket p ↔ ∃ es, t.buckets.lookup p = some es ∧ d ∈ es := by
  unfold bucket
  cases t.buckets.lookup p <;> simp

theorem mem_bucket {p : Ident} (h : d ∈ t.bucket p) : d ∈ t.toList := by
  obtain ⟨es, hl, hd⟩ := mem_bucket_iff.mp h
  obtain ⟨l₁, l₂, hbuckets, -⟩ := List.lookup_eq_some_iff.mp hl
  exact List.mem_flatMap.mpr ⟨(p, es), by simp [hbuckets], hd⟩

theorem mem_candidates {goal : Atom} (h : d ∈ t.candidates goal) : d ∈ t.toList := by
  unfold candidates at h
  split at h
  · exact h
  · exact mem_bucket h

/-- A clause that is added gets a bucket of its own, or is there already, or is put at the end of
    its bucket. -/
theorem add_cases (t : ClauseStore) (e : DefiniteClause) :
    (t.buckets.lookup e.head.symbol = none ∧
        (t.add e).2 = ⟨t.buckets ++ [(e.head.symbol, [e])]⟩) ∨
      (∃ ds, t.buckets.lookup e.head.symbol = some ds ∧ ds.contains e = true ∧ (t.add e).2 = t) ∨
      ∃ ds, t.buckets.lookup e.head.symbol = some ds ∧
        (t.add e).2 = ⟨t.buckets.map fun b =>
          if b.1 = e.head.symbol then (e.head.symbol, b.2 ++ [e]) else b⟩ := by
  unfold add
  dsimp only
  split
  next hl => exact Or.inl ⟨hl, rfl⟩
  next ds hl =>
    split
    next hmem => exact Or.inr (Or.inl ⟨ds, hl, hmem, rfl⟩)
    next => exact Or.inr (Or.inr ⟨ds, hl, rfl⟩)

theorem mem_add (h : d ∈ (t.add e).2.toList) : d ∈ t.toList ∨ d = e := by
  rcases t.add_cases e with ⟨-, heq⟩ | ⟨ds, -, -, heq⟩ | ⟨ds, -, heq⟩
  · simpa [heq, toList] using h
  · exact Or.inl (heq ▸ h)
  · rw [heq] at h
    obtain ⟨b, hb, hd⟩ := List.mem_flatMap.mp h
    obtain ⟨c, hc, rfl⟩ := List.mem_map.mp hb
    split at hd
    next =>
      rcases List.mem_append.mp hd with hd | hd
      · exact Or.inl (List.mem_flatMap.mpr ⟨c, hc, hd⟩)
      · exact Or.inr (List.mem_singleton.mp hd)
    next => exact Or.inl (List.mem_flatMap.mpr ⟨c, hc, hd⟩)

theorem mem_addAll (h : d ∈ (t.addAll ds).toList) : d ∈ t.toList ∨ d ∈ ds := by
  induction ds generalizing t with
  | nil => exact Or.inl h
  | cons e ds ih =>
    rcases ih h with h | h
    · rcases mem_add h with h | rfl
      · exact Or.inl h
      · exact Or.inr List.mem_cons_self
    · exact Or.inr (List.mem_cons_of_mem _ h)

theorem mem_ofList (h : d ∈ (ofList ds).toList) : d ∈ ds :=
  (mem_addAll h).resolve_left List.not_mem_nil

private theorem mem_add_of_mem (h : d ∈ t.toList) : d ∈ (t.add e).2.toList := by
  rcases t.add_cases e with ⟨-, heq⟩ | ⟨ds, -, -, heq⟩ | ⟨ds, -, heq⟩
  · rw [heq]
    simp only [toList, List.flatMap_append]
    exact List.mem_append_left _ h
  · rw [heq]
    exact h
  · rw [heq]
    obtain ⟨b, hb, hd⟩ := List.mem_flatMap.mp h
    refine List.mem_flatMap.mpr ⟨_, List.mem_map_of_mem hb, ?_⟩
    split
    next => exact List.mem_append_left _ hd
    next => exact hd

/-- What is added is there afterwards, as itself or as an equal clause. -/
theorem exists_mem_add (t : ClauseStore) (e : DefiniteClause) :
    ∃ d ∈ (t.add e).2.toList, (e == d) = true := by
  rcases t.add_cases e with ⟨-, heq⟩ | ⟨ds, hl, hmem, heq⟩ | ⟨ds, hl, heq⟩
  · exact ⟨e, by simp [heq, toList], BEq.rfl⟩
  · obtain ⟨d, hd, hed⟩ := List.contains_iff_exists_mem_beq.mp hmem
    rw [heq]
    exact ⟨d, mem_bucket (mem_bucket_iff.mpr ⟨ds, hl, hd⟩), hed⟩
  · obtain ⟨l₁, l₂, hbuckets, -⟩ := List.lookup_eq_some_iff.mp hl
    exact ⟨e, by simp [heq, toList, hbuckets], BEq.rfl⟩

theorem mem_addAll_of_mem (h : d ∈ t.toList) : d ∈ (t.addAll ds).toList := by
  induction ds generalizing t with
  | nil => exact h
  | cons e ds ih => exact ih (mem_add_of_mem h)

theorem exists_mem_addAll (h : e ∈ ds) : ∃ d ∈ (t.addAll ds).toList, (e == d) = true := by
  induction ds generalizing t with
  | nil => exact absurd h List.not_mem_nil
  | cons c ds ih =>
    rcases List.mem_cons.mp h with rfl | h
    · obtain ⟨d, hd, hed⟩ := t.exists_mem_add e
      exact ⟨d, mem_addAll_of_mem (t := (t.add e).2) hd, hed⟩
    · exact ih h

/-- Every clause is found in the bucket of the symbol of its head. -/
def Keyed (t : ClauseStore) : Prop :=
  ∀ d ∈ t.toList, d ∈ t.bucket d.head.symbol

private theorem Keyed.add (h : t.Keyed) (e : DefiniteClause) : (t.add e).2.Keyed := by
  intro d hd
  rcases t.add_cases e with ⟨hl, heq⟩ | ⟨ds, -, -, heq⟩ | ⟨ds, hl, heq⟩
  · rw [heq, mem_bucket_iff, List.lookup_append]
    rcases mem_add hd with hd | rfl
    · -- a bucket that has a clause is not the new one
      obtain ⟨es, hl', hd⟩ := mem_bucket_iff.mp (h d hd)
      exact ⟨es, by rw [hl', Option.some_or], hd⟩
    · exact ⟨[d], by simp [hl], by simp⟩
  · rw [heq] at hd ⊢
    exact h d hd
  · -- buckets keep their keys, and one of them grows
    have hmap : (t.buckets.map fun b =>
        if b.1 = e.head.symbol then (e.head.symbol, b.2 ++ [e]) else b) =
        t.buckets.map fun b => (b.1, if b.1 = e.head.symbol then b.2 ++ [e] else b.2) := by
      refine List.map_congr_left fun b _ => ?_
      split
      next hb => simp [hb]
      next => rfl
    rw [heq, mem_bucket_iff, hmap,
      Substitution.lookup_map_snd fun q es => if q = e.head.symbol then es ++ [e] else es]
    rcases mem_add hd with hd | rfl
    · obtain ⟨es, hl', hd⟩ := mem_bucket_iff.mp (h d hd)
      refine ⟨_, by rw [hl', Option.map_some], ?_⟩
      split
      next => exact List.mem_append_left _ hd
      next => exact hd
    · exact ⟨_, by rw [hl, Option.map_some], by simp⟩

/-- Clauses whose heads start like the goal are candidates. -/
theorem Keyed.mem_candidates (h : t.Keyed) (hd : d ∈ t.toList) {goal : Atom}
    (hsymbol : d.head.symbol = goal.symbol) : d ∈ t.candidates goal := by
  unfold candidates
  split
  · exact hd
  · exact hsymbol ▸ h d hd

theorem Keyed.addAll (h : t.Keyed) : (t.addAll ds).Keyed := by
  induction ds generalizing t with
  | nil => exact h
  | cons e ds ih => exact ih (h.add e)

theorem keyed_ofList (ds : List DefiniteClause) : (ofList ds).Keyed :=
  Keyed.addAll fun _ hd => absurd hd List.not_mem_nil

end ClauseStore

/-! ## Section 3: Clauses for a goal -/

section Applications

variable {goal : Atom} {σ : Substitution} {s : Names} {d : DefiniteClause} {a : Application}

theorem DefiniteClause.snd_applyTo (goal : Atom) (σ : Substitution) (s : Names)
    (d : DefiniteClause) : (d.applyTo goal σ s).2 = (d.renameApart s).2 := by
  unfold applyTo
  dsimp only
  split <;> rfl

theorem DefiniteClause.mem_applyTo : a ∈ (d.applyTo goal σ s).1 ↔
    a.clause = (d.renameApart s).1 ∧ a.clause.head.unify σ goal = some a.unifier := by
  obtain ⟨e, τ⟩ := a
  unfold applyTo
  dsimp only
  split
  next hnone =>
    simp only [List.not_mem_nil, false_iff, not_and]
    rintro rfl
    simp [hnone]
  next ρ hρ =>
    simp only [List.mem_singleton, Application.mk.injEq]
    refine and_congr_right ?_
    rintro rfl
    rw [hρ, Option.some.injEq, eq_comm]

theorem DefiniteClause.next_le_next_applyTo (goal : Atom) (σ : Substitution) (s : Names)
    (d : DefiniteClause) : s.next ≤ (d.applyTo goal σ s).2.next := by
  rw [snd_applyTo]
  exact Nat.le_add_right _ _

namespace ClauseStore

variable {t : ClauseStore}

theorem next_le_next_applications (t : ClauseStore) (s : Names) (goal : Atom) (σ : Substitution) :
    s.next ≤ (t.applications s goal σ).2.next :=
  Names.next_le_next_flatMap (DefiniteClause.next_le_next_applyTo goal σ) s _

/-- What is applied to a goal is a copy of a clause of the store, made under a supply that is handed
    on. -/
theorem of_mem_applications (h : a ∈ (t.applications s goal σ).1) : ∃ d ∈ t.toList, ∃ s',
    s.next ≤ s'.next ∧ (d.renameApart s').2.next ≤ (t.applications s goal σ).2.next ∧
      a.clause = (d.renameApart s').1 ∧ a.clause.head.unify σ goal = some a.unifier := by
  obtain ⟨d, hd, s', hle, hle', ha⟩ :=
    Names.exists_of_mem_flatMap (DefiniteClause.next_le_next_applyTo goal σ) h
  rw [DefiniteClause.snd_applyTo] at hle'
  exact ⟨d, mem_candidates hd, s', hle, hle', DefiniteClause.mem_applyTo.mp ha⟩

/-- A clause whose head starts like the goal is tried, under a supply that is handed on. -/
theorem exists_mem_applications (ht : t.Keyed) (hd : d ∈ t.toList)
    (hsymbol : d.head.symbol = goal.symbol) (s : Names) (σ : Substitution) : ∃ s',
    s.next ≤ s'.next ∧ (d.renameApart s').2.next ≤ (t.applications s goal σ).2.next ∧
      ∀ τ, (d.renameApart s').1.head.unify σ goal = some τ →
        ⟨(d.renameApart s').1, τ⟩ ∈ (t.applications s goal σ).1 := by
  obtain ⟨s', hle, hle', hmem⟩ := Names.exists_supply
    (f := fun s d => DefiniteClause.applyTo goal σ s d) (s := s)
    (DefiniteClause.next_le_next_applyTo goal σ) (ht.mem_candidates hd hsymbol)
  rw [DefiniteClause.snd_applyTo] at hle'
  exact ⟨s', hle, hle', fun τ hτ => hmem _ (DefiniteClause.mem_applyTo.mpr ⟨rfl, hτ⟩)⟩

end ClauseStore

end Applications

end Clausal
