import Clausal.Proofs.Clause
import Clausal.Proofs.Normal.Scopes
import Mathlib.Data.List.Chain
import Mathlib.Data.List.Nodup

/-!
# Names in normal forms

A normal form is made of the names of its formula and of names that are handed out for it: variables
for the free variables and the quantifiers, and Skolem symbols for the existential quantifiers.  The
scope of an existential quantifier is entered once, so its symbol is applied to the universal
variables of that one place wherever it stands.

Normal forms are made one after the other, and other things that use up names may happen in
between.  No name is handed out twice.  So a name that was handed out for one normal form gets into
another one only if somebody puts it into the formula.

## Main definitions

- `Formula.skolemTuples`: the Skolem symbols of a formula with the variables they are applied to
- `NormalCall`: a formula whose normal form is made, with the supply at that time
- `NormalCall.WellShaped`: what the result of a call looks like

## Main statements

- `Formula.mem_atoms_matrix_tuples`: what the atoms of a normal form are made of
- `NormalCall.wellShaped`, `NormalCall.mem_names_result`
- `normal_forms_fresh`
- `normal_forms_lose_and_share_skolems`: symbols that are not used, and symbols that are put in
-/

namespace Clausal

/-! ## Section 1: The arguments of Skolem symbols -/

namespace Formula

/-- The Skolem symbols of a formula whose first one has serial `n`, with the universal variables
    that they are applied to; `ws` are those further out. -/
def skolemTuples (origin : Option Nat) : Nat → List Ident → Formula → List (Ident × List Ident)
  | _, _, .atom _ => []
  | n, ws, .not f => f.skolemTuples origin n ws
  | n, ws, .and f g | n, ws, .or f g | n, ws, .imp f g | n, ws, .iff f g =>
    f.skolemTuples origin n ws ++ g.skolemTuples origin (n + f.existentials) ws
  | n, ws, .all x f => f.skolemTuples origin n (ws ++ [x])
  | n, ws, .ex x f => (.skolem n x origin, ws) :: f.skolemTuples origin (n + 1) ws

theorem map_fst_skolemTuples (origin : Option Nat) (n : Nat) (ws : List Ident) (f : Formula) :
    (f.skolemTuples origin n ws).map Prod.fst = f.skolems origin n := by
  induction f generalizing n ws with
  | atom a => rfl
  | not f ih | all x f ih => exact ih _ _
  | and f g ihf ihg | or f g ihf ihg | imp f g ihf ihg | iff f g ihf ihg =>
    rw [skolemTuples, List.map_append, ihf, ihg, skolems]
  | ex x f ih => rw [skolemTuples, List.map_cons, ih, skolems]

/-- Every Skolem symbol is handed out once. -/
theorem nodup_skolems (origin : Option Nat) (n : Nat) (f : Formula) :
    (f.skolems origin n).Nodup := by
  induction f generalizing n with
  | atom a => exact List.nodup_nil
  | not f ih | all x f ih => exact ih n
  | and f g ihf ihg | or f g ihf ihg | imp f g ihf ihg | iff f g ihf ihg =>
    refine List.nodup_append.mpr ⟨ihf n, ihg _, fun x hx y hy hxy => ?_⟩
    obtain ⟨k, z, rfl, -, hk⟩ := mem_skolems hx
    obtain ⟨k', z', rfl, hk', -⟩ := mem_skolems hy
    obtain ⟨rfl, -⟩ := Ident.skolem.inj hxy
    omega
  | ex z f ih =>
    refine List.nodup_cons.mpr ⟨fun hz => ?_, ih _⟩
    obtain ⟨k, y, hk, hn, -⟩ := mem_skolems hz
    obtain ⟨rfl, -⟩ := Ident.skolem.inj hk
    omega

/-- The arguments of a Skolem symbol are different variables, given or bound. -/
theorem nodup_of_mem_skolemTuples {origin : Option Nat} {n : Nat} {ws B : List Ident} {f : Formula}
    (hf : f.WellScoped B) (hws : ws.Nodup) (hB : ∀ w ∈ ws, w ∈ B) {e : Ident × List Ident}
    (he : e ∈ f.skolemTuples origin n ws) :
    e.2.Nodup ∧ ∀ w ∈ e.2, w ∈ ws ∨ w ∈ f.bound := by
  induction f generalizing n ws B with
  | atom a => cases he
  | not f ih => exact ih hf hws hB he
  | and f g ihf ihg | or f g ihf ihg | imp f g ihf ihg | iff f g ihf ihg =>
    rcases List.mem_append.mp he with he | he
    · obtain ⟨hnodup, hmem⟩ := ihf hf.1 hws hB he
      exact ⟨hnodup, fun w hw => (hmem w hw).imp id (List.mem_append_left _)⟩
    · obtain ⟨hnodup, hmem⟩ := ihg hf.2 hws hB he
      exact ⟨hnodup, fun w hw => (hmem w hw).imp id (List.mem_append_right _)⟩
  | all x f ih =>
    have hnodup : (ws ++ [x]).Nodup := by
      refine List.nodup_append.mpr ⟨hws, List.nodup_singleton x, fun w hw y hy hwy => ?_⟩
      exact hf.1 (List.mem_singleton.mp hy ▸ hwy ▸ hB w hw)
    have hsub : ∀ w ∈ ws ++ [x], w ∈ x :: B := by
      intro w hw
      rcases List.mem_append.mp hw with hw | hw
      · exact List.mem_cons_of_mem _ (hB w hw)
      · exact List.mem_singleton.mp hw ▸ List.mem_cons_self
    obtain ⟨hnodup, hmem⟩ := ih hf.2 hnodup hsub he
    refine ⟨hnodup, fun w hw => ?_⟩
    rcases hmem w hw with hw | hw
    · rcases List.mem_append.mp hw with hw | hw
      · exact Or.inl hw
      · exact Or.inr (List.mem_singleton.mp hw ▸ List.mem_cons_self)
    · exact Or.inr (List.mem_cons_of_mem _ hw)
  | ex x f ih =>
    rcases List.mem_cons.mp he with rfl | he
    · exact ⟨hws, fun w hw => Or.inl hw⟩
    · have hsub : ∀ w ∈ ws, w ∈ x :: B := fun w hw => List.mem_cons_of_mem _ (hB w hw)
      obtain ⟨hnodup, hmem⟩ := ih hf.2 hws hsub he
      exact ⟨hnodup, fun w hw => (hmem w hw).imp id (List.mem_cons_of_mem _)⟩

end Formula

/-- On the way down a formula, the variables `B` met so far stand for themselves if they are among
    the universal ones `ws`, and otherwise for a Skolem symbol applied as the table `T` says. -/
structure SkolemShape (T : List (Ident × List Ident)) (ws B : List Ident) (θ : Ident → Term) :
    Prop where
  unbound : ∀ y, y ∉ B → θ y = .var y
  shape : ∀ y ∈ B, (θ y = .var y ∧ y ∈ ws) ∨ ∃ e ∈ T, θ y = .app e.1 (e.2.map .var)

namespace SkolemShape

variable {T T' : List (Ident × List Ident)} {ws B : List Ident} {θ : Ident → Term} {x : Ident}

private theorem start (ws : List Ident) : SkolemShape [] ws ws .var :=
  ⟨fun _ _ => rfl, fun _ hy => Or.inl ⟨rfl, hy⟩⟩

private theorem mono (h : SkolemShape T ws B θ) (hT : T ⊆ T') : SkolemShape T' ws B θ where
  unbound := h.unbound
  shape y hy := (h.shape y hy).imp id (Exists.imp fun _ => And.imp (hT ·) id)

theorem all (h : SkolemShape T ws B θ) (hx : x ∉ B) : SkolemShape T (ws ++ [x]) (x :: B) θ where
  unbound y hy := h.unbound y fun hB => hy (List.mem_cons_of_mem _ hB)
  shape y hy := by
    rcases List.mem_cons.mp hy with rfl | hy
    · exact Or.inl ⟨h.unbound y hx, List.mem_append_right _ (List.mem_singleton_self y)⟩
    · exact (h.shape y hy).imp (And.imp id (List.mem_append_left _)) id

private theorem ex (h : SkolemShape T ws B θ) (x g : Ident) : SkolemShape ((g, ws) :: T) ws (x :: B)
    (fun y => if y = x then .app g (ws.map .var) else θ y) where
  unbound y hy := by
    have hyx : y ≠ x := fun e => hy (e ▸ List.mem_cons_self)
    rw [if_neg hyx, h.unbound y fun hB => hy (List.mem_cons_of_mem _ hB)]
  shape y hy := by
    by_cases hyx : y = x
    · exact Or.inr ⟨_, List.mem_cons_self, if_pos hyx⟩
    · rw [if_neg hyx]
      exact (h.mono (List.subset_cons_self _ _)).shape y ((List.mem_cons.mp hy).resolve_left hyx)

end SkolemShape

namespace Formula

/-- The atoms of a Skolem form are atoms of the formula in which variables stand for universal
    variables and for Skolem symbols, each applied to its own tuple. -/
theorem mem_atoms_skolemiseFrom_tuples {origin : Option Nat} {n : Nat}
    {T : List (Ident × List Ident)} {ws B : List Ident} {θ : Ident → Term}
    (hθ : SkolemShape T ws B θ) {f : Formula} (hf : f.WellScoped B) {a : Atom}
    (ha : a ∈ (f.skolemiseFrom origin n (ws.map .var) θ).atoms) :
    ∃ b ∈ f.atoms, ∃ τ : Ident → Term, a = b.subst τ ∧ ∀ y ∈ b.vars,
      (τ y = .var y ∧ (y ∈ ws ∨ y ∈ f.bound)) ∨
        ∃ e ∈ T ++ f.skolemTuples origin n ws, τ y = .app e.1 (e.2.map .var) := by
  induction f generalizing n T ws B θ with
  | atom b =>
    refine ⟨b, List.mem_singleton_self b, θ, List.mem_singleton.mp ha, fun y hy => ?_⟩
    rw [skolemTuples, List.append_nil]
    exact (hθ.shape y (hf y hy)).imp (And.imp id Or.inl) id
  | not f ih => exact ih hθ hf ha
  | and f g ihf ihg | or f g ihf ihg | imp f g ihf ihg | iff f g ihf ihg =>
    rcases List.mem_append.mp ha with ha | ha
    · obtain ⟨b, hb, τ, rfl, hτ⟩ := ihf hθ hf.1 ha
      refine ⟨b, List.mem_append_left _ hb, τ, rfl, fun y hy => ?_⟩
      refine (hτ y hy).imp (And.imp id (Or.imp id (List.mem_append_left _))) fun he => ?_
      obtain ⟨e, he, heq⟩ := he
      exact ⟨e, by grind [skolemTuples], heq⟩
    · obtain ⟨b, hb, τ, rfl, hτ⟩ := ihg hθ hf.2 ha
      refine ⟨b, List.mem_append_right _ hb, τ, rfl, fun y hy => ?_⟩
      refine (hτ y hy).imp (And.imp id (Or.imp id (List.mem_append_right _))) fun he => ?_
      obtain ⟨e, he, heq⟩ := he
      exact ⟨e, by grind [skolemTuples], heq⟩
  | all x f ih =>
    rw [skolemiseFrom, ← List.map_singleton, ← List.map_append] at ha
    obtain ⟨b, hb, τ, rfl, hτ⟩ := ih (hθ.all hf.1) hf.2 ha
    refine ⟨b, hb, τ, rfl, fun y hy => (hτ y hy).imp (And.imp id fun h => ?_) id⟩
    rcases h with h | h
    · rcases List.mem_append.mp h with h | h
      · exact Or.inl h
      · exact Or.inr (List.mem_singleton.mp h ▸ List.mem_cons_self)
    · exact Or.inr (List.mem_cons_of_mem _ h)
  | ex x f ih =>
    obtain ⟨b, hb, τ, rfl, hτ⟩ := ih (hθ.ex x (.skolem n x origin)) hf.2 ha
    refine ⟨b, hb, τ, rfl, fun y hy => ?_⟩
    refine (hτ y hy).imp (And.imp id (Or.imp id (List.mem_cons_of_mem _))) fun he => ?_
    obtain ⟨e, he, heq⟩ := he
    exact ⟨e, by grind [skolemTuples], heq⟩

/-- The Skolem symbols of the existential quantifiers whose variable is used in their scope. -/
def usedSkolems (origin : Option Nat) : Nat → Formula → List Ident
  | _, .atom _ => []
  | n, .not f | n, .all _ f => f.usedSkolems origin n
  | n, .and f g | n, .or f g | n, .imp f g | n, .iff f g =>
    f.usedSkolems origin n ++ g.usedSkolems origin (n + f.existentials)
  | n, .ex x f =>
    (if x ∈ f.freeVars then [.skolem n x origin] else []) ++ f.usedSkolems origin (n + 1)

/-- What a free variable stands for gets into the Skolem form. -/
theorem exists_atom_of_mem_freeVars_skolemiseFrom {x : Ident} {f : Formula} (hx : x ∈ f.freeVars)
    (origin : Option Nat) (n : Nat) (us : List Term) (θ : Ident → Term) :
    ∃ a ∈ (f.skolemiseFrom origin n us θ).atoms, θ x ∈ a.args.flatMap Term.subterms := by
  induction f generalizing n us θ with
  | atom a =>
    obtain ⟨t, ht, hx⟩ := List.mem_flatMap.mp hx
    refine ⟨_, List.mem_singleton_self _, List.mem_flatMap.mpr ⟨t.subst θ, ?_, ?_⟩⟩
    · rw [Atom.args_subst]
      exact List.mem_map_of_mem ht
    · exact Term.mem_subterms_subst_of_mem_vars hx
  | not f ih => exact ih hx n us θ
  | and f g ihf ihg | or f g ihf ihg | imp f g ihf ihg | iff f g ihf ihg =>
    rcases List.mem_append.mp hx with hx | hx
    · obtain ⟨a, ha, h⟩ := ihf hx n us θ
      exact ⟨a, List.mem_append_left _ ha, h⟩
    · obtain ⟨a, ha, h⟩ := ihg hx (n + f.existentials) us θ
      exact ⟨a, List.mem_append_right _ ha, h⟩
  | all y f ih => exact ih (List.mem_filter.mp hx).1 n _ θ
  | ex y f ih =>
    obtain ⟨hx, hxy⟩ := List.mem_filter.mp hx
    have h := ih hx (n + 1) us fun z => if z = y then .app (.skolem n y origin) us else θ z
    rwa [if_neg (by simpa using hxy)] at h

/-- A Skolem symbol whose variable is used gets into the Skolem form. -/
theorem exists_atom_of_mem_usedSkolems {origin : Option Nat} {n : Nat} {f : Formula} {g : Ident}
    (hg : g ∈ f.usedSkolems origin n) (us : List Term) (θ : Ident → Term) :
    ∃ a ∈ (f.skolemiseFrom origin n us θ).atoms, ∃ ts,
      Term.app g ts ∈ a.args.flatMap Term.subterms := by
  induction f generalizing n us θ with
  | atom a => cases hg
  | not f ih | all x f ih => exact ih hg _ θ
  | and f h ihf ihh | or f h ihf ihh | imp f h ihf ihh | iff f h ihf ihh =>
    rcases List.mem_append.mp hg with hg | hg
    · obtain ⟨a, ha, h⟩ := ihf hg us θ
      exact ⟨a, List.mem_append_left _ ha, h⟩
    · obtain ⟨a, ha, h⟩ := ihh hg us θ
      exact ⟨a, List.mem_append_right _ ha, h⟩
  | ex x f ih =>
    rcases List.mem_append.mp hg with hg | hg
    · split at hg
      next hx =>
        obtain rfl := List.mem_singleton.mp hg
        obtain ⟨a, ha, h⟩ := exists_atom_of_mem_freeVars_skolemiseFrom hx origin (n + 1) us
          fun z => if z = x then .app (.skolem n x origin) us else θ z
        rw [if_pos rfl] at h
        exact ⟨a, ha, us, h⟩
      next => cases hg
    · exact ih hg us _

/-! ## Section 2: What a normal form is made of -/

variable {s : Names} {f : Formula}

/-- The variables that are handed out for a formula: those of its free variables, then those of its
    quantifiers. -/
def freshVariables (s : Names) (f : Formula) : List Ident :=
  (f.standardForm s).1.free ++ (f.standardForm s).1.result.bound

/-- The Skolem symbols that are handed out for a formula, with the variables they are applied to. -/
def freshTuples (s : Names) (f : Formula) : List (Ident × List Ident) :=
  (f.standardForm s).1.result.eliminate.nnf.skolemTuples (some s.sources.size)
    (f.standardForm s).2.next (f.standardForm s).1.free

theorem map_fst_freshTuples (s : Names) (f : Formula) :
    (f.freshTuples s).map Prod.fst = f.skolemSymbols s :=
  map_fst_skolemTuples _ _ _ _

theorem mem_freshVariables {x : Ident} (hx : x ∈ f.freshVariables s) :
    ∃ n y, x = .standard n y (some s.sources.size) ∧ s.next ≤ n ∧ n < (f.toCnf s).2.next := by
  rw [next_toCnf, next_standardForm]
  rcases List.mem_append.mp hx with hx | hx
  · obtain ⟨y, hy, rfl⟩ := List.mem_map.mp hx
    have hlt : s.next + (dedup f.freeVars).idxOf y < s.next + (dedup f.freeVars).length :=
      standardFree_below (some s.sources.size) s.next hy
    exact ⟨s.next + (dedup f.freeVars).idxOf y, y, rfl, Nat.le_add_right _ _, by omega⟩
  · obtain ⟨k, y, rfl, hk, hk'⟩ := mem_bound_standardiseFrom hx
    change s.next + (dedup f.freeVars).length ≤ k at hk
    change k < s.next + (dedup f.freeVars).length + f.quantifiers at hk'
    exact ⟨k, y, rfl, by omega, by omega⟩

theorem nodup_free_standardForm (s : Names) (f : Formula) : (f.standardForm s).1.free.Nodup := by
  have hdistinct : (dedup f.freeVars).Nodup :=
    (pairwise_dedup f.freeVars).imp fun h => ne_of_beq_false h
  -- a fresh variable carries the name that it stands for
  exact hdistinct.map fun x y hxy => (Ident.standard.inj hxy).2.1

theorem nodup_freshVariables (s : Names) (f : Formula) : (f.freshVariables s).Nodup := by
  have hs : (f.standardForm s).1.result.Separated (f.standardForm s).1.free :=
    separated_standardise
  refine List.nodup_append.mpr ⟨nodup_free_standardForm s f, hs.nodup, fun x hx y hy hxy => ?_⟩
  exact hs.fresh y hy (hxy ▸ hx)

/-- The Skolem symbols that are handed out for a variable that is used. -/
def usedSkolemSymbols (s : Names) (f : Formula) : List Ident :=
  (f.standardForm s).1.result.eliminate.nnf.usedSkolems (some s.sources.size)
    (f.standardForm s).2.next

/-- A Skolem symbol whose variable is used is in the normal form. -/
theorem exists_clause_of_mem_usedSkolemSymbols {g : Ident} (hg : g ∈ f.usedSkolemSymbols s) :
    ∃ c ∈ (f.toCnf s).1.clauses, ∃ l ∈ c.literals, ∃ ts,
      Term.app g ts ∈ l.atom.args.flatMap Term.subterms := by
  obtain ⟨a, ha, ts, hts⟩ := exists_atom_of_mem_usedSkolems hg
    ((f.standardForm s).1.free.map .var) .var
  rw [← atoms_dropUniversals] at ha
  obtain ⟨c, hc, l, hl, hla⟩ := exists_mem_clauses_of_mem_atoms
    (isConjunction_distribute (isMatrix_matrixAs _ _ _ _ _ _)) (mem_atoms_distribute_of_mem ha)
  -- of equal clauses one is kept, and it has an equal literal
  obtain ⟨k, hk, m, hm, hma⟩ : ∃ k ∈ (f.toCnf s).1.clauses, ∃ m ∈ k.literals,
      (m.atom == a) = true := by
    refine (exists_mem_dedup ?_ _).mpr ⟨c, hc, l, hl, hla⟩
    rintro k k' hkk' ⟨m', hm', hma⟩
    obtain ⟨m, hm, hmm'⟩ := (Clause.beq_iff.mp hkk').2 m' hm'
    exact ⟨m, hm, BEq.trans (BEq.symm (Literal.beq_iff.mp hmm').1) hma⟩
  refine ⟨k, hk, m, hm, ts, ?_⟩
  rcases Atom.beq_iff.mp hma with heq | ⟨u, v, heq, rfl⟩
  · rwa [heq]
  · rw [heq]
    simpa [Atom.args, or_comm] using hts

/-- The arguments of a Skolem symbol are different variables that are handed out for the formula. -/
theorem nodup_of_mem_freshTuples {e : Ident × List Ident} (he : e ∈ f.freshTuples s) :
    e.2.Nodup ∧ ∀ w ∈ e.2, w ∈ f.freshVariables s := by
  have hs : (f.standardForm s).1.result.Separated (f.standardForm s).1.free :=
    separated_standardise
  obtain ⟨hnodup, hmem⟩ := nodup_of_mem_skolemTuples (hs.wellScoped.eliminate.nnfAs true)
    (nodup_free_standardForm s f) (fun _ hw => hw) he
  refine ⟨hnodup, fun w hw => List.mem_append.mpr ?_⟩
  exact (hmem w hw).imp id fun h => bound_nnfAs_eliminate _ _ h

/-- The atoms of a normal form are atoms of the formula in which variables stand for variables that
    are handed out for it, and for Skolem symbols, each applied to its own tuple. -/
theorem mem_atoms_matrix_tuples {a : Atom} (ha : a ∈ (f.matrix s).atoms) :
    ∃ b ∈ f.atoms, ∃ τ : Ident → Term, a = b.subst τ ∧ ∀ y ∈ b.vars,
      (∃ x ∈ f.freshVariables s, τ y = .var x) ∨
        ∃ e ∈ f.freshTuples s, τ y = .app e.1 (e.2.map .var) := by
  have hs : (f.standardForm s).1.result.Separated (f.standardForm s).1.free :=
    separated_standardise
  rw [matrix, matrixAs, atoms_dropUniversals] at ha
  obtain ⟨c, hc, τ, rfl, hτ⟩ := mem_atoms_skolemiseFrom_tuples (.start _)
    (hs.wellScoped.eliminate.nnfAs true) ha
  obtain ⟨b, hb, ρ, rfl⟩ := mem_atoms_standardiseFrom (atoms_nnfAs_eliminate _ _ hc)
  refine ⟨b, hb, _, Atom.subst_subst _ _ b, fun y hy => ?_⟩
  have hy : ρ y ∈ (b.subst fun x => .var (ρ x)).vars :=
    Atom.mem_vars_subst.mpr ⟨y, hy, by simp [Term.vars]⟩
  refine (hτ (ρ y) hy).imp (fun h => ⟨ρ y, List.mem_append.mpr ?_, h.1⟩) id
  exact h.2.imp id fun h => bound_nnfAs_eliminate _ _ h

theorem names_of_mem_atoms {a : Atom} (ha : a ∈ f.atoms) {i : Ident} (hi : i ∈ a.names) :
    i ∈ f.names := by
  induction f with
  | atom b => exact List.mem_singleton.mp ha ▸ hi
  | not f ih => exact ih ha
  | and f g ihf ihg | or f g ihf ihg | imp f g ihf ihg | iff f g ihf ihg =>
    exact List.mem_append.mpr ((List.mem_append.mp ha).imp ihf ihg)
  | all x f ih | ex x f ih => exact List.mem_cons_of_mem _ (ih ha)

end Formula

/-! ## Section 3: One call -/

/-- All names in a clause. -/
def Clause.names (c : Clause) : List Ident :=
  c.literals.flatMap fun l => l.atom.names

/-- All terms in a clause, with the terms inside them. -/
def Clause.subterms (c : Clause) : List Term :=
  c.literals.flatMap fun l => l.atom.args.flatMap Term.subterms

/-- A formula whose normal form is made, with the supply of names at that time. -/
structure NormalCall where
  supply : Names
  input : Formula

namespace NormalCall

variable (c : NormalCall)

/-- The normal form. -/
def result : Cnf :=
  (c.input.toCnf c.supply).1

/-- The supply of names afterwards. -/
def after : Names :=
  (c.input.toCnf c.supply).2

/-- The variables that the call introduces. -/
def freshVars : List Ident :=
  c.input.freshVariables c.supply

/-- The Skolem symbols that the call introduces. -/
def skolems : List Ident :=
  c.input.skolemSymbols c.supply

/-- Those of them that stand for a variable that is used. -/
def usedSkolems : List Ident :=
  c.input.usedSkolemSymbols c.supply

/-- All names that the call introduces. -/
def introduced : List Ident :=
  c.freshVars ++ c.skolems

/-- All names in the result. -/
def resultNames : List Ident :=
  c.result.clauses.flatMap Clause.names

/-- All names in the input have been handed out before, as far as they are fresh names. -/
def Issued : Prop :=
  ∀ i ∈ c.input.names, i.Below c.supply.next

/-- What is to be expected of a call: nothing that is looked for is missing on the way; there are
    clauses, which are not empty; the variables in them are introduced by the call; and each Skolem
    symbol that the call introduces always stands before the same variables, which are different
    from each other and introduced by the call.  It does stand somewhere if its variable is used. -/
structure WellShaped : Prop where
  total : c.input.toCnfScoped? c.supply = some (c.result, c.after)
  clauses : c.result.clauses ≠ []
  literals : ∀ k ∈ c.result.clauses, k.literals ≠ []
  vars : ∀ k ∈ c.result.clauses, ∀ x ∈ k.vars, x ∈ c.freshVars
  tuples : ∀ g ∈ c.skolems, ∃ ws : List Ident, ws.Nodup ∧ (∀ w ∈ ws, w ∈ c.freshVars) ∧
    ∀ k ∈ c.result.clauses, ∀ ts, Term.app g ts ∈ k.subterms → ts = ws.map .var
  occurs : ∀ g ∈ c.usedSkolems, ∃ k ∈ c.result.clauses, ∃ ts, Term.app g ts ∈ k.subterms

variable {c}

theorem mem_freshVars {x : Ident} (hx : x ∈ c.freshVars) : ∃ n y,
    x = .standard n y (some c.supply.sources.size) ∧ c.supply.next ≤ n ∧ n < c.after.next :=
  Formula.mem_freshVariables hx

theorem mem_skolems {g : Ident} (hg : g ∈ c.skolems) : ∃ n x,
    g = .skolem n x (some c.supply.sources.size) ∧ c.supply.next ≤ n ∧ n < c.after.next := by
  obtain ⟨n, x, rfl, hn, hn'⟩ := Formula.mem_skolems hg
  rw [Formula.next_standardForm] at hn
  exact ⟨n, x, rfl, by omega, hn'⟩

/-- What a call introduces was not there before, and is there afterwards. -/
theorem below_of_mem_introduced {i : Ident} (hi : i ∈ c.introduced) :
    ¬ i.Below c.supply.next ∧ i.Below c.after.next := by
  rcases List.mem_append.mp hi with hi | hi
  · obtain ⟨n, y, rfl, hn, hn'⟩ := mem_freshVars hi
    exact ⟨Nat.not_lt.mpr hn, hn'⟩
  · obtain ⟨n, y, rfl, hn, hn'⟩ := mem_skolems hi
    exact ⟨Nat.not_lt.mpr hn, hn'⟩

private theorem nodup_introduced (c : NormalCall) : c.introduced.Nodup := by
  refine List.nodup_append.mpr
    ⟨Formula.nodup_freshVariables _ _, Formula.nodup_skolems _ _ _, fun x hx g hg hxg => ?_⟩
  obtain ⟨n, y, rfl, -⟩ := mem_freshVars hx
  obtain ⟨m, z, rfl, -⟩ := mem_skolems hg
  cases hxg

/-- What the atoms of the result are made of. -/
theorem atom_of_mem {k : Clause} (hk : k ∈ c.result.clauses) {l : Literal} (hl : l ∈ k.literals) :
    ∃ b ∈ c.input.atoms, ∃ τ : Ident → Term, l.atom = b.subst τ ∧ ∀ y ∈ b.vars,
      (∃ x ∈ c.freshVars, τ y = .var x) ∨
        ∃ e ∈ c.input.freshTuples c.supply, τ y = .app e.1 (e.2.map .var) :=
  Formula.mem_atoms_matrix_tuples (Formula.atom_mem_atoms_matrix hk hl)

private theorem mem_freshVars_of_mem_vars {k : Clause} (hk : k ∈ c.result.clauses) {x : Ident}
    (hx : x ∈ k.vars) : x ∈ c.freshVars := by
  obtain ⟨l, hl, hx⟩ := Clause.mem_vars.mp hx
  obtain ⟨b, -, τ, hb, hτ⟩ := atom_of_mem hk hl
  rw [Literal.vars, hb] at hx
  obtain ⟨y, hy, hx⟩ := Atom.mem_vars_subst.mp hx
  rcases hτ y hy with ⟨z, hz, heq⟩ | ⟨e, he, heq⟩
  · rw [heq] at hx
    exact List.mem_singleton.mp hx ▸ hz
  · rw [heq, Term.vars_app, List.mem_flatMap] at hx
    obtain ⟨t, ht, hx⟩ := hx
    obtain ⟨w, hw, rfl⟩ := List.mem_map.mp ht
    exact (Formula.nodup_of_mem_freshTuples he).2 x (List.mem_singleton.mp hx ▸ hw)

/-- The names in the result are names of the input and names that the call introduces. -/
theorem mem_names_result {i : Ident} (hi : i ∈ c.resultNames) :
    i ∈ c.input.names ∨ i ∈ c.introduced := by
  obtain ⟨k, hk, hi⟩ := List.mem_flatMap.mp hi
  obtain ⟨l, hl, hi⟩ := List.mem_flatMap.mp hi
  obtain ⟨b, hb, τ, heq, hτ⟩ := atom_of_mem hk hl
  rw [heq] at hi
  rcases Atom.mem_names_subst hi with hi | ⟨y, hy, hi⟩
  · exact Or.inl (Formula.names_of_mem_atoms hb hi)
  · refine Or.inr ?_
    rcases hτ y hy with ⟨z, hz, heq⟩ | ⟨e, he, heq⟩
    · rw [heq] at hi
      exact List.mem_append_left _ (List.mem_singleton.mp hi ▸ hz)
    · rw [heq, Term.names, List.mem_cons, Term.mem_namesList] at hi
      rcases hi with rfl | ⟨t, ht, hi⟩
      · refine List.mem_append_right _ ?_
        rw [skolems, ← Formula.map_fst_freshTuples]
        exact List.mem_map_of_mem he
      · obtain ⟨w, hw, rfl⟩ := List.mem_map.mp ht
        refine List.mem_append_left _ ?_
        exact (Formula.nodup_of_mem_freshTuples he).2 i (List.mem_singleton.mp hi ▸ hw)

/-- A Skolem symbol that the call introduces always stands before its own tuple. -/
theorem app_mem_subterms (hc : c.Issued) {k : Clause} (hk : k ∈ c.result.clauses) {g : Ident}
    (hg : g ∈ c.skolems) {ts : List Term} (h : Term.app g ts ∈ k.subterms) :
    ∃ e ∈ c.input.freshTuples c.supply, e.1 = g ∧ ts = e.2.map .var := by
  obtain ⟨l, hl, h⟩ := List.mem_flatMap.mp h
  obtain ⟨t, ht, h⟩ := List.mem_flatMap.mp h
  obtain ⟨b, hb, τ, heq, hτ⟩ := atom_of_mem hk hl
  rw [heq, Atom.args_subst] at ht
  obtain ⟨u, hu, rfl⟩ := List.mem_map.mp ht
  rcases Term.app_mem_subterms_subst h with hgu | ⟨y, hy, h⟩
  · -- the symbol is too new for the input
    have hname : g ∈ c.input.names :=
      Formula.names_of_mem_atoms hb (List.mem_cons_of_mem _ (Term.mem_namesList.mpr ⟨u, hu, hgu⟩))
    have hnew := below_of_mem_introduced (List.mem_append_right _ hg)
    exact absurd (hc g hname) hnew.1
  · rcases hτ y (List.mem_flatMap.mpr ⟨u, hu, hy⟩) with ⟨x, -, heq⟩ | ⟨e, he, heq⟩
    · rw [heq] at h
      simp [Term.subterms] at h
    · rw [heq, Term.subterms, List.mem_cons, Term.subtermsList_eq_flatMap] at h
      rcases h with h | h
      · obtain ⟨hge, hts⟩ := Term.app.inj h
        exact ⟨e, he, hge.symm, hts⟩
      · obtain ⟨_, hv, h⟩ := List.mem_flatMap.mp h
        obtain ⟨w, -, rfl⟩ := List.mem_map.mp hv
        simp [Term.subterms] at h

theorem wellShaped (hc : c.Issued) : c.WellShaped where
  total := Formula.toCnfScoped?_eq _ _
  clauses := (Formula.toCnf_ne_nil _ _).1
  literals := (Formula.toCnf_ne_nil _ _).2
  vars _ hk _ := mem_freshVars_of_mem_vars hk
  tuples g hg := by
    have hnodup : ((c.input.freshTuples c.supply).map Prod.fst).Nodup := by
      rw [Formula.map_fst_freshTuples]
      exact Formula.nodup_skolems _ _ _
    obtain ⟨e, he, rfl⟩ : ∃ e ∈ c.input.freshTuples c.supply, e.1 = g := by
      rw [skolems, ← Formula.map_fst_freshTuples] at hg
      exact List.mem_map.mp hg
    obtain ⟨hdistinct, hvars⟩ := Formula.nodup_of_mem_freshTuples he
    refine ⟨e.2, hdistinct, hvars, fun k hk ts h => ?_⟩
    obtain ⟨e', he', heq, rfl⟩ := app_mem_subterms hc hk hg h
    -- no symbol is handed out twice, so there is one tuple for it
    rw [List.inj_on_of_nodup_map hnodup he' he heq]
  occurs g hg := by
    obtain ⟨k, hk, l, hl, ts, h⟩ := Formula.exists_clause_of_mem_usedSkolemSymbols hg
    exact ⟨k, hk, ts, List.mem_flatMap.mpr ⟨l, hl, h⟩⟩

end NormalCall

/-! ## Section 4: Calls one after the other -/

namespace NormalCall

/-- The second call is made with what the first one has left of the supply, or with less. -/
def Before (c d : NormalCall) : Prop :=
  c.after.next ≤ d.supply.next

instance : Trans Before Before Before where
  trans {_ d _} hcd hde :=
    Nat.le_trans hcd (Nat.le_trans (d.input.next_le_next_toCnf d.supply) hde)

variable {c d : NormalCall} {i : Ident}

private theorem not_mem_input_of_mem_introduced (hc : c.Issued) (hi : i ∈ c.introduced) :
    i ∉ c.input.names :=
  fun h => (below_of_mem_introduced hi).1 (hc i h)

/-- All names in a result have been handed out by then. -/
theorem below_of_mem_resultNames (hc : c.Issued) (hi : i ∈ c.resultNames) :
    i.Below c.after.next := by
  rcases mem_names_result hi with hi | hi
  · exact (hc i hi).mono (c.input.next_le_next_toCnf c.supply)
  · exact (below_of_mem_introduced hi).2

/-- A later call introduces nothing that an earlier one has to do with. -/
theorem Before.fresh (h : c.Before d) (hc : c.Issued) (hi : i ∈ d.introduced) :
    i ∉ c.introduced ∧ i ∉ c.input.names ∧ i ∉ c.resultNames := by
  have hnew : ¬ i.Below c.after.next := fun hi' => (below_of_mem_introduced hi).1 (hi'.mono h)
  refine ⟨fun hi' => hnew (below_of_mem_introduced hi').2, fun hi' => hnew ?_,
    fun hi' => hnew (below_of_mem_resultNames hc hi')⟩
  exact (hc i hi').mono (c.input.next_le_next_toCnf c.supply)

/-- What an earlier call has introduced gets into a later result through the input only. -/
theorem Before.mem_input (h : c.Before d) (hi : i ∈ c.introduced) (hd : i ∈ d.resultNames) :
    i ∈ d.input.names := by
  refine (mem_names_result hd).resolve_right fun hi' => ?_
  exact (below_of_mem_introduced hi').1 ((below_of_mem_introduced hi).2.mono h)

end NormalCall

/-- Normal forms that are made one after the other, each of a formula whose names have been handed
    out before, are well shaped.  A call introduces names that are different from each other and not
    in its input, and not in any earlier input or result; what an earlier call has introduced gets
    into a later result through the input only.  So if all formulas were there before the first
    call, no introduced name is in any input or in the result of another call. -/
theorem normal_forms_fresh {cs : List NormalCall} (hcs : cs.IsChain NormalCall.Before)
    (hissued : ∀ c ∈ cs, c.Issued) :
    (∀ c ∈ cs, c.WellShaped ∧ c.introduced.Nodup ∧ (∀ i ∈ c.introduced, i ∉ c.input.names) ∧
      (∀ x ∈ c.freshVars, ∃ n y, x = .standard n y (some c.supply.sources.size) ∧
        c.supply.next ≤ n ∧ n < c.after.next) ∧
      ∀ g ∈ c.skolems, ∃ n x, g = .skolem n x (some c.supply.sources.size) ∧
        c.supply.next ≤ n ∧ n < c.after.next) ∧
    (cs.Pairwise fun c d =>
      (∀ i ∈ d.introduced, i ∉ c.introduced ∧ i ∉ c.input.names ∧ i ∉ c.resultNames) ∧
      ∀ i ∈ c.introduced, i ∈ d.resultNames → i ∈ d.input.names) ∧
    ((∀ c ∈ cs, ∀ d ∈ cs, ∀ i ∈ d.input.names, i.Below c.supply.next) →
      (∀ c ∈ cs, ∀ d ∈ cs, ∀ i ∈ c.introduced, i ∉ d.input.names) ∧
      cs.Pairwise fun c d => (∀ i ∈ c.introduced, i ∉ d.resultNames) ∧
        ∀ i ∈ d.introduced, i ∉ c.resultNames) := by
  have hpairs := hcs.pairwise
  refine ⟨fun c hc => ⟨NormalCall.wellShaped (hissued c hc), c.nodup_introduced,
    fun i => NormalCall.not_mem_input_of_mem_introduced (hissued c hc),
    fun x => NormalCall.mem_freshVars, fun g => NormalCall.mem_skolems⟩, ?_, fun hfirst => ?_⟩
  · exact hpairs.imp_of_mem fun hc _ h =>
      ⟨fun i => h.fresh (hissued _ hc), fun i => h.mem_input⟩
  · have hinputs : ∀ c ∈ cs, ∀ d ∈ cs, ∀ i ∈ c.introduced, i ∉ d.input.names :=
      fun c hc d hd i hi h => (NormalCall.below_of_mem_introduced hi).1 (hfirst c hc d hd i h)
    refine ⟨hinputs, hpairs.imp_of_mem fun hc hd h => ⟨fun i hi hd' => ?_, fun i hi => ?_⟩⟩
    · exact hinputs _ hc _ hd i hi (h.mem_input hi hd')
    · exact (h.fresh (hissued _ hc) hi).2.2

/-- The normal form of one formula, made twice: a free variable, and quantifiers on both sides of an
    equivalence. -/
theorem normal_forms_fresh_twice :
    let c : NormalCall := ⟨{}, allIffSome⟩
    let d : NormalCall := ⟨c.after, allIffSome⟩
    c.freshVars.length = 3 ∧ c.skolems.length = 2 ∧ c.usedSkolems = c.skolems ∧ c.WellShaped ∧
      d.WellShaped ∧
      (∀ i ∈ c.introduced, i ∉ d.input.names ∧ i ∉ d.resultNames) ∧
      ∀ i ∈ d.introduced, i ∉ c.input.names ∧ i ∉ c.resultNames := by
  intro c d
  have hnames : ∀ i ∈ allIffSome.names, i.Below 0 := by decide
  have hinput : ∀ e ∈ [c, d], e.input = allIffSome :=
    List.forall_mem_cons.mpr ⟨rfl, List.forall_mem_singleton.mpr rfl⟩
  have hissued : ∀ e ∈ [c, d], ∀ e' ∈ [c, d], ∀ i ∈ e'.input.names, i.Below e.supply.next := by
    intro e _ e' he' i hi
    rw [hinput e' he'] at hi
    exact (hnames i hi).mono (Nat.zero_le _)
  have hchain : [c, d].IsChain NormalCall.Before := .cons_cons (Nat.le_refl _) (.singleton d)
  obtain ⟨hcalls, -, hfirst⟩ := normal_forms_fresh hchain fun e he => hissued e he e he
  obtain ⟨hc, hd⟩ := List.forall_mem_cons.mp hcalls
  obtain ⟨hinputs, hresults⟩ := hfirst hissued
  obtain ⟨hcd, hdc⟩ := List.rel_of_pairwise_cons hresults (List.mem_singleton_self d)
  exact ⟨by decide, by decide, by decide, hc.1, (hd d (List.mem_singleton_self d)).1,
    fun i hi => ⟨hinputs c (by simp) d (by simp) i hi, hcd i hi⟩,
    fun i hi => ⟨hinputs d (by simp) c (by simp) i hi, hdc i hi⟩⟩

/-- Something exists, and something is the case that has nothing to do with it. -/
def idleQuantifier : Formula :=
  .ex (.num 0) (.atom (.pred (.num 1) []))

/-- The Skolem symbol of a quantifier that binds nothing is nowhere in the normal form; and a symbol
    that one call introduces is in the input and in the result of a later one if somebody has put it
    there. -/
theorem normal_forms_lose_and_share_skolems :
    (let c : NormalCall := ⟨{}, idleQuantifier⟩
      ∃ g ∈ c.skolems, ∀ k ∈ c.result.clauses, ∀ ts, Term.app g ts ∉ k.subterms) ∧
    let c : NormalCall := ⟨{}, somethingHas⟩
    let d : NormalCall := ⟨c.after, namedHas⟩
    c.Before d ∧ c.Issued ∧ d.Issued ∧
      ∃ g ∈ c.introduced, g ∈ d.input.names ∧ g ∈ d.resultNames := by
  refine ⟨⟨_, List.mem_singleton_self _, fun k hk ts h => ?_⟩, Nat.le_refl _, ?_, ?_, ?_⟩
  · obtain rfl := List.mem_singleton.mp hk
    cases h
  · exact (by decide : ∀ i ∈ somethingHas.names, i.Below 0)
  · exact (by decide : ∀ i ∈ namedHas.names, i.Below 2)
  · exact ⟨.skolem 1 (.standard 0 (.num 0) (some 0)) (some 0), by decide⟩

end Clausal
