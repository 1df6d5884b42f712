import Clausal.Proofs.Ancestry
import Clausal.Proofs.Chaining.Record

/-!
# What led to an answer

Forward chaining explains a positive answer by the recorded facts that the inference of the answer
rests on, directly or through others, oldest first.  An inference notes copies of the facts that it
rests on, and what led to the answer is traced through the copies: a copy is looked up in the record
as it stands.  A fact without variables is its own copy; such facts are all listed, each before what
was inferred from it.  A copy of an inferred fact with variables is not found in the record, and the
fact and what led to it are then missing from the explanation.

If all clauses are range restricted, then no fact has variables, and nothing is missing.

## Main definitions

- `ForwardQuery.sources`: the copies that a recorded fact was inferred from
- `ForwardQuery.trail`: the recorded facts that led to one of them

## Main statements

- `ForwardQuery.isInferred_known_iff`: the copies that are found in the record
- `ForwardQuery.ordered`: they are found before what was inferred from them
- `forward_explanation_traced`: what is listed, in what order, and what is missing
-/

namespace Clausal

namespace ForwardQuery

/-! ## Section 1: Tracing copies -/

/-- The copies that a recorded fact was inferred from. -/
def sources (q : ForwardQuery) (a : Atom) : Option (List Atom) :=
  (findKey a q.proof).map Inference.known

theorem isSome_sources (q : ForwardQuery) (a : Atom) : (q.sources a).isSome = q.isInferred a := by
  rw [sources, Option.isSome_map, isInferred]

theorem inferredParents_eq (q : ForwardQuery) : q.inferredParents = derivedFrom q.sources := by
  funext a
  unfold inferredParents derivedFrom
  rw [funext q.isSome_sources, sources]
  cases findKey a q.proof <;> rfl

theorem isInferred_iff {q : ForwardQuery} {k : Atom} :
    q.isInferred k = true ↔ ∃ b ∈ q.keys, (b == k) = true := by
  rw [isInferred, findKey, Option.isSome_map, List.find?_isSome]
  simp [keys]

section InferenceRecord

variable {t : ClauseStore} {q : ForwardQuery} {a k : Atom} {i : Inference}
  {l l' : List (Atom × Inference)}

/-- An entry is found under its fact. -/
theorem findKey_eq_some (h : InferenceRecord t q.proof) (hsplit : q.proof = l ++ (a, i) :: l') :
    findKey a q.proof = some i := by
  have hmem : (a, i) ∈ q.proof := by simp [hsplit]
  obtain ⟨j, hj⟩ : ∃ j, findKey a q.proof = some j :=
    Option.isSome_iff_exists.mp (isInferred_iff.mpr ⟨a, List.mem_map_of_mem hmem, BEq.rfl⟩)
  obtain ⟨b, hb, hbeq⟩ := exists_mem_of_findKey hj
  have hkey : b = a := h.distinct.eq_of_beq (List.mem_map_of_mem hb) (List.mem_map_of_mem hmem) hbeq
  have hentry := List.inj_on_of_nodup_map h.distinct.nodup hb hmem hkey
  rw [hj, (Prod.mk.inj hentry).2]

/-- Of the copies that an inference rests on, those are found in the record that have no variables
    and are copies of inferred facts. -/
theorem isInferred_known_iff (h : InferenceRecord t q.proof) (hsplit : q.proof = l ++ (a, i) :: l')
    (hk : k ∈ i.known) :
    q.isInferred k = true ↔ k.vars = [] ∧ ∃ b ∈ l.map Prod.fst, b.RenamesTo k := by
  constructor
  · intro hinferred
    obtain ⟨b, hb, hbeq⟩ := isInferred_iff.mp hinferred
    obtain ⟨hvars, hmem, -⟩ := h.mem_of_beq_known hsplit hk hb hbeq
    exact ⟨hvars, k, hmem, .refl k⟩
  · rintro ⟨hvars, b, hb, hcopy⟩
    obtain rfl := hcopy.eq_of_vars_eq_nil hvars
    refine isInferred_iff.mpr ⟨b, ?_, BEq.rfl⟩
    rw [keys, hsplit, List.map_append]
    exact List.mem_append_left _ hb

/-- What is found for a copy stands in the record before what was inferred from the copy. -/
theorem ordered (h : InferenceRecord t q.proof) : Ordered q.sources q.keys where
  distinct := h.distinct
  congr a b hab := by rw [sources, findKey_congr hab, sources]
  derived a := by rw [isSome_sources, isInferred_iff]
  earlier a k hk := by
    obtain ⟨hparent, hinferred⟩ := List.mem_filter.mp hk
    rw [isSome_sources] at hinferred
    obtain ⟨c, hc, hck⟩ := isInferred_iff.mp hinferred
    cases hfind : findKey a q.proof with
    | none => simp [sources, hfind] at hparent
    | some i =>
      obtain ⟨b, hb, hba⟩ := exists_mem_of_findKey hfind
      obtain ⟨l, l', hsplit⟩ := List.append_of_mem hb
      have hknown : k ∈ i.known := by simpa [sources, hfind] using hparent
      refine ⟨l.map Prod.fst, b, l'.map Prod.fst, ?_, hba,
        (h.mem_of_beq_known hsplit hknown hc hck).2.1⟩
      rw [keys, hsplit, List.map_append, List.map_cons]

/-! ## Section 2: What is listed -/

/-- The recorded facts that led to one of them. -/
def trail (q : ForwardQuery) (a : Atom) : List Atom :=
  ancestry (derivedFrom q.sources) q.keys.length [a]

private theorem useful_eq_nil (hresult : q.result = some true) (hproof : q.proof = []) :
    q.useful = .ok [] := by
  have hnone : q.proven.toList.filter q.isInferred = [] :=
    List.filter_eq_nil_iff.mpr fun a _ => by simp [isInferred, hproof, findKey]
  unfold useful
  rw [hresult, hnone, hproof]
  rfl

private theorem useful_eq_trail (hresult : q.result = some true) (hproven : q.proven = some a)
    (ha : a ∈ q.keys) : q.useful = .ok (q.trail a) := by
  have hone : q.proven.toList.filter q.isInferred = [a] := by
    rw [hproven, Option.toList_some,
      List.filter_cons_of_pos (isInferred_iff.mpr ⟨a, ha, BEq.rfl⟩), List.filter_nil]
  unfold useful
  rw [hresult, hone, inferredParents_eq, trail, keys, List.length_map]
  rfl

/-- Where a listed fact was inferred, a copy is listed before it if it is found in the record. -/
theorem mem_of_trail_eq_append (h : InferenceRecord t q.proof) (ha : a ∈ q.keys) {m m' : List Atom}
    {p : Atom} (htrail : q.trail a = m ++ p :: m') (hfind : findKey p q.proof = some i)
    (hk : k ∈ i.known) (hinferred : q.isInferred k = true) : k ∈ m := by
  refine (ordered h).mem_of_ancestry_eq_append ha htrail (List.mem_filter.mpr ⟨?_, ?_⟩)
  · simpa [sources, hfind] using hk
  · rwa [isSome_sources]

private theorem isInferred_of_contains_trail (h : InferenceRecord t q.proof) (ha : a ∈ q.keys)
    (hk : (q.trail a).contains k = true) : q.isInferred k = true := by
  obtain ⟨b, hb, hbeq⟩ := List.contains_iff_exists_mem_beq.mp hk
  exact isInferred_iff.mpr ⟨b, (ordered h).mem_of_mem_ancestry ha hb, BEq.symm hbeq⟩

/-- What a listed fact was inferred from: copies of given facts, which are not listed, and copies of
    inferred facts, which are listed before it if they have no variables, and not at all if they
    have. -/
theorem exists_entry_of_trail_eq_append (h : InferenceRecord t q.proof) (ha : a ∈ q.keys)
    {m m' : List Atom} {p : Atom} (htrail : q.trail a = m ++ p :: m') :
    ∃ l i l', q.proof = l ++ (p, i) :: l' ∧ findKey p q.proof = some i ∧ i.conclusion = p ∧
      ∀ k ∈ i.known, (∃ f ∈ t.facts, f.RenamesTo k) ∧ (q.trail a).contains k = false ∨
        (∃ b ∈ l.map Prod.fst, b.RenamesTo k) ∧ (k.vars = [] → k ∈ m) ∧
          (k.vars ≠ [] → (q.trail a).contains k = false) := by
  have hp : p ∈ q.keys := by
    refine (ordered h).mem_of_mem_ancestry ha (show p ∈ q.trail a from ?_)
    simp [htrail]
  obtain ⟨⟨p, i⟩, he, rfl⟩ := List.mem_map.mp hp
  obtain ⟨l, l', hsplit⟩ := List.append_of_mem he
  have hfind := findKey_eq_some h hsplit
  obtain ⟨hconclusion, hrests, -⟩ := h.of_eq_append hsplit
  refine ⟨l, i, l', hsplit, hfind, hconclusion, fun k hk => ?_⟩
  rcases hrests.known k hk with ⟨f, hf, hcopy⟩ | ⟨b, hb, hcopy, -⟩
  · refine Or.inl ⟨⟨f, hf, hcopy⟩, Bool.eq_false_iff.mpr fun hlisted => ?_⟩
    obtain ⟨c, hc, hck⟩ := isInferred_iff.mp (isInferred_of_contains_trail h ha hlisted)
    exact (h.mem_of_beq_known hsplit hk hc hck).2.2 f hf hcopy
  · refine Or.inr ⟨⟨b, hb, hcopy⟩, fun hvars => ?_, fun hvars => ?_⟩
    · exact mem_of_trail_eq_append h ha htrail hfind hk
        ((isInferred_known_iff h hsplit hk).mpr ⟨hvars, b, hb, hcopy⟩)
    · refine Bool.eq_false_iff.mpr fun hlisted => hvars ?_
      exact ((isInferred_known_iff h hsplit hk).mp (isInferred_of_contains_trail h ha hlisted)).1

end InferenceRecord

end ForwardQuery

/-- A positive answer is traced back through the copies of facts that inferences rest on.  The
    traversal comes to its end with the listed facts, each of them once; the answer comes last, and
    nothing is listed if the answer is a copy of a given fact.  A listed fact was inferred from
    copies of given facts and of facts that were inferred before it.  Those of the latter that have
    no variables are listed before it; those that have are not listed.  If all clauses are range
    restricted, then whatever a listed fact was inferred from is a copy of a given fact or of one
    that is listed before it. -/
theorem forward_explanation_traced (t : ClauseStore) (goal : Atom) (n : Nat) (s s' : Names)
    (q : ForwardQuery) (h : (ForwardQuery.start t goal).execute n s = (.ok true, q, s')) :
    ∃ a ds, q.proven = some a ∧ q.useful = .ok ds ∧
      (∀ out, Traverses q.sources [a] [] out ↔ out = ds) ∧ Distinct ds ∧
      ((∃ f ∈ t.facts, f.RenamesTo a) ∧ ds = [] ∨ ∃ m, ds = m ++ [a]) ∧
      (∀ m p m', ds = m ++ p :: m' → ∃ l i l', q.proof = l ++ (p, i) :: l' ∧
        findKey p q.proof = some i ∧ i.conclusion = p ∧
        ∀ k ∈ i.known, (∃ f ∈ t.facts, f.RenamesTo k) ∧ ds.contains k = false ∨
          (∃ b ∈ l.map Prod.fst, b.RenamesTo k) ∧ (k.vars = [] → k ∈ m) ∧
            (k.vars ≠ [] → ds.contains k = false)) ∧
      ((∀ c ∈ t.toList, c.RangeRestricted) → ∀ m p m', ds = m ++ p :: m' →
        ∀ i, findKey p q.proof = some i → ∀ k ∈ i.known,
          (∃ f ∈ t.facts, f.RenamesTo k) ∨ ∃ b ∈ m, b.RenamesTo k) := by
  obtain ⟨htracked, hresult⟩ := ForwardQuery.tracked_of_execute h
  have hrecord := htracked.kept.record
  obtain ⟨a, hproven, ⟨hcopy, hproof⟩ | ha⟩ := htracked.answered hresult
  · -- nothing was inferred, so the traversal ends at once
    have hproof : q.proof = [] := hproof
    have hnone : q.sources a = none := by simp [ForwardQuery.sources, hproof, findKey]
    have htraverses : Traverses q.sources [a] [] [] := .given hnone .done
    refine ⟨a, [], hproven, ForwardQuery.useful_eq_nil hresult hproof, fun out => ?_, .nil,
      Or.inl ⟨hcopy, rfl⟩, by simp, by simp⟩
    exact ⟨fun hout => hout.unique htraverses, fun hout => hout ▸ htraverses⟩
  · have htraverses := (ForwardQuery.ordered hrecord).traverses ha
    refine ⟨a, q.trail a, hproven, ForwardQuery.useful_eq_trail hresult hproven ha, fun out =>
      ⟨fun hout => hout.unique htraverses, fun hout => hout ▸ htraverses⟩, pairwise_dedup _,
      Or.inr ((ForwardQuery.ordered hrecord).exists_ancestry_eq_append _ a),
      fun m p m' hsplit => ForwardQuery.exists_entry_of_trail_eq_append hrecord ha hsplit,
      fun ht m p m' hsplit i hi k hk => ?_⟩
    obtain ⟨l, j, l', hentry, hj, -, hknown⟩ :=
      ForwardQuery.exists_entry_of_trail_eq_append hrecord ha hsplit
    obtain rfl := Option.some.inj (hi.symm.trans hj)
    refine (hknown k hk).imp And.left ?_
    rintro ⟨⟨b, hb, hcopy⟩, hlisted, -⟩
    -- the fact has no variables, so neither has its copy
    have hground : b.vars = [] := by
      refine hrecord.vars_eq_nil ht b ?_
      rw [hentry, List.map_append]
      exact List.mem_append_left _ hb
    refine ⟨k, hlisted ?_, .refl k⟩
    obtain ⟨ρ, -, rfl⟩ := hcopy
    rwa [Atom.subst_of_vars_eq_nil hground]

/-- Something has the first of three properties, each of which implies the next. -/
def properties (t : Term) : ClauseStore :=
  .ofList [.ofAtom (.pred (.num 0) [t]),
    ⟨.ofList [⟨false, .pred (.num 0) [.var (.num 5)]⟩, ⟨true, .pred (.num 1) [.var (.num 5)]⟩]
      .rule, by decide⟩,
    ⟨.ofList [⟨false, .pred (.num 1) [.var (.num 5)]⟩, ⟨true, .pred (.num 2) [.var (.num 5)]⟩]
      .rule, by decide⟩]

/-- The question whether a thing has the third property, and the answer. -/
def thirdProperty (t : ClauseStore) : Except QueryError Bool × ForwardQuery × Names :=
  (ForwardQuery.start t (.pred (.num 2) [.const (.num 6)])).execute 9 {}

theorem forward_explanation_traced_properties :
    ∃ q s' ds, thirdProperty (properties (.const (.num 6))) = (.ok true, q, s') ∧
      (∀ c ∈ (properties (.const (.num 6))).toList, c.RangeRestricted) ∧
      q.useful = .ok ds ∧ ds.length = 2 ∧ ∀ m p m', ds = m ++ p :: m' →
        ∀ i, findKey p q.proof = some i → ∀ k ∈ i.known,
          (∃ f ∈ (properties (.const (.num 6))).facts, f.RenamesTo k) ∨
            ∃ b ∈ m, b.RenamesTo k := by
  have hrange : ∀ c ∈ (properties (.const (.num 6))).toList, c.RangeRestricted := by decide
  have hanswer : (thirdProperty (properties (.const (.num 6)))).1 = .ok true := by decide +kernel
  have hlength : (thirdProperty (properties (.const (.num 6)))).2.1.useful.toOption.map
      List.length = some 2 := by decide +kernel
  rcases hrun : thirdProperty (properties (.const (.num 6))) with ⟨r, q, s'⟩
  rw [hrun] at hanswer hlength
  obtain rfl : r = .ok true := hanswer
  obtain ⟨a, ds, -, hds, -, -, -, -, hknown⟩ := forward_explanation_traced _ _ _ _ _ _ hrun
  rw [hds] at hlength
  exact ⟨q, s', ds, rfl, hrange, hds, Option.some.inj hlength, hknown hrange⟩

/-- If everything has the first property, then everything is found to have the second.  The third
    one is inferred from a copy of this, and what it is a copy of is neither given nor listed. -/
theorem forward_explanation_omits_fact :
    let t := properties (.var (.num 7))
    let q := (thirdProperty t).2.1
    (thirdProperty t).1 = .ok true ∧ ∃ ds, q.useful = .ok ds ∧ ∃ p ∈ ds, ∃ i,
      findKey p q.proof = some i ∧ ∃ k ∈ i.known,
        (∀ f ∈ t.facts, ¬ f.RenamesTo k) ∧ ∀ b ∈ ds, ¬ b.RenamesTo k := by
  intro t q
  have hlisted : ∃ p ∈ q.useful.toOption.getD [], ∃ i ∈ (findKey p q.proof).toList,
      ∃ k ∈ i.known, (∀ f ∈ t.facts, f.symbol ≠ k.symbol) ∧
        ∀ b ∈ q.useful.toOption.getD [], b.symbol ≠ k.symbol := by decide +kernel
  obtain ⟨p, hp, i, hi, k, hk, hgiven, hmissing⟩ := hlisted
  cases hds : q.useful with
  | error e => simp [hds, Except.toOption] at hp
  | ok ds =>
    rw [hds] at hp hmissing
    exact ⟨by decide +kernel, ds, rfl, p, hp, i, by simpa using hi, k, hk,
      fun f hf hcopy => hgiven f hf hcopy.symbol_eq,
      fun b hb hcopy => hmissing b hb hcopy.symbol_eq⟩

end Clausal
