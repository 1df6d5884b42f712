import Clausal.Proofs.Ancestry
import Clausal.Proofs.Resolution.Graph
import Clausal.Proofs.Resolution.Record

/-!
# Refutations as proofs

A search that has ended with a contradiction explains it by the recorded resolutions.  Since the record
is a derivation, the clauses that led to the contradiction can be listed in an order of dependence, with
the empty clause at the end, and the graph of their resolutions has no cycles and leads to the empty
clause only.

## Main definitions

- `Refutation.keys`: the recorded resolvents
- `Refutation.Contributes`: one clause is a parent of another
- `Refutation.sources`: the parents of a recorded resolvent
- `Refutation.trail`: the recorded ancestors of the empty clause

## Main statements

- `Refutation.Recorded.mem_trail_iff`, `Refutation.Recorded.mem_of_trail_eq_append`: what is listed,
  and in what order
- `Refutation.Recorded.exists_graph`: the clauses and the edges of the graph
- `refutation_in_order_of_dependence`: from the question to the graph
-/

namespace Clausal

namespace Refutation

/-! ## Section 1: Parents -/

/-- The recorded resolvents. -/
def keys (q : Refutation) : List Clause :=
  q.steps.map Resolution.resolvent

/-- A clause is a parent of a recorded resolvent. -/
def Contributes (q : Refutation) (p c : Clause) : Prop :=
  ∃ r ∈ q.steps, r.resolvent = c ∧ (p = r.first ∨ p = r.second)

/-- The parents of a recorded resolvent. -/
def sources (q : Refutation) (c : Clause) : Option (List Clause) :=
  (q.find? c).map fun r => [r.first, r.second]

private theorem derivedParents_eq (q : Refutation) : q.derivedParents = derivedFrom q.sources := by
  funext c
  unfold derivedParents derivedFrom sources
  cases q.find? c with
  | none => rfl
  | some r => simp

/-- Equal clauses have the same place in the record. -/
theorem sources_congr (q : Refutation) (c d : Clause) (h : (c == d) = true) :
    q.sources c = q.sources d := by
  have hbeq : (fun r : Resolution => r.resolvent == c) = fun r => r.resolvent == d :=
    funext fun r => BEq.congr_right h
  simp only [sources, find?, hbeq]

theorem Contributes.mem_keys {q : Refutation} {p c : Clause} (h : q.Contributes p c) :
    c ∈ q.keys := by
  obtain ⟨r, hr, rfl, -⟩ := h
  exact List.mem_map_of_mem hr

namespace Recorded

variable {given : List Clause} {q : Refutation} {c p : Clause}

theorem distinct_known (h : q.Recorded given) : Distinct (given ++ q.keys) :=
  h.derivation.distinct h.distinct

theorem distinct_keys (h : q.Recorded given) : Distinct q.keys :=
  (List.pairwise_append.mp h.distinct_known).2.1

/-- A recorded resolvent is found in the record, with the resolution that it was recorded for. -/
theorem find?_eq_some_iff (h : q.Recorded given) {r : Resolution} (hc : c ∈ q.keys) :
    q.find? c = some r ↔ r ∈ q.steps ∧ r.resolvent = c := by
  have hfound : ∀ {r}, q.find? c = some r → r ∈ q.steps ∧ r.resolvent = c := by
    intro r hr
    have hr : q.steps.find? (fun r => r.resolvent == c) = some r := hr
    have hmem := List.mem_of_find?_eq_some hr
    have hbeq := List.find?_some hr
    exact ⟨hmem, h.distinct_keys.eq_of_beq (List.mem_map_of_mem hmem) hc hbeq⟩
  refine ⟨hfound, ?_⟩
  rintro ⟨hr, rfl⟩
  obtain ⟨r', hr'⟩ : ∃ r', q.find? r.resolvent = some r' :=
    Option.isSome_iff_exists.mp (List.find?_isSome.mpr ⟨r, hr, BEq.rfl⟩)
  obtain ⟨hmem, heq⟩ := hfound hr'
  rw [hr', List.inj_on_of_nodup_map h.distinct_keys.nodup hmem hr heq]

theorem isSome_sources_iff (h : q.Recorded given) (hp : p ∈ given ++ q.keys) :
    (q.sources p).isSome = true ↔ p ∈ q.keys := by
  rw [sources, Option.isSome_map, find?, List.find?_isSome]
  constructor
  · rintro ⟨r, hr, hbeq⟩
    have hmem : r.resolvent ∈ q.keys := List.mem_map_of_mem hr
    rwa [← h.distinct_known.eq_of_beq (List.mem_append_right _ hmem) hp hbeq]
  · intro hmem
    obtain ⟨r, hr, rfl⟩ := List.mem_map.mp hmem
    exact ⟨r, hr, BEq.rfl⟩

/-- What a parent is: a resolution is recorded after the resolutions that its parents come from. -/
theorem of_mem_derivedFrom (h : q.Recorded given) (hp : p ∈ derivedFrom q.sources c) :
    ∃ l r l', q.steps = l ++ r :: l' ∧ (r.resolvent == c) = true ∧ (p = r.first ∨ p = r.second) ∧
      p ∈ l.map Resolution.resolvent := by
  obtain ⟨hparent, hderived⟩ := List.mem_filter.mp hp
  cases hc : q.find? c with
  | none => simp [sources, hc] at hparent
  | some r =>
    have hc' : q.steps.find? (fun r => r.resolvent == c) = some r := hc
    obtain ⟨l, l', hsplit⟩ := List.append_of_mem (List.mem_of_find?_eq_some hc')
    have hbeq := List.find?_some hc'
    have hp : p = r.first ∨ p = r.second := by
      simpa [sources, hc, or_comm] using hparent
    have hamong := h.derivation.among_of_eq_append hsplit
    have hbefore : p ∈ given ++ l.map Resolution.resolvent := by
      rcases hp with rfl | rfl
      · exact hamong.first
      · exact hamong.second
    refine ⟨l, r, l', hsplit, hbeq, hp, ?_⟩
    refine (List.mem_append.mp hbefore).resolve_left fun hmem => ?_
    -- a given clause is not recorded
    have hkey := (h.isSome_sources_iff (List.mem_append_left _ hmem)).mp hderived
    obtain ⟨-, -, hapart⟩ := List.pairwise_append.mp h.distinct_known
    have hne := hapart p hmem p hkey
    rw [BEq.rfl] at hne
    cases hne

/-- The recorded resolvents are in an order in which they can be derived. -/
theorem ordered (h : q.Recorded given) : Ordered q.sources q.keys where
  distinct := h.distinct_keys
  congr := q.sources_congr
  derived c := by
    rw [sources, Option.isSome_map, find?, List.find?_isSome]
    simp [keys]
  earlier c p hp := by
    obtain ⟨l, r, l', hsplit, hbeq, -, hmem⟩ := h.of_mem_derivedFrom hp
    refine ⟨_, r.resolvent, l'.map Resolution.resolvent, ?_, hbeq, hmem⟩
    rw [keys, hsplit, List.map_append, List.map_cons]

/-- For recorded resolvents, parents are the parents in the record. -/
theorem mem_derivedFrom_iff (h : q.Recorded given) (hc : c ∈ q.keys) :
    p ∈ derivedFrom q.sources c ↔ q.Contributes p c ∧ p ∈ q.keys := by
  constructor
  · intro hp
    obtain ⟨l, r, l', hsplit, hbeq, hparent, hmem⟩ := h.of_mem_derivedFrom hp
    have hr : r ∈ q.steps := by simp [hsplit]
    refine ⟨⟨r, hr, ?_, hparent⟩, h.ordered.mem_of_mem_derivedFrom hp⟩
    exact h.distinct_keys.eq_of_beq (List.mem_map_of_mem hr) hc hbeq
  · rintro ⟨⟨r, hr, hrc, hparent⟩, hp⟩
    have hfind := (h.find?_eq_some_iff hc).mpr ⟨hr, hrc⟩
    refine List.mem_filter.mpr ⟨?_, (h.isSome_sources_iff (List.mem_append_right _ hp)).mpr hp⟩
    simpa [sources, hfind, or_comm] using hparent

/-- A parent is known before the clause that it contributes to. -/
theorem findIdx_lt_of_contributes (h : q.Recorded given) (hp : q.Contributes p c) :
    (given ++ q.keys).findIdx (· == p) < (given ++ q.keys).findIdx (· == c) := by
  obtain ⟨r, hr, rfl, hparent⟩ := hp
  obtain ⟨l, l', hsplit⟩ := List.append_of_mem hr
  have hamong := h.derivation.among_of_eq_append hsplit
  have hknown : given ++ q.keys = (given ++ l.map Resolution.resolvent) ++
      r.resolvent :: l'.map Resolution.resolvent := by
    rw [keys, hsplit, List.map_append, List.map_cons, List.append_assoc]
  have hdistinct := h.distinct_known
  rw [hknown] at hdistinct ⊢
  apply hdistinct.findIdx_lt
  rcases hparent with rfl | rfl
  · exact hamong.first
  · exact hamong.second

end Recorded

/-! ## Section 2: The clauses that led to the contradiction -/

/-- The recorded ancestors of the empty clause. -/
def trail (q : Refutation) : List Clause :=
  ancestry (derivedFrom q.sources) q.steps.length [.empty]

theorem trail_eq (q : Refutation) :
    q.trail = ancestry (derivedFrom q.sources) q.keys.length [.empty] := by
  rw [trail, keys, List.length_map]

theorem discovered_eq {q : Refutation} (hresult : q.result = some true) :
    q.discovered = .ok q.trail := by
  unfold discovered
  rw [hresult, derivedParents_eq]
  rfl

namespace Recorded

variable {given : List Clause} {q : Refutation} {c p : Clause}

theorem empty_mem_keys (h : q.Recorded given) (hresult : q.result = some true) :
    Clause.empty ∈ q.keys := by
  obtain ⟨rs, r, hsteps, hempty⟩ := h.refuted hresult
  rw [keys, hsteps, List.map_append, List.map_singleton, hempty]
  simp

/-- The list has the recorded resolvents from which parents lead to the empty clause. -/
theorem mem_trail_iff (h : q.Recorded given) (hresult : q.result = some true) :
    c ∈ q.trail ↔ c ∈ q.keys ∧ Relation.ReflTransGen q.Contributes c .empty := by
  have hempty := h.empty_mem_keys hresult
  -- all that is met on the way to the empty clause is recorded
  have hkeys : ∀ {c}, Relation.ReflTransGen (fun p c => p ∈ derivedFrom q.sources c) c .empty →
      c ∈ q.keys ∧ Relation.ReflTransGen q.Contributes c .empty := by
    intro c hc
    induction hc using Relation.ReflTransGen.head_induction_on with
    | refl => exact ⟨hempty, .refl⟩
    | head hstep _ ih =>
      obtain ⟨hcontributes, hkey⟩ := (h.mem_derivedFrom_iff ih.1).mp hstep
      exact ⟨hkey, .head hcontributes ih.2⟩
  have htrail : ∀ {c}, c ∈ q.trail →
      Relation.ReflTransGen (fun p c => p ∈ derivedFrom q.sources c) c .empty := by
    intro c hc
    obtain ⟨a, ha, hca⟩ := exists_reaches_of_mem_generations (mem_of_mem_dedup hc)
    rwa [List.mem_singleton.mp ha] at hca
  constructor
  · exact fun hc => hkeys (htrail hc)
  · rintro ⟨hc, hreaches⟩
    have hderived : Relation.ReflTransGen (fun p c => p ∈ derivedFrom q.sources c) c .empty := by
      induction hreaches using Relation.ReflTransGen.head_induction_on with
      | refl => exact .refl
      | head hstep _ ih =>
        exact .head ((h.mem_derivedFrom_iff hstep.mem_keys).mpr ⟨hstep, hc⟩)
          (ih hstep.mem_keys)
    rw [trail_eq]
    exact h.ordered.mem_ancestry_of_reaches hempty hc hderived

/-- Parents come before what was derived from them. -/
theorem mem_of_trail_eq_append (h : q.Recorded given) (hresult : q.result = some true)
    {l l' : List Clause} (hsplit : q.trail = l ++ c :: l') (hp : q.Contributes p c)
    (hkey : p ∈ q.keys) : p ∈ l := by
  rw [trail_eq] at hsplit
  exact h.ordered.mem_of_ancestry_eq_append (h.empty_mem_keys hresult) hsplit
    ((h.mem_derivedFrom_iff hp.mem_keys).mpr ⟨hp, hkey⟩)

private theorem exists_trail_eq_append (h : q.Recorded given) : ∃ l, q.trail = l ++ [.empty] :=
  h.ordered.exists_ancestry_eq_append _ _

private theorem traverses_trail (h : q.Recorded given) (hresult : q.result = some true) :
    Traverses q.sources [.empty] [] q.trail := by
  rw [trail_eq]
  exact h.ordered.traverses (h.empty_mem_keys hresult)

end Recorded

/-! ## Section 3: The graph -/

/-- The source that is noted for a clause in the graph. -/
def sourceOf (q : Refutation) (c : Clause) : Source :=
  if q.trail.contains c then .derived else q.initialSource c

private theorem graph_eq {q : Refutation} (hresult : q.result = some true) :
    q.graph = .ok ((q.trail.filterMap q.find?).foldl (Graph.draw q.sourceOf) {}).grouped := by
  unfold graph
  rw [discovered_eq hresult]
  rfl

namespace Recorded

variable {given : List Clause} {q : Refutation}

/-- The resolutions in the graph are those whose resolvents led to the contradiction. -/
theorem mem_filterMap_trail (h : q.Recorded given) (hresult : q.result = some true)
    {r : Resolution} : r ∈ q.trail.filterMap q.find? ↔ r ∈ q.steps ∧ r.resolvent ∈ q.trail := by
  have hkey : ∀ {c}, c ∈ q.trail → c ∈ q.keys := fun hc => ((h.mem_trail_iff hresult).mp hc).1
  rw [List.mem_filterMap]
  constructor
  · rintro ⟨c, hc, hfind⟩
    obtain ⟨hr, rfl⟩ := (h.find?_eq_some_iff (hkey hc)).mp hfind
    exact ⟨hr, hc⟩
  · rintro ⟨hr, hc⟩
    exact ⟨_, hc, (h.find?_eq_some_iff (hkey hc)).mpr ⟨hr, rfl⟩⟩

/-- The clauses of the graph and its edges. -/
theorem exists_graph (h : q.Recorded given) (hresult : q.result = some true) :
    ∃ g, q.graph = .ok g ∧ g.clauses.Nodup ∧
      (∀ c, c ∈ g.clauses ↔ ∃ d ∈ q.trail, c = d ∨ q.Contributes c d) ∧
      ∀ a b, g.Links a b ↔ b ∈ q.trail ∧ q.Contributes a b := by
  have hknown : ∀ r ∈ q.trail.filterMap q.find?, ∀ c, Graph.Touches r c → c ∈ given ++ q.keys := by
    intro r hr c hc
    obtain ⟨hr, -⟩ := (h.mem_filterMap_trail hresult).mp hr
    obtain ⟨l, l', hsplit⟩ := List.append_of_mem hr
    have hamong : r.Among (given ++ q.keys) := by
      refine (h.derivation.among_of_eq_append hsplit).mono ?_
      rw [keys, hsplit, List.map_append, ← List.append_assoc]
      exact List.subset_append_left _ _
    rcases hc with rfl | rfl | rfl
    · exact List.mem_append_right _ (List.mem_map_of_mem hr)
    · exact hamong.first
    · exact hamong.second
  obtain ⟨hsane, hclauses, hlinks⟩ :=
    (Graph.sane_nil _).foldl_draw h.distinct_known q.sourceOf hknown
  refine ⟨_, graph_eq hresult, hsane.nodup, fun c => ?_, fun a b => ?_⟩
  · rw [Graph.clauses_grouped, hclauses]
    constructor
    · rintro (hnil | ⟨r, hr, htouches⟩)
      · exact absurd hnil List.not_mem_nil
      · obtain ⟨hr, hmem⟩ := (h.mem_filterMap_trail hresult).mp hr
        exact ⟨_, hmem, htouches.imp id fun hparent => ⟨r, hr, rfl, hparent⟩⟩
    · rintro ⟨d, hd, hc⟩
      obtain ⟨r, hr, hrd, htouches⟩ : ∃ r ∈ q.steps, r.resolvent = d ∧ Graph.Touches r c := by
        rcases hc with rfl | ⟨r, hr, hrd, hparent⟩
        · obtain ⟨r, hr, rfl⟩ := List.mem_map.mp ((h.mem_trail_iff hresult).mp hd).1
          exact ⟨r, hr, rfl, Or.inl rfl⟩
        · exact ⟨r, hr, hrd, Or.inr hparent⟩
      exact Or.inr ⟨r, (h.mem_filterMap_trail hresult).mpr ⟨hr, hrd ▸ hd⟩, htouches⟩
  · rw [hsane.links_grouped, hlinks]
    constructor
    · rintro (⟨e, he, -⟩ | ⟨r, hr, rfl, hparent⟩)
      · exact absurd he List.not_mem_nil
      · obtain ⟨hr, hmem⟩ := (h.mem_filterMap_trail hresult).mp hr
        exact ⟨hmem, r, hr, rfl, hparent⟩
    · rintro ⟨hmem, r, hr, rfl, hparent⟩
      exact Or.inr ⟨r, (h.mem_filterMap_trail hresult).mpr ⟨hr, hmem⟩, rfl, hparent⟩

/-- The empty clause contributes to nothing. -/
theorem ne_empty_of_contributes (h : q.Recorded given) {p c : Clause} (hp : q.Contributes p c) :
    p ≠ .empty := by
  obtain ⟨r, hr, -, hparent⟩ := hp
  obtain ⟨l, l', hsplit⟩ := List.append_of_mem hr
  have hne := (h.derivation.among_of_eq_append hsplit).ne_empty
  rcases hparent with rfl | rfl
  · exact hne.1
  · exact hne.2

/-- What led to the contradiction and is not the contradiction contributes to something that did. -/
theorem exists_contributes (h : q.Recorded given) (hresult : q.result = some true) {c : Clause}
    (hc : c ∈ q.trail) (hne : c ≠ .empty) : ∃ d ∈ q.trail, q.Contributes c d := by
  obtain ⟨-, hreaches⟩ := (h.mem_trail_iff hresult).mp hc
  rcases Relation.ReflTransGen.cases_head hreaches with rfl | ⟨d, hstep, hrest⟩
  · exact absurd rfl hne
  · exact ⟨d, (h.mem_trail_iff hresult).mpr ⟨hstep.mem_keys, hrest⟩, hstep⟩

private theorem not_transGen_contributes (h : q.Recorded given) (c : Clause) :
    ¬ Relation.TransGen q.Contributes c c := by
  have hlt : ∀ {a b}, Relation.TransGen q.Contributes a b →
      (given ++ q.keys).findIdx (· == a) < (given ++ q.keys).findIdx (· == b) := by
    intro a b hab
    induction hab with
    | single hstep => exact h.findIdx_lt_of_contributes hstep
    | tail _ hstep ih => exact Nat.lt_trans ih (h.findIdx_lt_of_contributes hstep)
  exact fun hcycle => Nat.lt_irrefl _ (hlt hcycle)

end Recorded

end Refutation

/-! ## Section 4: From the question to the graph -/

open Refutation in
/-- A search that has ended with a contradiction has recorded a proof in order of dependence.  Each
    recorded resolution is one of initial clauses and of earlier resolvents.  The traversal from the
    empty clause ends, with the recorded resolvents that lead to the empty clause, each once, parents
    first and the empty clause last.  The graph has their resolutions for edges; it has no cycles, and
    the empty clause is the only clause from which no edge leads on. -/
theorem refutation_in_order_of_dependence (strategy : Strategy) (cs : List Clause) (s : Names)
    (query : Formula) {q : Refutation} {s' : Names} (hq : Reached strategy cs s query q s')
    (hresult : q.result = some true) :
    (Distinct q.keys ∧ ∀ l r l', q.steps = l ++ r :: l' →
      (∃ s₀, r ∈ (r.first.resolve s₀ r.second).1) ∧ ∀ p, p = r.first ∨ p = r.second →
        p ∈ cs ∨ p ∈ ((Formula.not query).toCnf s).1.clauses ∨ p ∈ l.map Resolution.resolvent) ∧
    (∃ ds, q.discovered = .ok ds ∧
      (∀ out, Traverses q.sources [.empty] [] out ↔ out = ds) ∧ Distinct ds ∧
      (∀ c, c ∈ ds ↔ c ∈ q.keys ∧ Relation.ReflTransGen q.Contributes c .empty) ∧
      (∃ l, ds = l ++ [.empty]) ∧
      ∀ l c l', ds = l ++ c :: l' → ∀ p, q.Contributes p c → p ∈ q.keys → p ∈ l) ∧
    ∃ g, q.graph = .ok g ∧ g.clauses.Nodup ∧
      (∀ a b, g.Links a b ↔ Relation.ReflTransGen q.Contributes b .empty ∧ q.Contributes a b) ∧
      (∀ c, ¬ Relation.TransGen g.Links c c) ∧
      .empty ∈ g.clauses ∧ ∀ c ∈ g.clauses, (¬ ∃ d, g.Links c d) ↔ c = .empty := by
  have h := hq.recorded
  refine ⟨⟨h.distinct_keys, fun l r l' hsplit => ?_⟩, ?_, ?_⟩
  · have hamong := h.derivation.among_of_eq_append hsplit
    refine ⟨hamong.resolves, fun p hp => ?_⟩
    have hmem : p ∈ initial cs s query ++ l.map Resolution.resolvent := by
      rcases hp with rfl | rfl
      · exact hamong.first
      · exact hamong.second
    rcases List.mem_append.mp hmem with hmem | hmem
    · exact (List.mem_append.mp (mem_of_mem_dedup hmem)).imp mem_of_mem_dedup Or.inl
    · exact Or.inr (Or.inr hmem)
  · refine ⟨q.trail, discovered_eq hresult, fun out => ?_, pairwise_dedup _,
      fun c => h.mem_trail_iff hresult, h.exists_trail_eq_append, ?_⟩
    · have htrail := h.traverses_trail hresult
      exact ⟨fun hout => hout.unique htrail, fun hout => hout ▸ htrail⟩
    · exact fun l c l' hsplit p hp hkey => h.mem_of_trail_eq_append hresult hsplit hp hkey
  · obtain ⟨g, hg, hnodup, hclauses, hlinks⟩ := h.exists_graph hresult
    have hempty : Clause.empty ∈ q.trail :=
      (h.mem_trail_iff hresult).mpr ⟨h.empty_mem_keys hresult, .refl⟩
    refine ⟨g, hg, hnodup, fun a b => ?_, fun c hcycle => ?_, ?_, fun c hc => ?_⟩
    · rw [hlinks, h.mem_trail_iff hresult]
      exact ⟨fun hab => ⟨hab.1.2, hab.2⟩, fun hab => ⟨⟨hab.2.mem_keys, hab.1⟩, hab.2⟩⟩
    · have hlead : ∀ a b, g.Links a b → q.Contributes a b := fun a b hab => ((hlinks a b).mp hab).2
      exact h.not_transGen_contributes c (Relation.TransGen.mono hlead c c hcycle)
    · exact (hclauses _).mpr ⟨_, hempty, Or.inl rfl⟩
    · constructor
      · intro hsink
        obtain ⟨d, hd, rfl | hstep⟩ := (hclauses c).mp hc
        · by_contra hne
          obtain ⟨e, he, hstep⟩ := h.exists_contributes hresult hd hne
          exact hsink ⟨e, (hlinks _ _).mpr ⟨he, hstep⟩⟩
        · exact absurd ⟨d, (hlinks _ _).mpr ⟨hd, hstep⟩⟩ hsink
      · rintro rfl ⟨d, hd⟩
        exact h.ne_empty_of_contributes ((hlinks _ _).mp hd).2 rfl

/-- `p(a)`, `¬p(X) | q(X)`, `¬q(X) | r(X)` and `¬q(X) | ¬r(X)`. -/
def disputed : List Clause :=
  [.ofList [⟨true, .pred (.num 0) [.const (.num 4)]⟩],
    .ofList [⟨false, .pred (.num 0) [.var (.num 5)]⟩, ⟨true, .pred (.num 1) [.var (.num 5)]⟩],
    .ofList [⟨false, .pred (.num 1) [.var (.num 5)]⟩, ⟨true, .pred (.num 2) [.var (.num 5)]⟩],
    .ofList [⟨false, .pred (.num 1) [.var (.num 5)]⟩, ⟨false, .pred (.num 2) [.var (.num 5)]⟩]]

/-- The beginning of a search among them, unit clauses first. -/
def disputedStart : Refutation × Names :=
  Refutation.start (StrategyChoice.strategy ⟨.all, some .unitParent⟩) disputed {}
    (.atom (.pred (.num 3) [.const (.num 4)]))

/-- The search records five clauses.  The contradiction comes from `r(a)` and `¬r(a)`, both of which
    come from `q(a)`; the clause `¬q(a)` is recorded too, but leads to nothing. -/
theorem refutation_in_order_of_dependence_shared :
    let q := (disputedStart.1.execute 6 disputedStart.2).2.1
    q.result = some true ∧ q.keys.length = 5 ∧
      (∃ ds, q.discovered = .ok ds ∧ ds.length = 4 ∧ Distinct ds ∧ ∃ l, ds = l ++ [.empty]) ∧
      ∃ g, q.graph = .ok g ∧ ∀ c, ¬ Relation.TransGen g.Links c c := by
  intro q
  have hresult : q.result = some true := by decide +kernel
  have hlength : q.discovered.toOption.map List.length = some 4 := by decide +kernel
  have hreached : Refutation.Reached _ disputed {} _ q _ := Refutation.Reached.start.execute 6
  obtain ⟨-, ⟨ds, hds, -, hdistinct, -, hlast, -⟩, g, hg, -, -, hacyclic, -⟩ :=
    refutation_in_order_of_dependence _ _ _ _ hreached hresult
  rw [hds] at hlength
  exact ⟨hresult, by decide +kernel, ⟨ds, hds, Option.some.inj hlength, hdistinct, hlast⟩, g, hg,
    hacyclic⟩

end Clausal
