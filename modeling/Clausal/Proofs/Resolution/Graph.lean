import Clausal.Proofs.Clause
import Clausal.Resolution.Refutation

/-!
# Graphs of derivations

The graph of a derivation is drawn resolution by resolution.  A clause becomes a node when it is first
met, and an edge is drawn from each parent to the resolvent.  Nodes and edges refer to clauses by their
places; as long as all clauses come from a list without repetitions, the places stand for the clauses,
and the edges are exactly those between parents and resolvents.

## Main definitions

- `Graph.clauses`, `Graph.Links`: the clauses of a graph and its edges between them
- `Graph.Sane`: graphs whose places stand for clauses
- `Graph.draw`: what a resolution adds to a graph

## Main statements

- `Graph.Sane.links_insert`, `Graph.Sane.links_connect`: a node and an edge more
- `Graph.Sane.draw`, `Graph.Sane.foldl_draw`: one resolution and several
-/

namespace Clausal

namespace Refutation.Graph

/-! ## Section 1: Nodes and edges -/

/-- The clauses of a graph. -/
def clauses (g : Graph) : List Clause :=
  g.nodes.map Prod.fst

/-- There is an edge from one clause to another. -/
def Links (g : Graph) (a b : Clause) : Prop :=
  ∃ e ∈ g.edges, g.clauses[e.1]? = some a ∧ g.clauses[e.2.1]? = some b

/-- The clauses of a graph are different clauses of a list, and edges are between places of
    clauses. -/
structure Sane (known : List Clause) (g : Graph) : Prop where
  subset : g.clauses ⊆ known
  nodup : g.clauses.Nodup
  bounds : ∀ e ∈ g.edges, e.1 < g.clauses.length ∧ e.2.1 < g.clauses.length

variable {known : List Clause} {g : Graph} {c : Clause}

theorem sane_nil (known : List Clause) : ({} : Graph).Sane known where
  subset := List.nil_subset _
  nodup := List.nodup_nil
  bounds _ he := absurd he List.not_mem_nil

private theorem indexOf_eq (g : Graph) (c : Clause) : g.indexOf c = g.clauses.findIdx (· == c) := by
  rw [indexOf, clauses, List.findIdx_map]
  rfl

namespace Sane

theorem getElem?_indexOf (hknown : Distinct known) (h : g.Sane known) (hc : c ∈ g.clauses) :
    g.clauses[g.indexOf c]? = some c := by
  have hlt : g.clauses.findIdx (· == c) < g.clauses.length :=
    List.findIdx_lt_length_of_exists ⟨c, hc, BEq.rfl⟩
  have hbeq := List.findIdx_getElem (w := hlt)
  rw [indexOf_eq, List.getElem?_eq_getElem hlt]
  exact congrArg some (hknown.eq_of_beq (h.subset (List.getElem_mem hlt)) (h.subset hc) hbeq)

/-- A clause is added at the end unless it is there. -/
theorem clauses_insert (hknown : Distinct known) (h : g.Sane known) (hc : c ∈ known)
    (source : Source) :
    (c ∈ g.clauses ∧ g.insert c source = g) ∨
      (c ∉ g.clauses ∧ (g.insert c source).clauses = g.clauses ++ [c] ∧
        (g.insert c source).edges = g.edges) := by
  unfold Graph.insert
  split
  next hany =>
    obtain ⟨n, hn, hbeq⟩ := List.any_eq_true.mp hany
    have hmem : n.1 ∈ g.clauses := List.mem_map_of_mem hn
    rw [← hknown.eq_of_beq (h.subset hmem) hc hbeq]
    exact Or.inl ⟨hmem, rfl⟩
  next hany =>
    refine Or.inr ⟨fun hmem => hany ?_, List.map_append, rfl⟩
    obtain ⟨n, hn, rfl⟩ := List.mem_map.mp hmem
    exact List.any_eq_true.mpr ⟨n, hn, BEq.rfl⟩

theorem insert (hknown : Distinct known) (h : g.Sane known) (hc : c ∈ known) (source : Source) :
    (g.insert c source).Sane known := by
  rcases h.clauses_insert hknown hc source with ⟨-, heq⟩ | ⟨hnew, hclauses, hedges⟩
  · rwa [heq]
  · refine ⟨?_, ?_, fun e he => ?_⟩
    · rw [hclauses]
      exact List.append_subset.mpr ⟨h.subset, List.cons_subset.mpr ⟨hc, List.nil_subset _⟩⟩
    · rw [hclauses]
      exact List.nodup_append.mpr ⟨h.nodup, List.pairwise_singleton _ _,
        fun a ha b hb hab => hnew (List.mem_singleton.mp hb ▸ hab ▸ ha)⟩
    · rw [hedges] at he
      rw [hclauses, List.length_append]
      exact (h.bounds e he).imp (fun h => Nat.lt_add_right _ h) (fun h => Nat.lt_add_right _ h)

theorem mem_clauses_insert (hknown : Distinct known) (h : g.Sane known) (hc : c ∈ known)
    (source : Source) {d : Clause} :
    d ∈ (g.insert c source).clauses ↔ d ∈ g.clauses ∨ d = c := by
  rcases h.clauses_insert hknown hc source with ⟨hmem, heq⟩ | ⟨-, hclauses, -⟩
  · rw [heq]
    exact ⟨Or.inl, fun hd => hd.elim id fun hd => hd ▸ hmem⟩
  · rw [hclauses, List.mem_append, List.mem_singleton]

/-- A new node has no edges. -/
theorem links_insert (hknown : Distinct known) (h : g.Sane known) (hc : c ∈ known)
    (source : Source) {a b : Clause} : (g.insert c source).Links a b ↔ g.Links a b := by
  rcases h.clauses_insert hknown hc source with ⟨-, heq⟩ | ⟨-, hclauses, hedges⟩
  · rw [heq]
  · unfold Links
    rw [hclauses, hedges]
    refine exists_congr fun e => and_congr_right fun he => ?_
    obtain ⟨h₁, h₂⟩ := h.bounds e he
    rw [List.getElem?_append_left h₁, List.getElem?_append_left h₂]

end Sane

@[simp]
theorem clauses_connect (g : Graph) (a b : Clause) (σ : Substitution) :
    (g.connect a b σ).clauses = g.clauses := by
  unfold connect
  dsimp only
  split <;> rfl

namespace Sane

variable {p : Clause} {σ : Substitution}

private theorem connect (hknown : Distinct known) (h : g.Sane known) (hp : p ∈ g.clauses)
    (hc : c ∈ g.clauses) : (g.connect p c σ).Sane known := by
  refine ⟨by simpa using h.subset, by simpa using h.nodup, fun e he => ?_⟩
  rw [clauses_connect]
  unfold Graph.connect at he
  dsimp only at he
  split at he
  next => exact h.bounds e he
  next =>
    rcases List.mem_append.mp he with he | he
    · exact h.bounds e he
    · obtain rfl := List.mem_singleton.mp he
      exact ⟨(List.getElem?_eq_some_iff.mp (h.getElem?_indexOf hknown hp)).1,
        (List.getElem?_eq_some_iff.mp (h.getElem?_indexOf hknown hc)).1⟩

/-- The edge that is added is the only one that is new. -/
theorem links_connect (hknown : Distinct known) (h : g.Sane known) (hp : p ∈ g.clauses)
    (hc : c ∈ g.clauses) {a b : Clause} :
    (g.connect p c σ).Links a b ↔ g.Links a b ∨ a = p ∧ b = c := by
  have hplace := h.getElem?_indexOf hknown hp
  have hplace' := h.getElem?_indexOf hknown hc
  unfold Links
  rw [clauses_connect]
  unfold Graph.connect
  dsimp only
  split
  next hany =>
    -- the edge is there already
    refine ⟨Or.inl, fun hlinks => hlinks.elim id ?_⟩
    rintro ⟨rfl, rfl⟩
    obtain ⟨e, he, heq⟩ := List.any_eq_true.mp hany
    obtain ⟨h₁, h₂⟩ : e.1 = g.indexOf a ∧ e.2.1 = g.indexOf b := by simpa using heq
    exact ⟨e, he, h₁ ▸ hplace, h₂ ▸ hplace'⟩
  next =>
    constructor
    · rintro ⟨e, he, ha, hb⟩
      rcases List.mem_append.mp he with he | he
      · exact Or.inl ⟨e, he, ha, hb⟩
      · obtain rfl := List.mem_singleton.mp he
        exact Or.inr ⟨Option.some.inj (ha.symm.trans hplace),
          Option.some.inj (hb.symm.trans hplace')⟩
    · rintro (⟨e, he, ha, hb⟩ | ⟨rfl, rfl⟩)
      · exact ⟨e, List.mem_append_left _ he, ha, hb⟩
      · exact ⟨_, List.mem_append_right _ List.mem_cons_self, hplace, hplace'⟩

end Sane

@[simp]
theorem clauses_grouped (g : Graph) : g.grouped.clauses = g.clauses := rfl

/-- Grouping the edges changes their order only. -/
theorem Sane.links_grouped (h : g.Sane known) {a b : Clause} :
    g.grouped.Links a b ↔ g.Links a b := by
  unfold Links
  rw [clauses_grouped]
  refine exists_congr fun e => and_congr_left fun _ => ?_
  simp only [grouped, List.mem_flatMap, List.mem_filter, List.mem_range, decide_eq_true_eq]
  constructor
  · rintro ⟨i, -, he, -⟩
    exact he
  · intro he
    have hlt := (h.bounds e he).1
    exact ⟨e.1, by simpa [clauses] using hlt, he, rfl⟩

/-! ## Section 2: Drawing resolutions -/

/-- Add a parent of a clause that is there, with its edge. -/
def attach (source : Clause → Source) (child : Clause) (σ : Substitution) (g : Graph) (p : Clause) :
    Graph :=
  (g.insert p (source p)).connect p child σ

/-- What a resolution adds to a graph: the resolvent and the parents. -/
def draw (source : Clause → Source) (g : Graph) (r : Resolution) : Graph :=
  [r.first, r.second].foldl (attach source r.resolvent r.unifier) (g.insert r.resolvent .derived)

/-- A clause of a resolution. -/
def Touches (r : Resolution) (c : Clause) : Prop :=
  c = r.resolvent ∨ c = r.first ∨ c = r.second

namespace Sane

private theorem attach (hknown : Distinct known) (h : g.Sane known) {p : Clause} (hp : p ∈ known)
    (hc : c ∈ g.clauses) (source : Clause → Source) (σ : Substitution) :
    (g.attach source c σ p).Sane known ∧
      (∀ d, d ∈ (g.attach source c σ p).clauses ↔ d ∈ g.clauses ∨ d = p) ∧
      ∀ a b, (g.attach source c σ p).Links a b ↔ g.Links a b ∨ a = p ∧ b = c := by
  have hins := h.insert hknown hp (source p)
  have hmem : ∀ {d}, d ∈ (g.insert p (source p)).clauses ↔ d ∈ g.clauses ∨ d = p :=
    h.mem_clauses_insert hknown hp (source p)
  have hparent := hmem.mpr (Or.inr rfl)
  have hchild := hmem.mpr (Or.inl hc)
  refine ⟨hins.connect hknown hparent hchild, fun d => ?_, fun a b => ?_⟩
  · rw [Graph.attach, clauses_connect, hmem]
  · rw [Graph.attach, hins.links_connect hknown hparent hchild, h.links_insert hknown hp]

/-- One resolution. -/
theorem draw (hknown : Distinct known) (h : g.Sane known) {r : Resolution}
    (hr : ∀ c, Touches r c → c ∈ known) (source : Clause → Source) :
    (g.draw source r).Sane known ∧
      (∀ c, c ∈ (g.draw source r).clauses ↔ c ∈ g.clauses ∨ Touches r c) ∧
      ∀ a b, (g.draw source r).Links a b ↔
        g.Links a b ∨ b = r.resolvent ∧ (a = r.first ∨ a = r.second) := by
  have hresolvent := hr _ (Or.inl rfl)
  have hnode := h.insert hknown hresolvent .derived
  have hmem : ∀ {c}, c ∈ (g.insert r.resolvent .derived).clauses ↔ c ∈ g.clauses ∨ c = r.resolvent :=
    h.mem_clauses_insert hknown hresolvent .derived
  obtain ⟨h₁, hmem₁, hlinks₁⟩ := hnode.attach hknown (hr _ (Or.inr (Or.inl rfl)))
    (hmem.mpr (Or.inr rfl)) source r.unifier
  obtain ⟨h₂, hmem₂, hlinks₂⟩ := h₁.attach hknown (hr _ (Or.inr (Or.inr rfl)))
    ((hmem₁ _).mpr (Or.inl (hmem.mpr (Or.inr rfl)))) source r.unifier
  refine ⟨h₂, fun c => ?_, fun a b => ?_⟩
  · refine (hmem₂ c).trans ?_
    rw [hmem₁, hmem]
    simp only [Touches, or_assoc]
  · refine (hlinks₂ a b).trans ?_
    rw [hlinks₁, h.links_insert hknown hresolvent]
    tauto

/-- Several resolutions, one after the other. -/
theorem foldl_draw (hknown : Distinct known) (source : Clause → Source) {rs : List Resolution}
    (hrs : ∀ r ∈ rs, ∀ c, Touches r c → c ∈ known) (h : g.Sane known) :
    (rs.foldl (Graph.draw source) g).Sane known ∧
      (∀ c, c ∈ (rs.foldl (Graph.draw source) g).clauses ↔
        c ∈ g.clauses ∨ ∃ r ∈ rs, Touches r c) ∧
      ∀ a b, (rs.foldl (Graph.draw source) g).Links a b ↔
        g.Links a b ∨ ∃ r ∈ rs, b = r.resolvent ∧ (a = r.first ∨ a = r.second) := by
  induction rs generalizing g with
  | nil => exact ⟨h, by simp, by simp⟩
  | cons r rs ih =>
    obtain ⟨hr, hrs⟩ := List.forall_mem_cons.mp hrs
    obtain ⟨hone, hclauses, hlinks⟩ := h.draw hknown hr source
    obtain ⟨hall, hclauses', hlinks'⟩ := ih hrs hone
    refine ⟨hall, fun c => ?_, fun a b => ?_⟩
    · rw [List.foldl_cons, hclauses', hclauses, or_assoc]
      simp only [List.exists_mem_cons_iff]
    · rw [List.foldl_cons, hlinks', hlinks, or_assoc]
      simp only [List.exists_mem_cons_iff]

end Sane

end Refutation.Graph

end Clausal
