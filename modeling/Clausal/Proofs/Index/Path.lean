import Clausal.Proofs.Index.Position
import Clausal.Proofs.Index.Discrimination

/-!
# Path trees are exact

The root of a path tree stores every key as its own term.  A walk through the tree finds more keys
than are asked for, as it does not look at repeated variables, but it misses none: an instance agrees
with its generalisation down to the variables of the latter.  What is left after asking each key that
has been found is what a plain search gives.

## Main definitions

- `PathTree.Holds`: a tree holds a list of values

## Main statements

- `PathTree.Holds.values_perm`: asking the keys of a walk gives what asking all keys gives
- `pathTree_exact`: a filled tree answers like a search through what is stored, and so like a
  discrimination tree
-/

namespace Clausal

/-! ## Section 1: Values and keys -/

/-- In a list without repeated keys, what is found under a key is what stands there. -/
theorem lookup_eq_some_iff_mem {α : Type} {es : List (Term × α)} (h : (es.map Prod.fst).Nodup)
    {k : Term} {a : α} : es.lookup k = some a ↔ (k, a) ∈ es := by
  induction es with
  | nil => simp
  | cons e es ih =>
    obtain ⟨hnew, hes⟩ := List.nodup_cons.mp h
    rw [List.lookup_cons, List.mem_cons]
    by_cases hk : k = e.1
    · subst hk
      have hno : (e.1, a) ∉ es := fun hmem => hnew (List.mem_map.mpr ⟨_, hmem, rfl⟩)
      simp [hno, Prod.ext_iff, eq_comm]
    · simp [beq_false_of_ne hk, ih hes, Prod.ext_iff, hk]

/-- The content of the root of a tree: every key is its own term. -/
def ownTerms (keys : List Term) : Term → Option Term :=
  fun k => if k ∈ keys then some k else none

@[simp]
theorem ownTerms_eq_some {keys : List Term} {k t : Term} :
    ownTerms keys k = some t ↔ k ∈ keys ∧ k = t := by
  simp [ownTerms]

private theorem ownTerms_append (keys : List Term) (key : Term) :
    ownTerms (keys ++ [key]) = Function.update (ownTerms keys) key (some key) := by
  funext k
  by_cases hk : k = key <;> simp [ownTerms, hk]

/-! ## Section 2: Filled trees -/

namespace PathTree

variable {α : Type}

/-- A tree holds a list of values: each under the ordinal form of its term. -/
structure Holds (p : PathTree α) (stored : List (Term × α)) : Prop where
  values : p.values = stored.map fun e => (e.1.ordinalise, e.2)
  distinct : (stored.map fun e => e.1.ordinalise).Nodup
  root : p.root.Stores (ownTerms (stored.map fun e => e.1.ordinalise))

private theorem holds_empty : (empty : PathTree α).Holds [] where
  values := rfl
  distinct := List.nodup_nil
  root := .nil fun k => by simp [ownTerms]

namespace Holds

variable {p : PathTree α} {stored : List (Term × α)}

theorem storedUnder_iff (t : Term) :
    t.ordinalise ∈ stored.map (fun e => e.1.ordinalise) ↔ StoredUnder stored t := by
  simp [StoredUnder, Term.ordinalise_eq_iff]

theorem lookup_iff (h : p.Holds stored) {k : Term} {a : α} :
    p.values.lookup k = some a ↔ ∃ e ∈ stored, e.1.ordinalise = k ∧ e.2 = a := by
  have hnodup : (p.values.map Prod.fst).Nodup := by
    rw [h.values, List.map_map]
    exact h.distinct
  rw [lookup_eq_some_iff_mem hnodup, h.values, List.mem_map]
  simp only [Prod.mk.injEq]

theorem isSome_lookup_iff (h : p.Holds stored) (t : Term) :
    (p.values.lookup t.ordinalise).isSome = true ↔ StoredUnder stored t := by
  rw [← storedUnder_iff, Option.isSome_iff_exists]
  simp only [h.lookup_iff, List.mem_map]
  constructor
  · rintro ⟨a, e, he, hk, -⟩
    exact ⟨e, he, hk⟩
  · rintro ⟨e, he, hk⟩
    exact ⟨e.2, e, he, hk, rfl⟩

theorem add_of_storedUnder (h : p.Holds stored) {t : Term} (ht : StoredUnder stored t) (a : α) :
    p.add t a = .error .present :=
  if_pos ((h.isSome_lookup_iff t).mpr ht)

theorem add (h : p.Holds stored) {t : Term} (ht : ¬ StoredUnder stored t) (a : α) :
    ∃ p', p.add t a = .ok p' ∧ p'.Holds (stored ++ [(t, a)]) := by
  have hnew : t.ordinalise ∉ stored.map fun e => e.1.ordinalise :=
    fun hmem => ht ((storedUnder_iff t).mp hmem)
  refine ⟨_, if_neg fun hsome => ht ((h.isSome_lookup_iff t).mp hsome), ?_, ?_, ?_⟩
  · simp [h.values]
  · rw [List.map_append]
    exact h.distinct.append (List.nodup_singleton _) (by simpa using hnew)
  · rw [List.map_append, List.map_singleton, ownTerms_append]
    exact h.root.insert t.ordinalise (if_neg hnew)

/-- Where a walk finds the keys whose terms agree with the query, each once, and nothing that is
    asked for disagrees, what is left after asking is what a plain search gives. -/
theorem values_perm (h : p.Holds stored) {found : List Term} (hnodup : found.Nodup)
    {R : Term → Prop}
    (hfound : ∀ k, k ∈ found ↔
      ∃ t, ownTerms (stored.map fun e => e.1.ordinalise) k = some t ∧ R t)
    {P : Term → Bool} (hP : ∀ k, P k = true → R k) :
    ((found.filter P).filterMap fun k => p.values.lookup k).Perm
      ((stored.filter fun e => P e.1.ordinalise).map Prod.snd) := by
  have hperm : (found.filter P).Perm
      ((stored.filter fun e => P e.1.ordinalise).map fun e => e.1.ordinalise) := by
    apply (List.perm_ext_iff_of_nodup (hnodup.filter P) _).mpr
    · intro k
      simp only [List.mem_map, List.mem_filter, hfound, ownTerms_eq_some]
      constructor
      · rintro ⟨⟨t, ⟨⟨e, he, rfl⟩, -⟩, -⟩, hk⟩
        exact ⟨e, ⟨he, hk⟩, rfl⟩
      · rintro ⟨e, ⟨he, hk⟩, rfl⟩
        exact ⟨⟨_, ⟨⟨e, he, rfl⟩, rfl⟩, hP _ hk⟩, hk⟩
    · exact h.distinct.sublist (List.filter_sublist.map _)
  refine (hperm.filterMap _).trans (List.Perm.of_eq ?_)
  rw [List.filterMap_map, ← List.filterMap_eq_map]
  apply List.filterMap_congr
  intro e he
  exact h.lookup_iff.mpr ⟨e, (List.mem_filter.mp he).1, rfl, rfl⟩

theorem contains_iff (h : p.Holds stored) (q : Term) :
    p.contains q = true ↔ StoredUnder stored q := by
  rw [contains, List.contains_iff_mem, h.root.mem_candidates, ← storedUnder_iff]
  simp only [ownTerms_eq_some]
  constructor
  · rintro ⟨t, ⟨hmem, -⟩, -⟩
    exact hmem
  · exact fun hmem => ⟨q.ordinalise, ⟨hmem, rfl⟩, Term.agreesUntil_self _⟩

private theorem get?_iff (h : p.Holds stored) (q : Term) (a : α) :
    p.get? q = some a ↔ ∃ k, (k, a) ∈ stored ∧ k.RenamesTo q := by
  have hlookup : p.get? q = p.values.lookup q.ordinalise := by
    rw [get?]
    split
    next => rfl
    next hno =>
      rw [h.contains_iff, ← h.isSome_lookup_iff, Option.not_isSome_iff_eq_none] at hno
      exact hno.symm
  rw [hlookup, h.lookup_iff]
  constructor
  · rintro ⟨e, he, hk, rfl⟩
    exact ⟨e.1, he, Term.ordinalise_eq_iff.mp hk⟩
  · rintro ⟨k, hk, hren⟩
    exact ⟨(k, a), hk, Term.ordinalise_eq_iff.mpr hren, rfl⟩

private theorem instances_perm (h : p.Holds stored) (q : Term) :
    (p.instances q).Perm ((stored.filter fun e => e.1.isInstanceOf q).map Prod.snd) := by
  have hneeded : ∀ k : Term, k.isInstanceOf q.ordinalise = true →
      Term.AgreesUntil (Position.StopsAtQuery true) q.ordinalise k :=
    fun k hk => Term.agreesUntil_instance (fun _ _ => rfl) hk
  have hperm := h.values_perm h.root.nodup_candidates (fun _ => h.root.mem_candidates) hneeded
  simp only [Term.isInstanceOf_ordinalise] at hperm
  exact hperm

private theorem generalisations_perm (h : p.Holds stored) (q : Term) :
    (p.generalisations q).Perm ((stored.filter fun e => q.isInstanceOf e.1).map Prod.snd) := by
  have hneeded : ∀ k : Term, q.ordinalise.isInstanceOf k = true →
      Term.AgreesUntil Position.StopsAtKey q.ordinalise k :=
    fun k hk => Term.agreesUntil_generalisation (fun _ _ => rfl) hk
  have hperm := h.values_perm h.root.nodup_generals (fun _ => h.root.mem_generals) hneeded
  simp only [Term.isInstanceOf_ordinalise] at hperm
  exact hperm

end Holds

private theorem holds_fill (calls : List (Term × α)) :
    (TermIndex.fill calls : PathTree α).Holds (keepAll calls) :=
  TermIndex.fill_invariant (P := Holds) holds_empty
    (fun _ _ _ a h ht => h.add_of_storedUnder ht a) (fun _ _ _ a h ht => h.add ht a) calls

/-- A tree that has been filled answers like a search through what is stored. -/
theorem exact_fill (calls : List (Term × α)) :
    TermIndex.Exact (TermIndex.fill calls : PathTree α) (keepAll calls) where
  distinct := pairwise_keepAll calls
  size := by
    show (TermIndex.fill calls : PathTree α).values.length = _
    rw [(holds_fill calls).values, List.length_map]
  add t a := by
    refine ⟨fun ht => (holds_fill calls).add_of_storedUnder ht a, fun ht => ?_⟩
    obtain ⟨p', hadd, -⟩ := (holds_fill calls).add ht a
    exact ⟨p', hadd⟩
  contains := (holds_fill calls).contains_iff
  get? := (holds_fill calls).get?_iff
  instances := (holds_fill calls).instances_perm
  generalisations := (holds_fill calls).generalisations_perm

end PathTree

/-! ## Section 3: Path trees are exact -/

/-- A path tree that has been offered values answers like a search through what is stored, and so it
    agrees with the discrimination tree that has been offered the same values. -/
theorem pathTree_exact {α : Type} (calls : List (Term × α)) :
    let p : PathTree α := TermIndex.fill calls
    let d : DiscriminationTree α := TermIndex.fill calls
    TermIndex.Exact p (keepAll calls) ∧
      ∀ q, p.contains q = d.contains q ∧ p.get? q = d.get? q ∧
        (p.instances q).Perm (d.instances q) ∧ (p.generalisations q).Perm (d.generalisations q) := by
  have hp := PathTree.exact_fill calls
  have hd := DiscriminationTree.exact_fill calls
  refine ⟨hp, fun q => ⟨?_, hp.perm hd q⟩⟩
  rw [Bool.eq_iff_iff]
  exact (hp.contains q).trans (hd.contains q).symm

end Clausal
