import Clausal.Proofs.Index.Retrieval

/-!
# The shape of a feature vector index

Entries of an index are stored and dropped along paths through its trie.  Nodes are made on the way
to a new entry before it is known whether the entry is refused, and they are dropped on the way back
from an entry that is gone.  Whatever the order of calls, no node is left behind without entries or
children, every entry is at the node of its clause's vector, and no two entries of a node are
variants.

Storing an entry is refused if a variant of its clause is there, and then the nodes on the way were
there as well, so that nothing changes.

## Main definitions

- `Trie.NodeAt`: the nodes of a trie, with the keys that lead to them
- `Trie.Tight`: every node below the root has an entry or a child
- `FeatureScheme.IsPathOf`: the components of a vector that are not zero, in order
- `FeatureIndex.WellFormed`: what holds at every node of an index
- `IndexCall`, `IndexCall.run`: one call that may change an index

## Main statements

- `Trie.Tight.alter`, `Trie.Tight.prune`: what storing and dropping an entry does to the nodes
- `FeatureIndex.Shaped.run`: what one call keeps
- `feature_trie_well_formed`: what holds after any sequence of calls
-/

namespace Clausal

open scoped List

/-! ## Section 1: Nodes of a trie -/

section Nodes

variable {κ ε β : Type}

/-- The nodes of a trie, each with the keys that lead to it. -/
inductive Trie.NodeAt : Trie κ ε → List κ → Trie κ ε → Prop
  | root (t : Trie κ ε) : NodeAt t [] t
  | child {t c n : Trie κ ε} {k : κ} {p : List κ} (hc : (k, c) ∈ t.children.toList)
      (hn : NodeAt c p n) : NodeAt t (k :: p) n

/-- What is stored at a node is among the items, under the keys that lead to it. -/
theorem Trie.NodeAt.sublist_items {t n : Trie κ (List β)} {p : List κ} (h : t.NodeAt p n) :
    (n.entry.map fun b => (p, b)) <+ t.items := by
  induction h with
  | root t => exact List.sublist_append_left _ _
  | @child t c n k p hc _ ih =>
    have hunder : (n.entry.map fun b => (k :: p, b)) <+ itemsUnder k c.items := by
      have hbelow := ih.map fun i => (k :: i.1, i.2)
      rwa [List.map_map] at hbelow
    have hchildren : itemsUnder k c.items <+ t.children.items := by
      obtain ⟨before, after, hsplit⟩ := List.append_of_mem hc
      rw [Forest.items_eq_flatMap, hsplit, List.flatMap_append, List.flatMap_cons]
      exact (List.sublist_append_left _ _).trans (List.sublist_append_right _ _)
    exact hunder.trans (hchildren.trans (List.sublist_append_right _ _))

/-- A node that is there for a reason: it has an entry or a child. -/
def Trie.Occupied (n : Trie κ (List β)) : Prop :=
  n.entry ≠ [] ∨ n.children.isNil = false

/-- Every node below the root has an entry or a child. -/
def Trie.Tight (t : Trie κ (List β)) : Prop :=
  ∀ p n, t.NodeAt p n → p ≠ [] → n.Occupied

theorem Trie.tight_iff {t : Trie κ (List β)} :
    t.Tight ↔ ∀ k c, (k, c) ∈ t.children.toList → c.Occupied ∧ c.Tight := by
  constructor
  · intro h k c hc
    refine ⟨h [k] c (.child hc (.root c)) (List.cons_ne_nil _ _), fun p n hn _ => ?_⟩
    exact h (k :: p) n (.child hc hn) (List.cons_ne_nil _ _)
  · intro h p n hn hp
    cases hn with
    | root => exact absurd rfl hp
    | child hc hn =>
      obtain ⟨hoccupied, htight⟩ := h _ _ hc
      cases hn with
      | root => exact hoccupied
      | child hc' hn' => exact htight _ _ (.child hc' hn') (List.cons_ne_nil _ _)

theorem Trie.tight_leaf (es : List β) : (leaf es : Trie κ (List β)).Tight :=
  tight_iff.mpr fun _ _ hc => absurd hc List.not_mem_nil

variable [BEq κ]

namespace Forest

variable {F : Forest κ ε} {k k' : κ} {c : Trie κ ε}

theorem mem_toList_of_find? [LawfulBEq κ] (h : F.find? k = some c) : (k, c) ∈ F.toList := by
  induction F with
  | nil => cases h
  | cons key e below rest _ ih =>
    unfold find? at h
    split at h
    next hkey =>
      obtain rfl := Option.some.inj h
      rw [eq_of_beq hkey]
      exact List.mem_cons_self
    next => exact List.mem_cons_of_mem _ (ih h)

/-- After a change, a child was there before or is the one that was changed. -/
theorem of_mem_toList_alter {f : Option (Trie κ ε) → Option (Trie κ ε)}
    (h : (k', c) ∈ (F.alter k f).toList) : (k', c) ∈ F.toList ∨ f (F.find? k) = some c := by
  induction F with
  | nil =>
    unfold alter at h
    split at h
    next => exact Or.inl h
    next c' hc' =>
      obtain ⟨-, rfl⟩ := Prod.mk.inj (List.mem_singleton.mp h)
      exact Or.inr hc'
  | cons key e below rest _ ih =>
    unfold alter at h
    unfold find?
    split at h
    next hkey =>
      rw [if_pos hkey]
      split at h
      next => exact Or.inl (List.mem_cons_of_mem _ h)
      next c' hc' =>
        rcases List.mem_cons.mp h with heq | h
        · obtain ⟨-, rfl⟩ := Prod.mk.inj heq
          exact Or.inr hc'
        · exact Or.inl (List.mem_cons_of_mem _ h)
    next hkey =>
      rw [if_neg hkey]
      rcases List.mem_cons.mp h with heq | h
      · exact Or.inl (heq ▸ List.mem_cons_self)
      · exact (ih h).imp_left (List.mem_cons_of_mem _)

private theorem isNil_alter_some (F : Forest κ ε) (k : κ) (u : Option (Trie κ ε) → Trie κ ε) :
    (F.alter k fun c => some (u c)).isNil = false := by
  cases F with
  | nil => rfl
  | cons key e below rest =>
    unfold alter
    split <;> rfl

theorem not_mem_keys_of_find? [LawfulBEq κ] (h : F.find? k = none) : k ∉ F.toList.map Prod.fst := by
  induction F with
  | nil => exact List.not_mem_nil
  | cons key e below rest _ ih =>
    unfold find? at h
    split at h
    next => cases h
    next hkey =>
      exact List.not_mem_cons_of_ne_of_not_mem (Ne.symm fun heq => hkey (beq_of_eq heq)) (ih h)

private theorem Unique.nodup_keys [LawfulBEq κ] {F : Forest κ (List β)} (h : F.Unique) :
    (F.toList.map Prod.fst).Nodup := by
  induction F with
  | nil => exact List.nodup_nil
  | cons key e below rest _ ih =>
    exact List.nodup_cons.mpr ⟨not_mem_keys_of_find? h.1, ih h.2.2⟩

private theorem Unique.of_mem_toList {F : Forest κ (List β)} {c : Trie κ (List β)} (h : F.Unique)
    (hc : (k, c) ∈ F.toList) : c.children.Unique := by
  induction F with
  | nil => cases hc
  | cons key e below rest _ ih =>
    rcases List.mem_cons.mp hc with heq | hc
    · obtain ⟨-, rfl⟩ := Prod.mk.inj heq
      exact h.2.1
    · exact ih h.2.2 hc

end Forest

namespace Trie

variable {t t' : Trie κ (List β)} {p : List κ}

private theorem occupied_alter {f : List β → List β} (hf : ∀ es, f es ≠ []) (t : Trie κ (List β))
    (p : List κ) : (t.alter [] f p).Occupied := by
  cases p with
  | nil => exact Or.inl (hf t.entry)
  | cons k ks => exact Or.inr (Forest.isNil_alter_some _ _ _)

/-- Nodes that are made on the way to an entry have a child, or the entry itself. -/
theorem Tight.alter [LawfulBEq κ] (h : t.Tight) {f : List β → List β} (hf : ∀ es, f es ≠ [])
    (p : List κ) :
    (t.alter [] f p).Tight := by
  -- along the path: the child that is entered is a node of the trie or a new one
  induction p generalizing t with
  | nil => exact tight_iff.mpr fun k c hc => tight_iff.mp h k c hc
  | cons k ks ih =>
    refine tight_iff.mpr fun k' c hc => ?_
    rcases Forest.of_mem_toList_alter hc with hc | hnew
    · exact tight_iff.mp h k' c hc
    · obtain rfl := Option.some.inj hnew
      refine ⟨occupied_alter hf _ ks, ih ?_⟩
      cases hfind : t.children.find? k with
      | none => exact tight_leaf []
      | some c => exact (tight_iff.mp h k c (Forest.mem_toList_of_find? hfind)).2

/-- Nodes that are left without entries and children are dropped. -/
theorem Tight.prune [LawfulBEq κ] (h : t.Tight) {f : List β → Option (List β)}
    (ht : t.prune List.isEmpty f p = some t') : t'.Tight := by
  induction p generalizing t t' with
  | nil =>
    obtain ⟨e, -, rfl⟩ := Option.map_eq_some_iff.mp ht
    exact tight_iff.mpr fun k c hc => tight_iff.mp h k c hc
  | cons k ks ih =>
    unfold Trie.prune at ht
    split at ht
    next => cases ht
    next c hfind =>
      split at ht
      next => cases ht
      next c' hprune =>
        obtain rfl := Option.some.inj ht
        refine tight_iff.mpr fun k' n hn => ?_
        rcases Forest.of_mem_toList_alter hn with hn | hkept
        · exact tight_iff.mp h k' n hn
        · -- the child that was entered is still there, so it was not left empty
          split at hkept
          next => cases hkept
          next hoccupied =>
            obtain rfl := Option.some.inj hkept
            refine ⟨?_, ih (tight_iff.mp h k c (Forest.mem_toList_of_find? hfind)).2 hprune⟩
            rw [Bool.and_eq_true, List.isEmpty_iff, not_and_or, Bool.not_eq_true] at hoccupied
            exact hoccupied

end Trie

theorem Trie.NodeAt.nodup_keys [LawfulBEq κ] {t n : Trie κ (List β)} {p : List κ} (h : t.NodeAt p n)
    (hunique : t.children.Unique) : (n.children.toList.map Prod.fst).Nodup := by
  induction h with
  | root t => exact hunique.nodup_keys
  | child hc _ ih => exact ih (hunique.of_mem_toList hc)

end Nodes

/-! ## Section 2: Invariants of an index -/

/-- The components of a clause's vector that are not zero, in the order of their features. -/
def FeatureScheme.IsPathOf {φ : Type} (s : FeatureScheme φ) (p : List (Component φ)) (c : Clause) :
    Prop :=
  p.Pairwise (fun x y => s.compare x.1 y.1 = .lt) ∧ ∀ x, x ∈ p ↔ x ∈ s.vector c ∧ x.2 ≠ 0

private theorem FeatureScheme.isPathOf_sorted {φ : Type} {s : FeatureScheme φ} (hs : s.Lawful)
    (c : Clause) : s.IsPathOf (s.sorted c) c :=
  ⟨pairwise_sorted hs c, fun _ => mem_sorted⟩

namespace FeatureIndex

variable {φ α : Type} {s : FeatureScheme φ} {ix ix' : FeatureIndex φ α} {c : Clause} {a : α}

/-- What holds at every node of an index: entries are at the path of their clauses, no two of them
    are variants, and a node below the root has an entry or a child.  No two children of a node have
    the same key, so a path leads to one node. -/
structure WellFormed (s : FeatureScheme φ) (ix : FeatureIndex φ α) : Prop where
  keyed : ∀ p n, ix.root.NodeAt p n → ∀ e ∈ n.entry, s.IsPathOf p e.1
  apart : ∀ p n, ix.root.NodeAt p n →
    n.entry.Pairwise fun e k => e.1.isVariantOf k.1 = false ∧ k.1.isVariantOf e.1 = false
  occupied : ∀ p n, ix.root.NodeAt p n → p ≠ [] → n.entry ≠ [] ∨ n.children.isNil = false
  distinct : ∀ p n, ix.root.NodeAt p n → (n.children.toList.map Prod.fst).Nodup

/-- Two entries are not variants of each other, or at least not under the same vector. -/
def Apart (s : FeatureScheme φ) (e k : Clause × α) : Prop :=
  s.sorted e.1 = s.sorted k.1 → e.1.isVariantOf k.1 = false

theorem Apart.symm {e k : Clause × α} (h : Apart s e k) : Apart s k e := by
  intro hsorted
  rw [Clause.isVariantOf_comm]
  exact h hsorted.symm

variable [DecidableEq φ]

/-- The invariant that calls keep, in terms of what the index stores. -/
structure Shaped (s : FeatureScheme φ) (ix : FeatureIndex φ α) : Prop where
  keyed : ix.Keyed s
  unique : ix.root.children.Unique
  tight : ix.root.Tight
  apart : ix.entries.Pairwise (Apart s)

private theorem shaped_empty (s : FeatureScheme φ) : (empty : FeatureIndex φ α).Shaped s where
  keyed := keyed_empty s
  unique := trivial
  tight := Trie.tight_leaf []
  apart := List.Pairwise.nil

private theorem Shaped.wellFormed (hs : s.Lawful) (h : ix.Shaped s) : ix.WellFormed s := by
  have hpath : ∀ p n, ix.root.NodeAt p n → ∀ e ∈ n.entry, p = s.sorted e.1 := by
    intro p n hn e he
    exact h.keyed (p, e) (hn.sublist_items.subset (List.mem_map_of_mem he))
  refine ⟨fun p n hn e he => ?_, fun p n hn => ?_, h.tight, fun p n hn => hn.nodup_keys h.unique⟩
  · rw [hpath p n hn e he]
    exact FeatureScheme.isPathOf_sorted hs e.1
  · -- the entries of a node are among all entries, and they share a path
    have hitems := ((entriesOf_perm ix.root).pairwise_iff Apart.symm).mp h.apart
    have hnode := (List.pairwise_map.mp hitems).sublist hn.sublist_items
    refine (List.pairwise_map.mp hnode).imp_of_mem fun he hk hapart => ?_
    have hfalse := hapart ((hpath p n hn _ he).symm.trans (hpath p n hn _ hk))
    exact ⟨hfalse, Clause.isVariantOf_comm _ _ ▸ hfalse⟩

theorem Shaped.contains_iff (h : ix.Shaped s) : ix.contains s c = true ↔
    ∃ e ∈ ix.entries, e.1.isVariantOf c = true ∧ s.sorted e.1 = s.sorted c := by
  constructor
  · exact h.keyed.exists_of_contains
  · rintro ⟨e, he, hvariant, hsorted⟩
    exact h.keyed.contains_of_mem h.unique he hvariant hsorted

/-! ## Section 3: Calls -/

private theorem Shaped.add (h : ix.Shaped s) (hadd : ix.add s c a = .ok ix') : ix'.Shaped s := by
  obtain ⟨-, hnew, hitems, -, hunique⟩ := add_eq_ok hadd
  refine ⟨h.keyed.add hadd, hunique h.unique, ?_, ?_⟩
  · obtain ⟨-, -, rfl⟩ := add_eq_ok_iff.mp hadd
    exact h.tight.alter (fun es => List.append_ne_nil_of_right_ne_nil es (List.cons_ne_nil _ _)) _
  · -- a variant at the node would have been found
    rw [(entries_perm_cons hitems).pairwise_iff Apart.symm]
    refine List.pairwise_cons.mpr ⟨fun e he hsorted => ?_, h.apart⟩
    by_contra hvariant
    rw [Clause.isVariantOf_comm, Bool.not_eq_false] at hvariant
    rw [h.contains_iff.mpr ⟨e, he, hvariant, hsorted.symm⟩] at hnew
    cases hnew

/-- An entry is refused, and then nothing changes, or it is stored. -/
theorem tryAdd_cases (s : FeatureScheme φ) (ix : FeatureIndex φ α) (c : Clause) (a : α) :
    c.isEmpty = true ∧ ix.tryAdd s c a = (.error .emptyClause, ix) ∨
      c.isEmpty = false ∧ ix.contains s c = true ∧ ix.tryAdd s c a = (.error .present, ix) ∨
      c.isEmpty = false ∧ ix.contains s c = false ∧
        ∃ ix', ix.tryAdd s c a = (.ok (), ix') ∧ ix.add s c a = .ok ix' := by
  rw [tryAdd_eq, add_eq]
  cases c.isEmpty with
  | true => exact Or.inl ⟨rfl, rfl⟩
  | false =>
    right
    cases ix.contains s c with
    | true => exact Or.inl ⟨rfl, rfl, rfl⟩
    | false => exact Or.inr ⟨rfl, rfl, _, rfl, rfl⟩

theorem Shaped.tryAdd (h : ix.Shaped s) (c : Clause) (a : α) : (ix.tryAdd s c a).2.Shaped s := by
  rcases tryAdd_cases s ix c a with ⟨-, hadd⟩ | ⟨-, -, hadd⟩ | ⟨-, -, ix', hadd, hok⟩
  · rwa [hadd]
  · rwa [hadd]
  · rw [hadd]
    exact h.add hok

theorem Shaped.remove (h : ix.Shaped s) (c : Clause) : (ix.remove s c).2.Shaped s := by
  cases hcontains : ix.contains s c with
  | false => rwa [remove_of_not_contains hcontains]
  | true =>
    obtain ⟨ix', hremove⟩ := remove_of_contains hcontains
    obtain ⟨⟨e, -, hitems⟩, -, hunique⟩ := remove_eq_true hremove
    rw [hremove]
    refine ⟨h.keyed.remove hremove, hunique h.unique, ?_, ?_⟩
    · obtain ⟨root, hprune, rfl⟩ := remove_eq_true_iff.mp hremove
      exact h.tight.prune hprune
    · have hpairs := ((entries_perm_cons hitems).pairwise_iff Apart.symm).mp h.apart
      exact (List.pairwise_cons.mp hpairs).2

private theorem Shaped.removeAll (h : ix.Shaped s) (es : Entries α) :
    (es.foldl (fun ix e => (ix.remove s e.1).2) ix).Shaped s := by
  induction es generalizing ix with
  | nil => exact h
  | cons e es ih => exact ih (h.remove e.1)

/-- Also a replacement that is refused after entries have been dropped keeps the invariant. -/
theorem Shaped.replace (h : ix.Shaped s) (c : Clause) (a : α) : (ix.replace s c a).2.Shaped s := by
  have hadded := (h.removeAll (ix.subsumed s c)).tryAdd c a
  unfold FeatureIndex.replace FeatureIndex.replaceAmong
  split
  next => exact h
  next =>
    split
    next => exact h
    next =>
      dsimp only
      split
      next hadd => rwa [hadd] at hadded
      next hadd => rwa [hadd] at hadded

end FeatureIndex

/-- A call that may change an index. -/
inductive IndexCall (α : Type) where
  | add (c : Clause) (a : α)
  | remove (c : Clause)
  | replace (c : Clause) (a : α)

namespace IndexCall

variable {φ α : Type} [DecidableEq φ] {s : FeatureScheme φ} {ix : FeatureIndex φ α}

/-- The index that a call leaves, also if it fails. -/
def run (s : FeatureScheme φ) (ix : FeatureIndex φ α) : IndexCall α → FeatureIndex φ α
  | .add c a => (ix.tryAdd s c a).2
  | .remove c => (ix.remove s c).2
  | .replace c a => (ix.replace s c a).2

private theorem shaped_run (h : ix.Shaped s) (call : IndexCall α) : (run s ix call).Shaped s := by
  cases call with
  | add c a => exact h.tryAdd c a
  | remove c => exact h.remove c
  | replace c a => exact h.replace c a

private theorem shaped_foldl_run (h : ix.Shaped s) (calls : List (IndexCall α)) :
    (calls.foldl (run s) ix).Shaped s := by
  induction calls generalizing ix with
  | nil => exact h
  | cons call calls ih => exact ih (shaped_run h call)

end IndexCall

/-! ## Section 4: Sequences of calls -/

/-- After any calls on an empty index, failing ones among them, every node is as it should be.  A
    clause is found if a variant of it is stored under the same vector.  Storing an entry fails for
    the empty clause and for a clause that is found, and then changes nothing; otherwise it adds the
    entry.  Dropping a clause succeeds if it is found, and takes away one entry, that of a
    variant; otherwise it changes nothing. -/
theorem feature_trie_well_formed {φ α : Type} [DecidableEq φ] (s : FeatureScheme φ)
    (hs : s.Lawful) (calls : List (IndexCall α)) (ix : FeatureIndex φ α)
    (hix : calls.foldl (IndexCall.run s) .empty = ix) :
    ix.WellFormed s ∧
      (∀ c, ix.contains s c = true ↔
        ∃ e ∈ ix.entries, e.1.isVariantOf c = true ∧ s.sorted e.1 = s.sorted c) ∧
      (∀ c a, c.isEmpty = true ∧ ix.tryAdd s c a = (.error .emptyClause, ix) ∨
        c.isEmpty = false ∧ ix.contains s c = true ∧ ix.tryAdd s c a = (.error .present, ix) ∨
        c.isEmpty = false ∧ ix.contains s c = false ∧
          ∃ ix', ix.tryAdd s c a = (.ok (), ix') ∧ ix'.entries ~ (c, a) :: ix.entries) ∧
      ∀ c, ix.contains s c = false ∧ ix.remove s c = (false, ix) ∨
        ix.contains s c = true ∧ ∃ e ix', ix.remove s c = (true, ix') ∧
          e.1.isVariantOf c = true ∧ ix.entries ~ e :: ix'.entries ∧ ix'.size + 1 = ix.size := by
  have hshaped : ix.Shaped s := by
    rw [← hix]
    exact IndexCall.shaped_foldl_run (FeatureIndex.shaped_empty s) calls
  refine ⟨hshaped.wellFormed hs, fun c => hshaped.contains_iff, fun c a => ?_, fun c => ?_⟩
  · refine (FeatureIndex.tryAdd_cases s ix c a).imp_right (Or.imp_right ?_)
    rintro ⟨hempty, hnew, ix', hadd, hok⟩
    obtain ⟨-, -, hitems, -, -⟩ := FeatureIndex.add_eq_ok hok
    exact ⟨hempty, hnew, ix', hadd, FeatureIndex.entries_perm_cons hitems⟩
  · cases hcontains : ix.contains s c with
    | false => exact Or.inl ⟨rfl, FeatureIndex.remove_of_not_contains hcontains⟩
    | true =>
      obtain ⟨ix', hremove⟩ := FeatureIndex.remove_of_contains hcontains
      obtain ⟨⟨e, he, hitems⟩, -, -⟩ := FeatureIndex.remove_eq_true hremove
      have hperm := FeatureIndex.entries_perm_cons hitems
      exact Or.inr ⟨rfl, e, ix', hremove, he, hperm, hperm.length_eq.symm⟩

/-- The clause `p(x)`. -/
def ofVariable (x : String) : Clause :=
  .ofList [⟨true, .pred (.name "p") [.var (.name x)]⟩]

/-- The variant `p(Y)` of `p(X)` is refused, but it can be used to drop the entry. -/
theorem feature_trie_well_formed_variants :
    ∃ ix ix' : FeatureIndex Feature Nat,
      [IndexCall.add (ofVariable "X") 1, .add (ofVariable "Y") 2].foldl
          (IndexCall.run .occurrences) .empty = ix ∧
        ix.WellFormed .occurrences ∧ ix.entries = [(ofVariable "X", 1)] ∧
        ix.remove .occurrences (ofVariable "Y") = (true, ix') ∧ ix'.size = 0 := by
  have hlawful := FeatureScheme.lawful_occurrences
  have hvariant : (ofVariable "X").isVariantOf (ofVariable "Y") = true := by decide +kernel
  have hsorted : FeatureScheme.occurrences.sorted (ofVariable "X") =
      FeatureScheme.occurrences.sorted (ofVariable "Y") := by
    have hvector : FeatureScheme.occurrences.vector (ofVariable "X") =
        FeatureScheme.occurrences.vector (ofVariable "Y") := by decide +kernel
    rw [FeatureScheme.sorted, FeatureScheme.sorted, hvector]
  -- the first clause is stored
  obtain ⟨-, hfind, hadd, -⟩ := feature_trie_well_formed .occurrences hlawful []
    (.empty : FeatureIndex Feature Nat) rfl
  obtain ⟨hempty, -⟩ | ⟨-, hfound, -⟩ | ⟨-, -, ix, hfirst, hperm⟩ := hadd (ofVariable "X") 1
  · exact absurd hempty (by decide +kernel)
  · obtain ⟨e, he, -⟩ := (hfind _).mp hfound
    cases he
  have hentries : ix.entries = [(ofVariable "X", 1)] := List.perm_singleton.mp hperm
  -- the second is found, and so it is refused
  have hrun : [IndexCall.add (ofVariable "X") 1].foldl (IndexCall.run .occurrences) .empty = ix :=
    congrArg Prod.snd hfirst
  obtain ⟨-, hfind, hadd, -⟩ := feature_trie_well_formed .occurrences hlawful _ ix hrun
  have hfound : ix.contains .occurrences (ofVariable "Y") = true :=
    (hfind _).mpr ⟨_, hentries ▸ List.mem_cons_self, hvariant, hsorted⟩
  have hsecond : ix.tryAdd .occurrences (ofVariable "Y") 2 = (.error .present, ix) := by
    obtain ⟨hempty, -⟩ | ⟨-, -, hsecond⟩ | ⟨-, hnew, -⟩ := hadd (ofVariable "Y") 2
    · exact absurd hempty (by decide +kernel)
    · exact hsecond
    · exact absurd (hfound.symm.trans hnew) (by decide)
  have hrun : [IndexCall.add (ofVariable "X") 1, .add (ofVariable "Y") 2].foldl
      (IndexCall.run .occurrences) .empty = ix := by
    have hlast : IndexCall.run .occurrences ix (.add (ofVariable "Y") 2) = ix :=
      congrArg Prod.snd hsecond
    rw [← hrun] at hlast
    exact hlast.trans hrun
  -- the entry is dropped by way of the second
  obtain ⟨hwellFormed, -, -, hremove⟩ := feature_trie_well_formed .occurrences hlawful _ ix hrun
  obtain ⟨hnew, -⟩ | ⟨-, e, ix', hremove, -, -, hsize⟩ := hremove (ofVariable "Y")
  · exact absurd (hfound.symm.trans hnew) (by decide)
  · refine ⟨ix, ix', hrun, hwellFormed, hentries, hremove, ?_⟩
    have hone : ix.size = 1 := congrArg List.length hentries
    omega

end Clausal
