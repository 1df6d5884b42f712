import Clausal.Proofs.Index.Alignment
import Clausal.Proofs.Index.TermIndex
import Clausal.Proofs.Index.Trie

/-!
# Discrimination trees answer like plain search

The paths of a discrimination tree are the sequences of symbols of the stored terms.  A walk finds the
values at the end of the paths that it follows, and whether it follows a path depends on that path
alone; so it finds what a search through all stored terms finds.

Every path spells one term.  So a node has a value exactly if it has no children, and a walk that is
through with the query is at such a node.  To say that walks do not go wrong, they are repeated with
checks: it is a fault to ask for a symbol of the query when there is none left, and to stop at a node
that has children or no value.

## Main definitions

- `Forest.Spelled`: all paths below a node spell the terms that are still open
- `DiscriminationTree.Holds`: what a tree stores
- `WalkFault`, `DiscriminationTree.checkedInstances`, `DiscriminationTree.checkedGeneralisations`

## Main statements

- `DiscriminationTree.instances_eq`, `DiscriminationTree.generalisations_eq`: what walks find
- `DiscriminationTree.Holds.add`, `DiscriminationTree.Holds.store`: one more value
- `DiscriminationTree.exact_fill`: a tree answers like a search through what is stored
- `discriminationTree_exact`: the same, and walks never go wrong
-/

namespace Clausal

variable {α : Type}

/-! ## Section 1: What walks find -/

namespace DiscriminationTree

/-- The paths to the values of a tree, with the values. -/
def items (d : DiscriminationTree α) : List (List Element × α) :=
  (d.root.map Option.toList).items

/-- A walk for instances finds the values whose paths meet the query, in the order of the tree. -/
theorem instancesIn_eq (F : Forest Element (Option α)) (target : Target) (query : List Element)
    (b : ElementBindings) : instancesIn F target query b =
      ((F.map Option.toList).items.filter fun i => meets target query b i.1).map Prod.snd := by
  induction F generalizing target query b with
  | nil => rfl
  | cons key entry below rest ihbelow ihrest =>
    -- what is found below the first key, and then below the other keys
    rw [Forest.map, Forest.items_cons, List.filter_append, List.map_append, filter_itemsUnder,
      map_snd_itemsUnder, ← ihrest]
    cases hstep : target.step b key with
    | none => simp [instancesIn, meets_cons, hstep]
    | some next =>
      obtain ⟨target?, b'⟩ := next
      cases target? with
      | some target' =>
        simp only [instancesIn, meets_cons, hstep, ihbelow]
        rw [Trie.filter_items_of_nil (p := meets target' query b') rfl]
      | none =>
        cases query with
        | nil =>
          simp only [instancesIn, meets_cons, hstep, meetsAll]
          rw [Trie.map_snd_filter_isEmpty]
        | cons e query =>
          simp only [instancesIn, meets_cons, hstep, meetsAll, ihbelow]
          rw [Trie.filter_items_of_nil (p := meets (.ofElement e) query b') rfl]

/-- A walk for generalisations finds the values whose paths lead through the query. -/
theorem generalisationsIn_eq (F : Forest Element (Option α)) (query : List Element)
    (b : ElementBindings) : generalisationsIn F query b =
      ((F.map Option.toList).items.filter fun i => covers query b i.1).map Prod.snd := by
  induction F generalizing query b with
  | nil => rfl
  | cons key entry below rest ihbelow ihrest =>
    rw [Forest.map, Forest.items_cons, List.filter_append, List.map_append, filter_itemsUnder,
      map_snd_itemsUnder, ← ihrest]
    cases hafter : afterKey? key query b with
    | none => simp [generalisationsIn, covers_cons, hafter]
    | some next =>
      obtain ⟨query', b'⟩ := next
      cases query' with
      | nil =>
        simp only [generalisationsIn, covers_cons, hafter, coversAll]
        rw [Trie.map_snd_filter_isEmpty]
      | cons e query' =>
        simp only [generalisationsIn, covers_cons, hafter, coversAll, ihbelow]
        rw [Trie.filter_items_of_nil (p := covers (e :: query') b') rfl]

theorem exists_elements_eq (t : Term) : ∃ e es, t.elements = e :: es := by
  refine List.exists_cons_of_ne_nil fun h => ?_
  have := t.spells_elements
  rw [h] at this
  exact this

theorem instances_eq (d : DiscriminationTree α) (q : Term) : d.instances q =
    (d.items.filter fun i => meetsAll q.elements [] i.1).map Prod.snd := by
  obtain ⟨e, es, hq⟩ := exists_elements_eq q
  rw [instances, hq, items]
  simp only [meetsAll]
  rw [Trie.filter_items_of_nil (p := meets (.ofElement e) es []) rfl]
  exact instancesIn_eq _ _ _ _

theorem generalisations_eq (d : DiscriminationTree α) (q : Term) : d.generalisations q =
    (d.items.filter fun i => coversAll q.elements [] i.1).map Prod.snd := by
  obtain ⟨e, es, hq⟩ := exists_elements_eq q
  rw [generalisations, hq, items]
  simp only [coversAll]
  rw [Trie.filter_items_of_nil (p := covers (e :: es) []) rfl]
  exact generalisationsIn_eq _ _ _

end DiscriminationTree

/-! ## Section 2: Paths that spell terms -/

/-- All paths spell `n` terms: a child at which the last of them ends has a value and no children,
    and any other child has no value. -/
def Forest.Spelled : Nat → Forest Element (Option α) → Prop
  | _, .nil => True
  | n, .cons key entry below rest =>
    (n + key.arity = 1 → entry.isSome = true ∧ below.isNil = true) ∧
    (n + key.arity ≠ 1 → entry = none ∧ below.Spelled (n + key.arity - 1)) ∧
    rest.Spelled n

namespace Forest

variable {n : Nat} {F : Forest Element (Option α)}

theorem Spelled.find? (h : F.Spelled n) {e : Element} {c : Trie Element (Option α)}
    (hc : F.find? e = some c) :
    (n + e.arity = 1 → c.entry.isSome = true ∧ c.children.isNil = true) ∧
      (n + e.arity ≠ 1 → c.entry = none ∧ c.children.Spelled (n + e.arity - 1)) := by
  induction F with
  | nil => simp [Forest.find?] at hc
  | cons key entry below rest _ ih =>
    obtain ⟨hlast, hopen, hrest⟩ := h
    unfold Forest.find? at hc
    split at hc
    next hkey =>
      obtain rfl := Option.some.inj hc
      obtain rfl := eq_of_beq hkey
      exact ⟨hlast, hopen⟩
    next => exact ih hrest hc

private theorem Spelled.alter (h : F.Spelled n) {e : Element}
    {f : Option (Trie Element (Option α)) → Option (Trie Element (Option α))}
    (hf : ∀ c, f (F.find? e) = some c →
      (n + e.arity = 1 → c.entry.isSome = true ∧ c.children.isNil = true) ∧
        (n + e.arity ≠ 1 → c.entry = none ∧ c.children.Spelled (n + e.arity - 1))) :
    (F.alter e f).Spelled n := by
  induction F with
  | nil =>
    unfold Forest.alter
    split
    next => trivial
    next c hc => exact ⟨(hf c hc).1, (hf c hc).2, trivial⟩
  | cons key entry below rest _ ih =>
    obtain ⟨hlast, hopen, hrest⟩ := h
    unfold Forest.alter
    unfold Forest.find? at hf
    split
    next hkey =>
      rw [if_pos hkey] at hf
      obtain rfl := eq_of_beq hkey
      split
      next => exact hrest
      next c hc => exact ⟨(hf c hc).1, (hf c hc).2, hrest⟩
    next hkey =>
      rw [if_neg hkey] at hf
      exact ⟨hlast, hopen, ih hrest hf⟩

end Forest

namespace Trie

variable {n : Nat} {t : Trie Element (Option α)} {p : List Element}

/-- What is found at the end of as many terms as there are open is a value. -/
theorem isSome_of_get? (h : t.children.Spelled n) (hn : 0 < n) (hp : Spells n p)
    {entry : Option α} (hget : t.get? p = some entry) : entry.isSome = true := by
  induction p generalizing t n with
  | nil =>
    cases n with
    | zero => simp at hn
    | succ n => exact hp.elim
  | cons e p ih =>
    obtain ⟨m, rfl⟩ : ∃ m, n = m + 1 := ⟨n - 1, by omega⟩
    have hp : Spells (m + e.arity) p := hp
    unfold get? at hget
    cases hfind : t.children.find? e with
    | none => simp [hfind] at hget
    | some c =>
      rw [hfind] at hget
      obtain ⟨hlast, hopen⟩ := h.find? hfind
      by_cases hend : m + 1 + e.arity = 1
      · have hzero : m + e.arity = 0 := by omega
        rw [hzero] at hp
        obtain rfl := spells_zero.mp hp
        obtain rfl : c.entry = entry := Option.some.inj hget
        exact (hlast hend).1
      · have hcount : m + 1 + e.arity - 1 = m + e.arity := by omega
        have hbelow := (hopen hend).2
        rw [hcount] at hbelow
        exact ih hbelow (by omega) hp hget

/-- A value is put at the end of as many terms as there are open. -/
theorem spelled_alter (h : t.children.Spelled n) (hn : 0 < n) (hp : Spells n p) (a : α) :
    (t.alter none (fun _ => some a) p).children.Spelled n := by
  induction p generalizing t n with
  | nil => exact h
  | cons e p ih =>
    obtain ⟨m, rfl⟩ : ∃ m, n = m + 1 := ⟨n - 1, by omega⟩
    have hp : Spells (m + e.arity) p := hp
    have hcount : m + 1 + e.arity - 1 = m + e.arity := by omega
    apply h.alter
    rintro c hc
    obtain rfl := Option.some.inj hc
    -- the child that is changed is there already or is new and empty
    have hchild : (m + 1 + e.arity = 1 →
          ((t.children.find? e).getD (leaf none)).children.isNil = true) ∧
        (m + 1 + e.arity ≠ 1 → ((t.children.find? e).getD (leaf none)).entry = none ∧
          ((t.children.find? e).getD (leaf none)).children.Spelled (m + e.arity)) := by
      cases hfind : t.children.find? e with
      | none => exact ⟨fun _ => rfl, fun _ => ⟨rfl, trivial⟩⟩
      | some c =>
        obtain ⟨hlast, hopen⟩ := h.find? hfind
        rw [hcount] at hopen
        exact ⟨fun hend => (hlast hend).2, hopen⟩
    refine ⟨fun hend => ?_, fun hopen => ?_⟩
    · have hzero : m + e.arity = 0 := by omega
      rw [hzero] at hp
      obtain rfl := spells_zero.mp hp
      exact ⟨rfl, hchild.1 hend⟩
    · obtain ⟨hentry, hbelow⟩ := hchild.2 hopen
      have hpos : 0 < m + e.arity := by omega
      refine ⟨?_, hcount ▸ ih hbelow hpos hp⟩
      cases p with
      | nil =>
        obtain ⟨k, hk⟩ : ∃ k, m + e.arity = k + 1 := ⟨m + e.arity - 1, by omega⟩
        rw [hk] at hp
        exact hp.elim
      | cons e' p => exact hentry

end Trie

/-! ## Section 3: What a tree stores -/

namespace DiscriminationTree

/-- A tree stores the given values under the given terms: its paths are the symbols of the terms, no
    node has two children with the same symbol, and values stand where terms end. -/
structure Holds (d : DiscriminationTree α) (stored : List (Term × α)) : Prop where
  unique : (d.root.map Option.toList).children.Unique
  spelled : d.root.children.Spelled 1
  items : d.items.Perm (stored.map fun e => (e.1.elements, e.2))
  size : d.size = stored.length

private theorem holds_empty : (empty : DiscriminationTree α).Holds [] where
  unique := trivial
  spelled := trivial
  items := List.Perm.refl _
  size := rfl

namespace Holds

variable {d : DiscriminationTree α} {stored : List (Term × α)}

private theorem mem_items_iff (h : d.Holds stored) {p : List Element} {a : α} :
    (p, a) ∈ d.items ↔ d.root.get? p = some (some a) := by
  constructor
  · intro hmem
    obtain ⟨es, hes, ha⟩ := Trie.exists_get?_of_mem_items h.unique hmem
    rw [Trie.get?_map] at hes
    obtain ⟨entry, hentry, rfl⟩ := Option.map_eq_some_iff.mp hes
    rw [hentry, Option.mem_toList.mp ha]
  · intro hget
    have hes : (d.root.map Option.toList).get? p = some [a] := by
      rw [Trie.get?_map, hget]
      rfl
    exact Trie.mem_items_of_get? hes List.mem_cons_self

/-- What is found under a term is stored under a renaming of it. -/
theorem get?_root_iff (h : d.Holds stored) {q : Term} {a : α} :
    d.root.get? q.elements = some (some a) ↔ ∃ k, (k, a) ∈ stored ∧ k.RenamesTo q := by
  rw [← h.mem_items_iff, h.items.mem_iff, List.mem_map]
  constructor
  · rintro ⟨⟨k, a'⟩, hmem, heq⟩
    obtain ⟨hk, rfl⟩ := Prod.mk.inj heq
    exact ⟨k, hmem, Term.elements_eq_iff.mp hk⟩
  · rintro ⟨k, hmem, hk⟩
    exact ⟨(k, a), hmem, Prod.ext (Term.elements_eq_iff.mpr hk) rfl⟩

/-- There is a value wherever the symbols of a term lead. -/
theorem exists_value (h : d.Holds stored) {q : Term} {entry : Option α}
    (hget : d.root.get? q.elements = some entry) : ∃ a, entry = some a :=
  Option.isSome_iff_exists.mp (Trie.isSome_of_get? h.spelled Nat.one_pos q.spells_elements hget)

theorem contains_iff (h : d.Holds stored) (q : Term) :
    d.contains q = true ↔ StoredUnder stored q := by
  rw [contains, Option.isSome_iff_exists]
  constructor
  · rintro ⟨entry, hget⟩
    obtain ⟨a, rfl⟩ := h.exists_value hget
    obtain ⟨k, hmem, hk⟩ := h.get?_root_iff.mp hget
    exact ⟨(k, a), hmem, hk⟩
  · rintro ⟨⟨k, a⟩, hmem, hk⟩
    exact ⟨some a, h.get?_root_iff.mpr ⟨k, hmem, hk⟩⟩

private theorem get?_iff (h : d.Holds stored) (q : Term) (a : α) :
    d.get? q = some a ↔ ∃ k, (k, a) ∈ stored ∧ k.RenamesTo q := by
  rw [get?, Option.join_eq_some_iff, h.get?_root_iff]

private theorem instances_perm (h : d.Holds stored) (q : Term) : (d.instances q).Perm
    ((stored.filter fun e => e.1.isInstanceOf q).map Prod.snd) := by
  rw [instances_eq]
  refine ((h.items.filter _).map Prod.snd).trans (List.Perm.of_eq ?_)
  rw [List.filter_map, List.map_map]
  exact congrArg (List.map Prod.snd) (List.filter_congr fun e _ => meetsAll_elements q e.1)

private theorem generalisations_perm (h : d.Holds stored) (q : Term) : (d.generalisations q).Perm
    ((stored.filter fun e => q.isInstanceOf e.1).map Prod.snd) := by
  rw [generalisations_eq]
  refine ((h.items.filter _).map Prod.snd).trans (List.Perm.of_eq ?_)
  rw [List.filter_map, List.map_map]
  exact congrArg (List.map Prod.snd) (List.filter_congr fun e _ => coversAll_elements q e.1)

/-- A value that is refused leaves the tree as it was, though its path is walked to the end. -/
theorem store_of_storedUnder (h : d.Holds stored) {t : Term} (ht : StoredUnder stored t) (a : α) :
    d.store t a = (false, d) := by
  obtain ⟨entry, hget⟩ := Option.isSome_iff_exists.mp ((h.contains_iff t).mpr ht)
  obtain ⟨e, es, hes⟩ := exists_elements_eq t
  have hne : t.elements ≠ [] := by simp [hes]
  have hplace : d.root.place none (some a) t.elements = (false, d.root) :=
    Trie.place_of_get?_eq_some hne hget
  rw [store, hplace]
  rfl

/-- A value that is not refused is stored beside the others. -/
theorem store (h : d.Holds stored) {t : Term} (ht : ¬ StoredUnder stored t) (a : α) :
    (d.store t a).1 = true ∧ (d.store t a).2.Holds (stored ++ [(t, a)]) := by
  have hget : d.root.get? t.elements = none := by
    by_contra hsome
    exact ht ((h.contains_iff t).mp (Option.isSome_iff_ne_none.mpr hsome))
  have hplace : d.root.place none (some a) t.elements =
      (true, d.root.alter none (fun _ => some a) t.elements) := Trie.place_of_get?_eq_none hget
  have hmap : (d.root.alter none (fun _ => some a) t.elements).map Option.toList =
      (d.root.map Option.toList).alter [] (· ++ [a]) t.elements :=
    Trie.map_alter (by rfl) (by simp [hget])
  rw [DiscriminationTree.store, hplace]
  refine ⟨rfl, ?_, ?_, ?_, ?_⟩
  · show ((d.root.alter none (fun _ => some a) t.elements).map Option.toList).children.Unique
    rw [hmap]
    exact Trie.unique_alter h.unique _ _ _
  · exact Trie.spelled_alter h.spelled Nat.one_pos t.spells_elements a
  · show ((d.root.alter none (fun _ => some a) t.elements).map Option.toList).items.Perm _
    rw [hmap, List.map_append]
    refine (Trie.items_alter _ _ a).trans ((h.items.cons _).trans ?_)
    exact (List.perm_append_singleton _ _).symm
  · show d.size + 1 = (stored ++ [(t, a)]).length
    rw [h.size, List.length_append]
    rfl

theorem add_of_storedUnder (h : d.Holds stored) {t : Term} (ht : StoredUnder stored t) (a : α) :
    d.add t a = .error .present := by
  rw [add, h.store_of_storedUnder ht]
  rfl

theorem add (h : d.Holds stored) {t : Term} (ht : ¬ StoredUnder stored t) (a : α) :
    ∃ d', d.add t a = .ok d' ∧ d'.Holds (stored ++ [(t, a)]) := by
  obtain ⟨hstored, hholds⟩ := h.store ht a
  exact ⟨(d.store t a).2, if_pos hstored, hholds⟩

end Holds

theorem holds_fill (calls : List (Term × α)) :
    (TermIndex.fill calls : DiscriminationTree α).Holds (keepAll calls) :=
  TermIndex.fill_invariant (P := Holds) holds_empty
    (fun _ _ _ a h ht => h.add_of_storedUnder ht a) (fun _ _ _ a h ht => h.add ht a) calls

/-- A tree that has been filled answers like a search through what is stored. -/
theorem exact_fill (calls : List (Term × α)) :
    TermIndex.Exact (TermIndex.fill calls : DiscriminationTree α) (keepAll calls) where
  distinct := pairwise_keepAll calls
  size := (holds_fill calls).size
  add t a := by
    refine ⟨fun ht => (holds_fill calls).add_of_storedUnder ht a, fun ht => ?_⟩
    obtain ⟨d', hadd, -⟩ := (holds_fill calls).add ht a
    exact ⟨d', hadd⟩
  contains := (holds_fill calls).contains_iff
  get? := (holds_fill calls).get?_iff
  instances := (holds_fill calls).instances_perm
  generalisations := (holds_fill calls).generalisations_perm

end DiscriminationTree

/-! ## Section 4: Walks with checks -/

/-- What a walk may do wrong. -/
inductive WalkFault where
  /-- It asks for a symbol of the query when none is left. -/
  | pastEnd
  /-- It stops at a node that has children or no value. -/
  | interior
  deriving DecidableEq, Repr

/-- The first terms that a sequence of symbols spells, and what follows them, read symbol by
    symbol. -/
def readTerms : Nat → List Element → Except WalkFault (List Element × List Element)
  | 0, es => .ok ([], es)
  | _ + 1, [] => .error .pastEnd
  | n + 1, e :: es => do
    let (taken, rest) ← readTerms (n + e.arity) es
    return (e :: taken, rest)

/-- What is left of a query after a key on the way, where the query is read symbol by symbol. -/
def checkedAfterKey (key : Element) (query : List Element) (b : ElementBindings) :
    Except WalkFault (Option (List Element × ElementBindings)) :=
  match key, query with
  | _, [] => .error .pastEnd
  | .variable k, query => do
    let (taken, query) ← readTerms 1 query
    return (bindElements b k taken).map fun b => (query, b)
  | key, e :: query => .ok (if key = e then some (query, b) else none)

/-- The value of the node at which a walk stops. -/
def valueAt (entry : Option α) (below : Forest Element (Option α)) : Except WalkFault (List α) :=
  match entry, below with
  | some a, .nil => .ok [a]
  | _, _ => .error .interior

namespace DiscriminationTree

/-- `instancesIn` with checks. -/
def checkedInstancesIn : Forest Element (Option α) → Target → List Element → ElementBindings →
    Except WalkFault (List α)
  | .nil, _, _, _ => .ok []
  | .cons key entry below rest, target, query, b => do
    let here ← match target.step b key, query with
      | none, _ => .ok []
      | some (some target, b), query => checkedInstancesIn below target query b
      | some (none, _), [] => valueAt entry below
      | some (none, b), e :: query => checkedInstancesIn below (.ofElement e) query b
    let later ← checkedInstancesIn rest target query b
    return here ++ later

/-- `instances` with checks. -/
def checkedInstances (d : DiscriminationTree α) (t : Term) : Except WalkFault (List α) :=
  match t.elements with
  | [] => valueAt d.root.entry d.root.children
  | e :: query => checkedInstancesIn d.root.children (.ofElement e) query []

/-- `generalisationsIn` with checks. -/
def checkedGeneralisationsIn : Forest Element (Option α) → List Element → ElementBindings →
    Except WalkFault (List α)
  | .nil, _, _ => .ok []
  | .cons key entry below rest, query, b => do
    let here ← match ← checkedAfterKey key query b with
      | none => .ok []
      | some ([], _) => valueAt entry below
      | some (e :: query, b) => checkedGeneralisationsIn below (e :: query) b
    let later ← checkedGeneralisationsIn rest query b
    return here ++ later

/-- `generalisations` with checks. -/
def checkedGeneralisations (d : DiscriminationTree α) (t : Term) : Except WalkFault (List α) :=
  checkedGeneralisationsIn d.root.children t.elements []

end DiscriminationTree

/-! ## Section 5: Walks never go wrong -/

theorem valueAt_eq {entry : Option α} {below : Forest Element (Option α)}
    (hentry : entry.isSome = true) (hbelow : below.isNil = true) :
    valueAt entry below = .ok entry.toList := by
  cases below with
  | cons key entry' below' rest => cases hbelow
  | nil =>
    obtain ⟨a, rfl⟩ := Option.isSome_iff_exists.mp hentry
    rfl

/-- Terms can be read as long as there are so many, and the others are left. -/
theorem readTerms_eq {n m : Nat} {es : List Element} (hnm : n ≤ m) (h : Spells m es) :
    readTerms n es = .ok (splitTerms n es) ∧ Spells (m - n) (splitTerms n es).2 := by
  induction es generalizing n m with
  | nil =>
    cases m with
    | zero =>
      obtain rfl : n = 0 := by omega
      exact ⟨by simp [readTerms, splitTerms], by simp [splitTerms]⟩
    | succ m => exact h.elim
  | cons e es ih =>
    cases n with
    | zero => exact ⟨by simp [readTerms, splitTerms], by simpa [splitTerms] using h⟩
    | succ n =>
      obtain ⟨m, rfl⟩ : ∃ k, m = k + 1 := ⟨m - 1, by omega⟩
      have h : Spells (m + e.arity) es := h
      obtain ⟨hread, hrest⟩ := ih (n := n + e.arity) (by omega) h
      have hcount : m + 1 - (n + 1) = m + e.arity - (n + e.arity) := by omega
      refine ⟨?_, hcount ▸ hrest⟩
      rw [readTerms, hread]
      rfl

/-- A key can be compared with a query that is not at its end, and what is left of the query spells
    the terms that are open after the key. -/
theorem checkedAfterKey_eq {n : Nat} (hn : 0 < n) {query : List Element} (h : Spells n query)
    (key : Element) (b : ElementBindings) :
    checkedAfterKey key query b = .ok (afterKey? key query b) ∧
      ∀ query' b', afterKey? key query b = some (query', b') →
        Spells (n + key.arity - 1) query' := by
  obtain ⟨m, rfl⟩ : ∃ m, n = m + 1 := ⟨n - 1, by omega⟩
  cases query with
  | nil => exact h.elim
  | cons e es =>
    -- a key that is not a variable has to be the next symbol
    have hsymbol : ∀ {key : Element}, ∀ query' b',
        (if key = e then some (es, b) else none) = some (query', b') →
          Spells (m + 1 + key.arity - 1) query' := by
      intro key query' b' hsome
      split at hsome
      next hkey =>
        obtain ⟨rfl, -⟩ := Prod.mk.inj (Option.some.inj hsome)
        have hcount : m + 1 + e.arity - 1 = m + e.arity := by omega
        rw [hkey, hcount]
        exact h
      next => cases hsome
    rcases key with ⟨f, k⟩ | ⟨c⟩ | ⟨k⟩
    · exact ⟨rfl, hsymbol⟩
    · exact ⟨rfl, hsymbol⟩
    · -- a variable takes one term
      obtain ⟨hread, hrest⟩ := readTerms_eq (Nat.le_add_left 1 m) h
      constructor
      · simp [checkedAfterKey, hread, afterKey?, bind, Except.bind, pure, Except.pure]
      · intro query' b' hsome
        obtain ⟨b'', -, heq⟩ := Option.map_eq_some_iff.mp hsome
        obtain ⟨rfl, -⟩ := Prod.mk.inj heq
        exact hrest

/-- What a walk looks for next, together with the rest of the query, spells `n` terms. -/
def Target.Fits (n : Nat) (query : List Element) : Target → Prop
  | .symbol e => Spells n (e :: query)
  | .term _ _ left => 0 < left ∧ left ≤ n ∧ Spells (n - left) query

namespace Target

variable {n : Nat} {query : List Element}

theorem fits_ofElement {e : Element} (hn : 0 < n) (h : Spells n (e :: query)) :
    (Target.ofElement e).Fits n query := by
  obtain ⟨m, rfl⟩ : ∃ m, n = m + 1 := ⟨n - 1, by omega⟩
  rcases e with ⟨f, k⟩ | ⟨c⟩ | ⟨k⟩
  · exact h
  · exact h
  · exact ⟨Nat.one_pos, Nat.le_add_left 1 m, h⟩

/-- A key takes as many open terms from the tree as from the query. -/
theorem Fits.step {target : Target} (hn : 0 < n) (h : target.Fits n query) {b b' : ElementBindings}
    {key : Element} {target? : Option Target} (hstep : target.step b key = some (target?, b')) :
    (target? = none → Spells (n + key.arity - 1) query) ∧
      ∀ target', target? = some target' →
        0 < n + key.arity - 1 ∧ target'.Fits (n + key.arity - 1) query := by
  cases target with
  | symbol e =>
    simp only [Target.step] at hstep
    split at hstep
    next hkey =>
      obtain ⟨rfl, -⟩ := Prod.mk.inj (Option.some.inj hstep)
      obtain ⟨m, rfl⟩ : ∃ m, n = m + 1 := ⟨n - 1, by omega⟩
      have hcount : m + 1 + key.arity - 1 = m + key.arity := by omega
      subst hkey
      exact ⟨fun _ => hcount ▸ h, by simp⟩
    next => cases hstep
  | term k known left =>
    obtain ⟨hpos, hle, hquery⟩ := h
    -- the key closes one term and opens its arguments, in the tree as in the query
    have hcount : n + key.arity - 1 - (left + key.arity - 1) = n - left := by omega
    simp only [Target.step] at hstep
    split at hstep
    next hleft =>
      obtain ⟨rfl, -⟩ := Prod.mk.inj (Option.some.inj hstep)
      refine ⟨by simp, fun target' htarget => ?_⟩
      obtain rfl := Option.some.inj htarget
      exact ⟨by omega, hleft, by omega, hcount ▸ hquery⟩
    next hleft =>
      obtain ⟨b'', -, heq⟩ := Option.map_eq_some_iff.mp hstep
      obtain ⟨rfl, -⟩ := Prod.mk.inj heq
      have hzero : n + key.arity - 1 = n - left := by omega
      exact ⟨fun _ => hzero ▸ hquery, by simp⟩

end Target

namespace DiscriminationTree

/-- A walk for instances goes through a tree without a fault if target and query spell as many terms
    as the paths of the tree. -/
theorem checkedInstancesIn_eq {n : Nat} (hn : 0 < n) {F : Forest Element (Option α)}
    (hF : F.Spelled n) {target : Target} {query : List Element} (h : target.Fits n query)
    (b : ElementBindings) :
    checkedInstancesIn F target query b = .ok (instancesIn F target query b) := by
  induction F generalizing n target query b with
  | nil => rfl
  | cons key entry below rest ihbelow ihrest =>
    obtain ⟨hlast, hopen, hrest⟩ := hF
    have hlater := ihrest hn hrest h b
    simp only [checkedInstancesIn, instancesIn, hlater]
    cases hstep : target.step b key with
    | none => rfl
    | some next =>
      obtain ⟨target?, b'⟩ := next
      obtain ⟨hdone, hmore⟩ := h.step hn hstep
      cases target? with
      | some target' =>
        -- the variable is not through with its term, so neither is the path
        obtain ⟨hpos, hfits⟩ := hmore target' rfl
        have hhere := ihbelow hpos (hopen (by omega)).2 hfits b'
        simp only [hhere]
        rfl
      | none =>
        have hquery := hdone rfl
        cases query with
        | nil =>
          obtain ⟨hentry, hbelow⟩ := hlast (by have := hquery.open_eq_zero; omega)
          simp only [valueAt_eq hentry hbelow]
          rfl
        | cons e query =>
          have hpos := hquery.open_pos
          have hhere := ihbelow hpos (hopen (by omega)).2 (Target.fits_ofElement hpos hquery) b'
          simp only [hhere]
          rfl

/-- A walk for generalisations goes through a tree without a fault if the query spells as many terms
    as the paths of the tree. -/
theorem checkedGeneralisationsIn_eq {n : Nat} (hn : 0 < n) {F : Forest Element (Option α)}
    (hF : F.Spelled n) {query : List Element} (h : Spells n query) (b : ElementBindings) :
    checkedGeneralisationsIn F query b = .ok (generalisationsIn F query b) := by
  induction F generalizing n query b with
  | nil => rfl
  | cons key entry below rest ihbelow ihrest =>
    obtain ⟨hlast, hopen, hrest⟩ := hF
    have hlater := ihrest hn hrest h b
    obtain ⟨hchecked, hafter⟩ := checkedAfterKey_eq hn h key b
    simp only [checkedGeneralisationsIn, generalisationsIn, hlater, hchecked]
    cases hnext : afterKey? key query b with
    | none => rfl
    | some next =>
      obtain ⟨query', b'⟩ := next
      have hquery := hafter query' b' hnext
      cases query' with
      | nil =>
        obtain ⟨hentry, hbelow⟩ := hlast (by have := hquery.open_eq_zero; omega)
        simp only [bind, Except.bind, valueAt_eq hentry hbelow]
        rfl
      | cons e query' =>
        have hpos := hquery.open_pos
        have hhere := ihbelow hpos (hopen (by omega)).2 hquery b'
        simp only [bind, Except.bind, hhere]
        rfl

namespace Holds

variable {d : DiscriminationTree α} {stored : List (Term × α)}

private theorem checkedInstances_eq (h : d.Holds stored) (q : Term) :
    d.checkedInstances q = .ok (d.instances q) := by
  obtain ⟨e, es, hq⟩ := exists_elements_eq q
  have hspells := q.spells_elements
  rw [hq] at hspells
  rw [checkedInstances, instances, hq]
  exact checkedInstancesIn_eq Nat.one_pos h.spelled
    (Target.fits_ofElement Nat.one_pos hspells) []

private theorem checkedGeneralisations_eq (h : d.Holds stored) (q : Term) :
    d.checkedGeneralisations q = .ok (d.generalisations q) :=
  checkedGeneralisationsIn_eq Nat.one_pos h.spelled q.spells_elements []

end Holds

end DiscriminationTree

/-! ## Section 6: Discrimination trees are exact -/

/-- A discrimination tree that has been offered values answers like a search through what is stored.
    A value is refused exactly if there is one under a renaming of its term, and then the tree is left
    as it was.  No walk asks for a symbol beyond the end of the query or stops at an inner node. -/
theorem discriminationTree_exact (calls : List (Term × α)) :
    let d : DiscriminationTree α := TermIndex.fill calls
    TermIndex.Exact d (keepAll calls) ∧
      (∀ t a, StoredUnder (keepAll calls) t → d.store t a = (false, d)) ∧
      ∀ q, d.checkedInstances q = .ok (d.instances q) ∧
        d.checkedGeneralisations q = .ok (d.generalisations q) := by
  have h := DiscriminationTree.holds_fill calls
  refine ⟨DiscriminationTree.exact_fill calls, fun t a ht => h.store_of_storedUnder ht a, ?_⟩
  exact fun q => ⟨h.checkedInstances_eq q, h.checkedGeneralisations_eq q⟩

end Clausal
