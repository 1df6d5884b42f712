import Clausal.Index.TermIndex
import Clausal.Proofs.Ordinal

/-!
# Term indexes and plain search

What an index of terms should answer is said by a list: the terms that have been stored, in order,
with their values.  A value is refused if a renaming of its term is in the list, and every question
is answered by going through the whole list.

Whether an index answers like that is an invariant of filling it.  `TermIndex.fill_invariant` reduces
an invariant to what one value does to the index.

## Main definitions

- `StoredUnder`, `keepAll`: the list of what is stored
- `TermIndex.fill`: the index after values have been offered
- `TermIndex.Exact`: an index that answers like a search through a list

## Main statements

- `TermIndex.fill_invariant`: what one value preserves, filling an index preserves
- `pairwise_keepAll`: no two stored terms are renamings of each other
- `TermIndex.Exact.perm`: two indexes with the same content give the same answers
-/

namespace Clausal

variable {α : Type}

/-! ## Section 1: Plain search -/

/-- A value is stored under a term, up to renaming of variables. -/
def StoredUnder (stored : List (Term × α)) (t : Term) : Prop :=
  ∃ e ∈ stored, e.1.RenamesTo t

instance (stored : List (Term × α)) (t : Term) : Decidable (StoredUnder stored t) :=
  inferInstanceAs (Decidable (∃ e ∈ stored, e.1.RenamesTo t))

/-- What is stored after one more value has been offered. -/
def keep (stored : List (Term × α)) (c : Term × α) : List (Term × α) :=
  if StoredUnder stored c.1 then stored else stored ++ [c]

/-- What is stored after values have been offered one after the other. -/
def keepAll (calls : List (Term × α)) : List (Term × α) :=
  calls.foldl keep []

/-- No two stored terms are renamings of each other. -/
theorem pairwise_keepAll (calls : List (Term × α)) :
    (keepAll calls).Pairwise fun e e' => ¬ e.1.RenamesTo e'.1 := by
  have hkeep : ∀ stored : List (Term × α), stored.Pairwise (fun e e' => ¬ e.1.RenamesTo e'.1) →
      (calls.foldl keep stored).Pairwise fun e e' => ¬ e.1.RenamesTo e'.1 := by
    induction calls with
    | nil => exact fun stored h => h
    | cons c calls ih =>
      intro stored h
      apply ih
      unfold keep
      split
      next => exact h
      next hnew =>
        -- the new term is a renaming of none before it
        rw [List.pairwise_append]
        refine ⟨h, List.pairwise_singleton _ _, fun e he e' he' hren => hnew ⟨e, he, ?_⟩⟩
        rwa [List.mem_singleton.mp he'] at hren
  exact hkeep [] List.Pairwise.nil

namespace TermIndex

/-! ## Section 2: Filling an index -/

variable {τ : Type → Type} [TermIndex τ]

/-- The index after a value has been offered.  If it is refused, the index stays as it is. -/
def offer (ix : τ α) (c : Term × α) : τ α :=
  match add ix c.1 c.2 with
  | .ok ix => ix
  | .error _ => ix

/-- The index after values have been offered one after the other. -/
def fill (calls : List (Term × α)) : τ α :=
  calls.foldl offer empty

/-- An index that refuses exactly what is stored already, and keeps an invariant when it does not
    refuse, has the invariant after it has been filled. -/
theorem fill_invariant {P : τ α → List (Term × α) → Prop} (hempty : P empty [])
    (hrefuse : ∀ ix stored t a, P ix stored → StoredUnder stored t →
      add ix t a = .error .present)
    (haccept : ∀ ix stored t a, P ix stored → ¬ StoredUnder stored t →
      ∃ ix', add ix t a = .ok ix' ∧ P ix' (stored ++ [(t, a)]))
    (calls : List (Term × α)) : P (fill calls) (keepAll calls) := by
  have hstep : ∀ ix stored c, P ix stored → P (offer ix c) (keep stored c) := by
    intro ix stored c h
    by_cases hstored : StoredUnder stored c.1
    · rw [offer, hrefuse ix stored c.1 c.2 h hstored, keep, if_pos hstored]
      exact h
    · obtain ⟨ix', hadd, h'⟩ := haccept ix stored c.1 c.2 h hstored
      rw [offer, hadd, keep, if_neg hstored]
      exact h'
  have hrun : ∀ (ix : τ α) stored, P ix stored →
      P (calls.foldl offer ix) (calls.foldl keep stored) := by
    induction calls with
    | nil => exact fun ix stored h => h
    | cons c calls ih => exact fun ix stored h => ih _ _ (hstep ix stored c h)
  exact hrun empty [] hempty

/-! ## Section 3: Exact indexes -/

/-- An index that answers like a search through the list of what is stored. -/
structure Exact (ix : τ α) (stored : List (Term × α)) : Prop where
  /-- No two stored terms are renamings of each other. -/
  distinct : stored.Pairwise fun e e' => ¬ e.1.RenamesTo e'.1
  size : size ix = stored.length
  /-- A value is refused if and only if there is one under a renaming of its term. -/
  add : ∀ t a, (StoredUnder stored t → add ix t a = .error .present) ∧
    (¬ StoredUnder stored t → ∃ ix', add ix t a = .ok ix')
  contains : ∀ q, contains ix q = true ↔ StoredUnder stored q
  get? : ∀ q a, get? ix q = some a ↔ ∃ k, (k, a) ∈ stored ∧ k.RenamesTo q
  instances : ∀ q, (instances ix q).Perm ((stored.filter fun e => e.1.isInstanceOf q).map Prod.snd)
  generalisations : ∀ q,
    (generalisations ix q).Perm ((stored.filter fun e => q.isInstanceOf e.1).map Prod.snd)

/-- Indexes with the same content give the same answers, up to their order. -/
theorem Exact.perm {υ : Type → Type} [TermIndex υ] {ix : τ α} {iy : υ α}
    {stored : List (Term × α)} (hx : Exact ix stored) (hy : Exact iy stored) (q : Term) :
    TermIndex.get? ix q = TermIndex.get? iy q ∧
      (TermIndex.instances ix q).Perm (TermIndex.instances iy q) ∧
      (TermIndex.generalisations ix q).Perm (TermIndex.generalisations iy q) := by
  refine ⟨Option.ext fun a => ?_, (hx.instances q).trans (hy.instances q).symm,
    (hx.generalisations q).trans (hy.generalisations q).symm⟩
  rw [hx.get?, hy.get?]

end TermIndex

end Clausal
