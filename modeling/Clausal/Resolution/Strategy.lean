import Clausal.Resolution.Resolvent
import Clausal.Text.Case

/-!
# Strategies of resolution

A strategy says which resolutions are worth doing and which of them come first.

## Main definitions

- `Strategy`: any filter and any order of urgency
- `StrategyChoice`: a strategy made of the filters and priorities that have names
- `StrategyTable`: choices by name
-/

namespace Clausal

/-- Which resolutions are queued, and which of two is the more urgent one.  Priorities of any kind that
    can be compared give such an order. -/
structure Strategy where
  accepts : Resolution → Bool
  outranks : Resolution → Resolution → Bool

namespace Resolution

/-- Whether one of the parents has a single literal. -/
def hasUnitParent (r : Resolution) : Bool :=
  r.first.isUnit || r.second.isUnit

/-- The number of literals of the two parents. -/
def parentSize (r : Resolution) : Nat :=
  r.first.size + r.second.size

end Resolution

/-! ## Section 1: Named filters and priorities -/

/-- The filters that have names. -/
inductive ResolutionFilter where
  /-- Every resolution passes. -/
  | all
  /-- One of the parents has to be a unit clause. -/
  | unitParent
  deriving DecidableEq, Repr, Inhabited

/-- The priorities that have names. -/
inductive ResolutionPriority where
  /-- Resolutions with a unit clause come first. -/
  | unitParent
  /-- Resolutions of clauses with few literals come first. -/
  | fewLiterals
  deriving DecidableEq, Repr, Inhabited

/-- The name of a filter. -/
def ResolutionFilter.name : ResolutionFilter → String
  | .all => "no_filter"
  | .unitParent => "unit_resolution"

/-- The filter of a name. -/
def ResolutionFilter.ofName? (s : String) : Option ResolutionFilter :=
  [.all, .unitParent].find? fun f => f.name = s

/-- The name of a priority. -/
def ResolutionPriority.name : ResolutionPriority → String
  | .unitParent => "unit_preference"
  | .fewLiterals => "total_literal_count_minimisation"

/-- The priority of a name. -/
def ResolutionPriority.ofName? (s : String) : Option ResolutionPriority :=
  [.unitParent, .fewLiterals].find? fun p => p.name = s

/-- The test of a named filter. -/
def ResolutionFilter.accepts : ResolutionFilter → Resolution → Bool
  | .all, _ => true
  | .unitParent, r => r.hasUnitParent

/-- The value of a named priority. -/
def ResolutionPriority.value : ResolutionPriority → Resolution → Int
  | .unitParent, r => if r.hasUnitParent then 1 else 0
  | .fewLiterals, r => -r.parentSize

/-- A strategy made of a named filter and, if resolutions are not just taken in turn, a named
    priority. -/
structure StrategyChoice where
  filter : ResolutionFilter := .all
  priority : Option ResolutionPriority := none
  deriving DecidableEq, Repr, Inhabited

/-- How urgent a resolution is by a choice: the greatest value comes first. -/
def StrategyChoice.urgency (c : StrategyChoice) (r : Resolution) : Int :=
  (c.priority.map fun p => p.value r).getD 0

/-- The strategy of a choice. -/
def StrategyChoice.strategy (c : StrategyChoice) : Strategy where
  accepts := c.filter.accepts
  outranks r q := c.urgency q < c.urgency r

/-- Changes to a choice: what is given replaces what was chosen. -/
structure StrategyChange where
  filter : Option ResolutionFilter := none
  priority : Option ResolutionPriority := none
  deriving DecidableEq, Repr, Inhabited

/-- The changes to what the given names stand for; other names change nothing. -/
def StrategyChange.ofNames (filter priority : String) : StrategyChange :=
  ⟨ResolutionFilter.ofName? filter, ResolutionPriority.ofName? priority⟩

/-- Carry out changes. -/
def StrategyChoice.change (c : StrategyChoice) (u : StrategyChange) : StrategyChoice where
  filter := u.filter.getD c.filter
  priority := u.priority.or c.priority

/-! ## Section 2: Strategies by name -/

/-- Choices by lower-case name, in the order in which the names were first entered. -/
abbrev StrategyTable := List (String × StrategyChoice)

/-- The complaint about a name without a strategy. -/
structure UnknownStrategy where
  name : String
  deriving Repr, Inhabited

/-- The message of the complaint. -/
def UnknownStrategy.message (e : UnknownStrategy) : String :=
  "Unknown resolution strategy: " ++ e.name

namespace StrategyTable

/-- The strategies that are there from the start. -/
def standard : StrategyTable :=
  [("fifo", {}),
   ("unit_preference", { priority := some .unitParent }),
   ("unit_resolution", { filter := .unitParent }),
   ("total_literal_count_minimisation", { priority := some .fewLiterals })]

/-- The names of a table, in order. -/
def names (t : StrategyTable) : List String :=
  t.map Prod.fst

/-- Enter a choice under a name; case does not matter.  An earlier choice of that name is
    replaced in its place. -/
def register (t : StrategyTable) (name : String) (c : StrategyChoice) : StrategyTable :=
  let key := lowerCase name
  if t.any (·.1 = key) then t.map fun e => if e.1 = key then (key, c) else e else t ++ [(key, c)]

/-- The choice of a name; case does not matter. -/
def find (t : StrategyTable) (name : String) : Except UnknownStrategy StrategyChoice :=
  match t.lookup (lowerCase name) with
  | some c => .ok c
  | none => .error ⟨lowerCase name⟩

end StrategyTable

end Clausal
