import Clausal.Node

/-!
# The supply of fresh names

Fresh names are told apart by serial numbers.  `Names` hands them out in increasing order and
records what fresh names are introduced for, most often a formula, so that a name can later be
explained by what it came from.
-/

namespace Clausal

/-- A supply of fresh names.  All serials below `next` have been handed out; `sources` are the
    nodes that fresh names have been introduced for, in order. -/
structure Names where
  next : Nat := 0
  sources : Array Node := #[]
  deriving Inhabited

namespace Names

/-- Take `n` serials at once: they are the ones from `s.next` on. -/
def skip (s : Names) (n : Nat) : Names :=
  { s with next := s.next + n }

/-- Record what names are introduced for; it gets the place `s.sources.size`. -/
def record (s : Names) (n : Node) : Names :=
  { s with sources := s.sources.push n }

/-- What a fresh name was introduced for, if it was recorded. -/
def source? (s : Names) : Ident → Option Node
  | .standard _ _ (some k) => s.sources[k]?
  | .skolem _ _ (some k) => s.sources[k]?
  | _ => none

/-- Do something with each element in turn, with the names that are left. -/
def flatMap {α β : Type} (f : Names → α → List β × Names) (s : Names) : List α → List β × Names
  | [] => ([], s)
  | a :: l =>
    let (bs, s) := f s a
    let (rest, s) := flatMap f s l
    (bs ++ rest, s)

end Names

end Clausal
