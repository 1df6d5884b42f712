/-!
# Associations

Small tables from keys to values, as lists in the order in which the keys arrived.  Keys are
compared by `==`.
-/

namespace Clausal

/-- The value of a key. -/
def findKey {κ α : Type} [BEq κ] (k : κ) (l : List (κ × α)) : Option α :=
  (l.find? fun e => e.1 == k).map Prod.snd

/-- Give a key a value.  A new key goes to the end; a key that is there stays as it is, and its
    value is replaced. -/
def insertKey {κ α : Type} [BEq κ] (k : κ) (a : α) : List (κ × α) → List (κ × α)
  | [] => [(k, a)]
  | e :: l => if e.1 == k then (e.1, a) :: l else e :: insertKey k a l

end Clausal
