import Clausal.Decimal

/-!
# Values of settings

Settings form a tree of tables whose leaves are plain values.  A value is looked up by the keys on
the way to it, and one tree is updated by another, table by table.

## Main definitions

- `Setting`, `Settings`, `Table`
- `Setting.get?`: look-up by a dotted key
- `Table.update`: update by another table
-/

namespace Clausal

mutual

/-- The value of a setting. -/
inductive Setting where
  | null
  | bool (b : Bool)
  | int (n : Int)
  | decimal (d : Decimal)
  | text (s : String)
  | list (items : Settings)
  | table (t : Table)

/-- Several values. -/
inductive Settings where
  | nil
  | cons (head : Setting) (tail : Settings)

/-- Values with their keys. -/
inductive Table where
  | nil
  | cons (key : String) (value : Setting) (rest : Table)

end

instance : Inhabited Setting := ⟨.null⟩

namespace Settings

/-- The values as a list. -/
def toList : Settings → List Setting
  | .nil => []
  | .cons v vs => v :: vs.toList

/-- The values of a list. -/
def ofList : List Setting → Settings
  | [] => .nil
  | v :: vs => .cons v (ofList vs)

end Settings

namespace Table

/-- The keys and values as a list. -/
def toList : Table → List (String × Setting)
  | .nil => []
  | .cons k v t => (k, v) :: t.toList

/-- The table of the given keys and values. -/
def ofList : List (String × Setting) → Table
  | [] => .nil
  | (k, v) :: l => .cons k v (ofList l)

/-- The value of a key. -/
def find? (k : String) : Table → Option Setting
  | .nil => none
  | .cons k' v t => if k' = k then some v else t.find? k

/-- Give a key a value; a new key goes to the end. -/
def insert (k : String) (v : Setting) : Table → Table
  | .nil => .cons k v .nil
  | .cons k' v' t => if k' = k then .cons k' v t else .cons k' v' (t.insert k v)

/-- Whether a table has no keys. -/
def isEmpty : Table → Bool
  | .nil => true
  | .cons _ _ _ => false

end Table

namespace Setting

/-- Whether a value counts as missing where a table is looked for: null, false, zero, and empty
    texts, lists and tables. -/
def isVoid : Setting → Bool
  | .null => true
  | .bool b => !b
  | .int n => n = 0
  | .decimal d => d.isZero
  | .text s => s = ""
  | .list .nil => true
  | .list (.cons _ _) => false
  | .table t => t.isEmpty

/-- Follow keys through tables. -/
def follow : List String → Setting → Option Setting
  | [], v => some v
  | k :: ks, .table t =>
    match t.find? k with
    | none => none
    | some v => v.follow ks
  | _ :: _, _ => none

/-- The value at a key, whose parts are divided by points. -/
def get? (v : Setting) (key : String) : Option Setting :=
  v.follow (key.splitOn ".")

end Setting

/-- Why an update failed: it goes below a value that is no table, to set a key there or to look for
    a table there. -/
inductive UpdateError where
  | setBelowValue
  | lookBelowValue
  deriving DecidableEq, Repr, Inhabited

/-- The complaint about an update that goes below a value, if it changes anything. -/
def Table.belowValue? : Table → Option UpdateError
  | .nil => none
  | .cons _ (.table _) _ => some .lookBelowValue
  | .cons _ _ _ => some .setBelowValue

/-- Update a table by another one, key by key: tables are updated in turn, other values are
    replaced.  What was done before an error stays, except below a table that is only just
    made. -/
def Table.update : Table → Table → Option UpdateError × Table
  | d, .nil => (none, d)
  | d, .cons k (.table u) rest =>
    match d.find? k with
    | some (.table (.cons k' v' t)) =>
      match Table.update (.cons k' v' t) u with
      | (some e, t) => (some e, d.insert k (.table t))
      | (none, t) => Table.update (d.insert k (.table t)) rest
    | some v =>
      if v.isVoid then
        match Table.update .nil u with
        | (some e, _) => (some e, d)
        | (none, t) => Table.update (d.insert k (.table t)) rest
      else
        match u.belowValue? with
        | some e => (some e, d)
        | none => Table.update d rest
    | none =>
      match Table.update .nil u with
      | (some e, _) => (some e, d)
      | (none, t) => Table.update (d.insert k (.table t)) rest
  | d, .cons k v rest => Table.update (d.insert k v) rest

/-- Update settings by a table. -/
def Setting.update (v : Setting) (u : Table) : Option UpdateError × Setting :=
  match v with
  | .table t =>
    let (e, t) := t.update u
    (e, .table t)
  | v => (u.belowValue?, v)

end Clausal
