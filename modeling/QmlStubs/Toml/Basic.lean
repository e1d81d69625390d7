/-!
# TOML values and tables

A document is a table. While it is read, a table remembers how it came to be, since that decides
what may be added to it: a table made on the way to a longer header may still get a header of its
own, one made by a dotted key may get further dotted keys, and a table with its own header or
braces is closed to both.
-/

set_option autoImplicit false

namespace QmlStubs

/-- A TOML value. Numbers with a point and dates keep their text. -/
inductive Toml where
  | string (value : String)
  | integer (value : Int)
  | float (text : String)
  | boolean (value : Bool)
  | dateTime (text : String)
  | array (items : List Toml)
  | table (members : List (String × Toml))

namespace Toml

/-- How a table came to be. -/
inductive Origin where
  /-- It has a header or braces of its own, or is the document. -/
  | explicit
  /-- It lies on the way of a longer header. -/
  | passed
  /-- It lies on the way of a dotted key. -/
  | dotted
  deriving DecidableEq

/-- What a key of an unfinished table holds. -/
inductive Node where
  | value (v : Toml)
  | table (origin : Origin) (members : List (String × Node))
  /-- The tables of a repeated header, the latest one first. -/
  | tables (latestFirst : List (List (String × Node)))

/-- An unfinished table. -/
structure Table where
  origin : Origin
  members : List (String × Node)

namespace Table

/-- The table without members. -/
def empty : Table := ⟨.explicit, []⟩

/-- What a key holds. -/
def find? (t : Table) (key : String) : Option Node := t.members.lookup key

/-- Set what a key holds; a new key comes last. -/
def set (t : Table) (key : String) (n : Node) : Table :=
  if (t.find? key).isSome then
    { t with members := t.members.map fun m => if m.1 = key then (key, n) else m }
  else { t with members := t.members ++ [(key, n)] }

/-- Change the table at the end of a path, making the missing ones on the way. `dotted` says that
the path belongs to a dotted key and not to a header. A value on the way is an error, and so is a
closed table on the way of a dotted key. -/
def change? (dotted : Bool) : List String → (Table → Option Table) → Table → Option Table
  | [], f, t => f t
  | key :: path, f, t =>
    match t.find? key with
    | none => do
      let u ← change? dotted path f ⟨if dotted then .dotted else .passed, []⟩
      return t.set key (.table u.origin u.members)
    | some (.value _) => none
    | some (.table origin members) =>
      if dotted && origin = .explicit then none
      else do
        let u ← change? dotted path f ⟨origin, members⟩
        return t.set key (.table u.origin u.members)
    | some (.tables []) => none
    | some (.tables (members :: earlier)) =>
      if dotted then none
      else do
        let u ← change? dotted path f ⟨.explicit, members⟩
        return t.set key (.tables (u.members :: earlier))

/-- Add a value under a key that is still free. The table at the end of a dotted key has to come
from dotted keys itself. -/
def addValue? (viaDots : Bool) (key : String) (v : Toml) (t : Table) : Option Table :=
  if viaDots && t.origin ≠ .dotted then none
  else if (t.find? key).isSome then none
  else some (t.set key (.value v))

/-- Add a value under a dotted key. -/
def addAt? (path : List String) (key : String) (v : Toml) (t : Table) : Option Table :=
  t.change? true path (addValue? (!path.isEmpty) key v)

/-- Give a table its own header. It must be new or have been only passed so far. -/
def open? (key : String) (t : Table) : Option Table :=
  match t.find? key with
  | none => some (t.set key (.table .explicit []))
  | some (.table .passed members) => some (t.set key (.table .explicit members))
  | some _ => none

/-- Begin another table of a repeated header. -/
def openAnother? (key : String) (t : Table) : Option Table :=
  match t.find? key with
  | none => some (t.set key (.tables [[]]))
  | some (.tables earlier) => some (t.set key (.tables ([] :: earlier)))
  | some _ => none

end Table

mutual

/-- A finished value. -/
def ofNode : Node → Toml
  | .value v => v
  | .table _ members => .table (ofMembers members)
  | .tables latestFirst => .array (ofTables latestFirst).reverse

/-- Finished members. -/
def ofMembers : List (String × Node) → List (String × Toml)
  | [] => []
  | (key, n) :: rest => (key, ofNode n) :: ofMembers rest

/-- Finished tables of a repeated header. -/
def ofTables : List (List (String × Node)) → List Toml
  | [] => []
  | members :: rest => .table (ofMembers members) :: ofTables rest

end

end Toml

end QmlStubs
