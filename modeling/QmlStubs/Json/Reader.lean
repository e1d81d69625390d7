import QmlStubs.Collections.SortedMap
import QmlStubs.Json.Basic

/-!
# Reading JSON values into types

A record is read from an object by the names of its fields, in any order and with unknown fields
skipped, or from a list by their positions. A field given twice is an error. A field with a
default may be missing but not `null`; an optional field may be either.

All readers answer `none` for a value that does not fit.
-/

set_option autoImplicit false

namespace QmlStubs.Json

/-- A readable string. -/
def string? : Json → Option String
  | .string s => s
  | _ => none

/-- A truth value. -/
def bool? : Json → Option Bool
  | .bool b => some b
  | _ => none

/-- A number of 64 bits: any number that is not too large. -/
def binary64? : Json → Option Binary64
  | .number n => n.toBinary64?
  | _ => none

/-- An integer token between two bounds. -/
def intBetween? (low high : Int) : Json → Option Int
  | .number n => n.toInt?.filter fun i => low ≤ i && i ≤ high
  | _ => none

/-- A whole number of 32 bits. -/
def uint32? (j : Json) : Option UInt32 :=
  (j.intBetween? 0 4294967295).map fun i => UInt32.ofNat i.toNat

/-- A signed integer of 32 bits. -/
def int32? (j : Json) : Option Int32 :=
  (j.intBetween? (-2147483648) 2147483647).map Int32.ofInt

/-- A list whose items are all read. -/
def list? {α : Type} (read : Json → Option α) : Json → Option (List α)
  | .array items => items.mapM read
  | _ => none

/-- A value that may be `null`. -/
def nullable? {α : Type} (read : Json → Option α) : Json → Option (Option α)
  | .null => some none
  | j => (read j).map some

/-- A map from an object; of equal keys the last one counts. -/
def map? {α : Type} (read : Json → Option α) : Json → Option (SortedMap String α)
  | .object members => do
    let entries ← members.mapM fun m => do return (← m.1, ← read m.2)
    return .ofList entries
  | _ => none

/-! ## Fields -/

/-- The values under one name. -/
def valuesOf (name : String) (members : List (Option String × Json)) : List Json :=
  members.filterMap fun m => if m.1 = some name then some m.2 else none

/-- The value under a name, unless it is given twice. -/
def field? (members : List (Option String × Json)) (name : String) : Option (Option Json) :=
  match valuesOf name members with
  | [] => some none
  | [v] => some (some v)
  | _ => none

/-- The values of the named fields in order, `none` for a missing one, from an object by name or
from a list by position. -/
def fields? (names : List String) : Json → Option (List (Option Json))
  | .object members =>
    if members.all fun m => m.1.isSome then names.mapM (field? members) else none
  | .array items =>
    if items.length ≤ names.length then
      some (items.map some ++ List.replicate (names.length - items.length) none)
    else none
  | _ => none

/-- A field that has to be there. -/
def required {α : Type} (read : Json → Option α) (v : Option Json) : Option α := v.bind read

/-- A field with a default. -/
def withDefault {α : Type} (default : α) (read : Json → Option α) : Option Json → Option α
  | none => some default
  | some v => read v

/-- A field that may be missing or `null`. -/
def optional {α : Type} (read : Json → Option α) : Option Json → Option (Option α) :=
  withDefault none (nullable? read)

end QmlStubs.Json
