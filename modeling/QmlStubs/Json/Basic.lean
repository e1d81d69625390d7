import QmlStubs.Number.Shortest

/-!
# JSON values

A value keeps what its text says and not yet what a reader makes of it: a number keeps its digits,
since a whole number and a number with a point are read differently, and a string that has no
meaning as text (half of a surrogate pair, a byte that is no character) is kept as unreadable,
since it only matters where it is read. Members keep their order and their repetitions.
-/

set_option autoImplicit false

namespace QmlStubs

/-- A number as written: `digits * 10 ^ exponent`. It is whole when it has neither a fraction nor
an exponent part. -/
structure Numeral where
  negative : Bool
  digits : Nat
  exponent : Int
  whole : Bool
  deriving DecidableEq

/-- A JSON value. A string or key without a meaning as text is `none`. -/
inductive Json where
  | null
  | bool (value : Bool)
  | number (value : Numeral)
  | string (value : Option String)
  | array (items : List Json)
  | object (members : List (Option String × Json))

namespace Numeral

/-- A whole number. -/
def ofInt (i : Int) : Numeral := ⟨i < 0, i.natAbs, 0, true⟩

/-- A whole number that is not negative. -/
def ofNat (n : Nat) : Numeral := ⟨false, n, 0, true⟩

/-- The shortest decimal of a finite number. -/
def ofBinary64 (x : Binary64) : Numeral :=
  if x.isZero then ⟨x.negative, 0, 0, false⟩
  else
    let d := x.shortest
    ⟨x.negative, d.digits, d.exponent, false⟩

/-- The integer that is written. A negative zero is no integer. -/
def toInt? (n : Numeral) : Option Int :=
  if n.whole && !(n.negative && n.digits == 0) then
    some (if n.negative then -n.digits else n.digits)
  else none

/-- The nearest number of 64 bits, unless it is too large for one. -/
def toBinary64? (n : Numeral) : Option Binary64 :=
  let x := Binary64.ofDecimal n.negative n.digits n.exponent
  if x.isFinite then some x else none

/-- The written form. -/
def text (n : Numeral) : List Char :=
  (if n.negative then ['-'] else []) ++
    if n.whole then Nat.toDigits 10 n.digits
    else if n.digits = 0 then ['0', '.', '0']
    else (Binary64.layout.text ⟨n.digits, n.exponent⟩).toList

end Numeral

namespace Json

/-- A string value. -/
def text (s : String) : Json := .string (some s)

/-- A list of string values. -/
def texts (l : List String) : Json := .array (l.map text)

/-- A whole number that is not negative. -/
def nat (n : Nat) : Json := .number (.ofNat n)

/-- A number of 64 bits; one that is not finite has no numeral and becomes `null`. -/
def binary64 (x : Binary64) : Json :=
  if x.isFinite then .number (.ofBinary64 x) else .null

/-- An object of named members. -/
def record (members : List (String × Json)) : Json :=
  .object (members.map fun m => (some m.1, m.2))

mutual

/-- How deep lists and objects are nested. -/
def depth : Json → Nat
  | .array items => depthOfItems items + 1
  | .object members => depthOfMembers members + 1
  | _ => 0

/-- The deepest nesting in a list. -/
def depthOfItems : List Json → Nat
  | [] => 0
  | v :: rest => max v.depth (depthOfItems rest)

/-- The deepest nesting among members. -/
def depthOfMembers : List (Option String × Json) → Nat
  | [] => 0
  | (_, v) :: rest => max v.depth (depthOfMembers rest)

end

mutual

/-- Whether every string is readable and every number has a nearest number of 64 bits. -/
def isReadable : Json → Bool
  | .number n => n.toBinary64?.isSome
  | .string s => s.isSome
  | .array items => areReadable items
  | .object members => areReadableMembers members
  | _ => true

/-- Whether all values of a list are readable. -/
def areReadable : List Json → Bool
  | [] => true
  | v :: rest => v.isReadable && areReadable rest

/-- Whether all keys and values of an object are readable. -/
def areReadableMembers : List (Option String × Json) → Bool
  | [] => true
  | (k, v) :: rest => k.isSome && v.isReadable && areReadableMembers rest

end

end Json

end QmlStubs
