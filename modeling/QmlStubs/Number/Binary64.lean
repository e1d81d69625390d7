/-!
# Binary floating-point numbers of 64 bits

Modification times are seconds since 1970 held as binary64 numbers, and a record is stale exactly
when two of these numbers differ. The type is the three fields of the format, so every fact about
a time is a fact about natural numbers: there is one rounding function, `ofRatio`, and reading a
decimal, adding two parts of a time and dividing by a billion all go through it.
-/

set_option autoImplicit false

namespace QmlStubs

-- Powers are those of the core library, also where more instances are known.
attribute [local instance (high)] instPowNat

/-- A binary64 number: sign, biased exponent, fraction. -/
structure Binary64 where
  negative : Bool
  exponent : Fin 2048
  fraction : Fin (2 ^ (52 : Nat))
  deriving DecidableEq

namespace Binary64

instance : Inhabited Binary64 := ⟨⟨false, 0, 0⟩⟩

/-- Zero of a sign. -/
def zero (negative : Bool) : Binary64 := ⟨negative, 0, 0⟩

/-- Infinity of a sign. -/
def infinity (negative : Bool) : Binary64 := ⟨negative, 2047, 0⟩

/-- The value of no number. -/
def nan : Binary64 := ⟨false, 2047, Fin.ofNat _ (2 ^ (51 : Nat))⟩

/-- The largest exponent marks infinities and not-a-number. -/
def isFinite (x : Binary64) : Bool := x.exponent != 2047

/-- Not a number: the largest exponent with a fraction. -/
def isNaN (x : Binary64) : Bool := x.exponent == 2047 && x.fraction != 0

/-- Either zero. -/
def isZero (x : Binary64) : Bool := x.exponent == 0 && x.fraction == 0

/-- The integer factor of a finite number. -/
def significand (x : Binary64) : Nat :=
  if x.exponent = 0 then x.fraction else 2 ^ (52 : Nat) + x.fraction

/-- The power of two that the significand is scaled by, counted from `2 ^ -1074`. -/
def scale (x : Binary64) : Nat := x.exponent - 1

/-- Magnitude of a finite number in units of `2 ^ -1074`, the smallest positive number. -/
def units (x : Binary64) : Nat := x.significand * 2 ^ x.scale

/-- Equality of values: the two zeros are equal, and not-a-number equals nothing. -/
def sameValue (x y : Binary64) : Bool :=
  !x.isNaN && !y.isNaN && (x == y || (x.isZero && y.isZero))

/-- The nearest integer to a ratio; a half goes to the even neighbour. -/
def roundRatio (num den : Nat) : Nat :=
  let q := num / den
  let twice := 2 * (num % den)
  if twice < den then q else if den < twice then q + 1 else q + q % 2

/-- Number of binary digits. -/
def bitLength (n : Nat) : Nat := if n = 0 then 0 else n.log2 + 1

/-- The number with a significand of at most `2 ^ 53` and a scale. -/
def ofScaled (negative : Bool) (m k : Nat) : Binary64 :=
  let (m, k) := if m = 2 ^ (53 : Nat) then (2 ^ (52 : Nat), k + 1) else (m, k)
  if m < 2 ^ (52 : Nat) then ⟨negative, 0, Fin.ofNat _ m⟩
  else if k + 1 < 2047 then ⟨negative, Fin.ofNat _ (k + 1), Fin.ofNat _ (m - 2 ^ (52 : Nat))⟩
  else infinity negative

/-- **The number nearest to a ratio**; a half goes to the even significand, and what is too large
becomes infinite. -/
def ofRatio (negative : Bool) (num den : Nat) : Binary64 :=
  let scaled := num * 2 ^ (1074 : Nat)
  let k := bitLength (scaled / den) - 53
  ofScaled negative (roundRatio scaled (den * 2 ^ k)) k

/-- The number nearest to a natural number. -/
def ofNat (n : Nat) : Binary64 := ofRatio false n 1

/-- The number nearest to `digits * 10 ^ exponent`. Exponents far outside the format's range are
settled without computing the power. -/
def ofDecimal (negative : Bool) (digits : Nat) (exponent : Int) : Binary64 :=
  if digits = 0 then zero negative
  else
    let places : Int := (Nat.toDigits 10 digits).length + exponent
    if 310 < places then infinity negative
    else if places < -330 then zero negative
    else if 0 ≤ exponent then ofRatio negative (digits * 10 ^ exponent.toNat) 1
    else ofRatio negative digits (10 ^ (-exponent).toNat)

/-- The sum of two finite numbers of positive sign. -/
def addMagnitudes (x y : Binary64) : Binary64 := ofRatio false (x.units + y.units) (2 ^ (1074 : Nat))

/-- A span of seconds and nanoseconds, each rounded before they are added. -/
def ofSeconds (seconds nanoseconds : Nat) : Binary64 :=
  addMagnitudes (ofNat seconds) (ofRatio false nanoseconds 1000000000)

end Binary64

end QmlStubs
