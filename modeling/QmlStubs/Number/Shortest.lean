import QmlStubs.Number.Binary64

/-!
# The shortest decimal that reads back

A finite binary64 number is written with the fewest digits that round to it, and of the decimals
with so many digits the nearest one is taken. For each digit count the two neighbours of the
value on that decimal grid are tested in exact arithmetic: if any point of a grid rounds to the
value, one of the two neighbours does.
-/

set_option autoImplicit false

namespace QmlStubs

-- Powers are those of the core library, also where more instances are known.
attribute [local instance (high)] instPowNat

namespace Binary64

/-- A positive decimal `digits * 10 ^ exponent`. -/
structure Decimal where
  digits : Nat
  exponent : Int
  deriving DecidableEq

/-- The decimals that round to a number, bounded in quarters of `2 ^ -1074`. -/
structure RoundingInterval where
  low : Nat
  value : Nat
  high : Nat
  closed : Bool

/-- Halfway to either neighbour. Below a power of two the neighbour is half as far, and the ends
belong to the interval when the significand is even. -/
def roundingInterval (x : Binary64) : RoundingInterval :=
  let step := 2 ^ x.scale
  let value := 4 * x.units
  let below := if x.fraction.val = 0 && 1 < x.exponent.val then step else 2 * step
  ⟨value - below, value, value + 2 * step, x.significand % 2 == 0⟩

/-- A ratio of natural numbers scaled by a power of ten. -/
def scaleByTen (n d : Nat) (e : Int) : Nat × Nat :=
  if 0 ≤ e then (n * 10 ^ e.toNat, d) else (n, d * 10 ^ (-e).toNat)

/-- Whether `digits * 10 ^ exponent` lies in the interval. -/
def RoundingInterval.holds (i : RoundingInterval) (x : Decimal) : Bool :=
  let (num, den) := scaleByTen (x.digits * 2 ^ (1076 : Nat)) 1 x.exponent
  let low := i.low * den
  let high := i.high * den
  if i.closed then low ≤ num && num ≤ high else low < num && num < high

/-- The exponent of the leading decimal digit of a positive ratio. -/
def leadingExponent (num den : Nat) : Int :=
  if den ≤ num then (Nat.toDigits 10 (num / den)).length - 1
  else
    match (List.range 400).find? fun j => den ≤ num * 10 ^ (j + 1) with
    | some j => -(j + 1 : Int)
    | none => 0

/-- The next decimal on a grid of so many digits. After the last one of them comes a power of ten,
which needs one digit only. -/
def Decimal.next (x : Decimal) (count : Nat) : Decimal :=
  if x.digits + 1 = 10 ^ count then ⟨1, x.exponent + count⟩ else ⟨x.digits + 1, x.exponent⟩

/-- The decimal of a digit count that rounds to the value and is nearest to it; of two equally
near ones the even one. -/
def RoundingInterval.nearest? (i : RoundingInterval) (lead : Int) (count : Nat) : Option Decimal :=
  let e := lead - count + 1
  let (num, den) := scaleByTen i.value (2 ^ (1076 : Nat)) (-e)
  let low : Decimal := ⟨num / den, e⟩
  let high := low.next count
  let twice := 2 * (num % den)
  match i.holds low, i.holds high with
  | false, false => none
  | true, false => some low
  | false, true => some high
  | true, true =>
    some (if twice < den || (twice == den && low.digits % 2 == 0) then low else high)

/-- The shortest decimal that rounds to a finite positive number. Seventeen digits always
suffice. -/
def shortest (x : Binary64) : Decimal :=
  let i := x.roundingInterval
  let lead := leadingExponent i.value (2 ^ (1076 : Nat))
  match (List.range 17).findSome? fun n => i.nearest? lead (n + 1) with
  | some d => d
  | none => ⟨0, 0⟩

/-- How a shortest decimal is laid out as text. -/
structure Layout where
  /-- Least exponent of the leading digit that is written without an exponent part. -/
  positionalFrom : Int
  /-- Least exponent of the leading digit above the positional ones. -/
  positionalBelow : Int

/-- Zeros in a row. -/
def zeros (n : Int) : List Char := List.replicate n.toNat '0'

/-- The text of a decimal: positional with at least one place after the point, or one digit, the
rest after a point if there is any, and a signed exponent. -/
def Layout.text (l : Layout) (x : Decimal) : String :=
  let ds := Nat.toDigits 10 x.digits
  let count : Int := ds.length
  let lead := x.exponent + count - 1
  if l.positionalFrom ≤ lead && lead < l.positionalBelow then
    if 0 ≤ x.exponent then String.ofList (ds ++ zeros x.exponent ++ ['.', '0'])
    else if 0 ≤ lead then
      String.ofList (ds.take (lead + 1).toNat ++ '.' :: ds.drop (lead + 1).toNat)
    else String.ofList (['0', '.'] ++ zeros (-lead - 1) ++ ds)
  else
    let mantissa := if ds.length = 1 then ds else ds.take 1 ++ '.' :: ds.drop 1
    let sign := if lead < 0 then '-' else '+'
    String.ofList (mantissa ++ 'e' :: sign :: Nat.toDigits 10 lead.natAbs)

/-- Decimals from `0.00001` up to below `10 ^ 16` are positional. -/
def layout : Layout := ⟨-5, 16⟩

/-- The text of a finite number. -/
def finiteText (x : Binary64) : String :=
  (if x.negative then "-" else "") ++ (if x.isZero then "0.0" else layout.text x.shortest)

/-- The text of any number. -/
def text (x : Binary64) : String :=
  if x.isFinite then x.finiteText
  else if x.isNaN then "NaN"
  else if x.negative then "-inf" else "inf"

end Binary64

end QmlStubs
