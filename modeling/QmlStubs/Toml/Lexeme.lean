import QmlStubs.Number.Binary64
import QmlStubs.Text.Split
import QmlStubs.Toml.Basic

/-!
# The lexemes of TOML

Blanks, line ends, comments, strings, numbers and dates. Each function takes the characters that
are left and answers what it read with the characters after it, or `none` if they do not start
with its lexeme.
-/

set_option autoImplicit false

namespace QmlStubs.Toml

/-- A blank within a line. -/
def isBlank (c : Char) : Bool := c = ' ' || c = '\t'

/-- The characters after blanks. -/
def skipBlanks (s : List Char) : List Char := s.dropWhile isBlank

/-- A character that may stand in a comment or string: no control but the tab. -/
def isPlain (c : Char) : Bool := c = '\t' || (' ' ≤ c && c ≠ '\x7f')

/-- The characters after a line end. -/
def lineEnd? : List Char → Option (List Char)
  | '\n' :: rest => some rest
  | '\r' :: '\n' :: rest => some rest
  | _ => none

/-- The characters after a comment, if there is one. -/
def skipComment (s : List Char) : List Char :=
  match s with
  | '#' :: rest => rest.dropWhile isPlain
  | s => s

/-- The characters after blanks, a comment and the end of the line or text. -/
def endOfLine? (s : List Char) : Option (List Char) :=
  match skipComment (skipBlanks s) with
  | [] => some []
  | s => lineEnd? s

/-- The characters after blanks, comments and line ends. -/
def skipLines : Nat → List Char → List Char
  | 0, s => s
  | fuel + 1, s =>
    match lineEnd? (skipComment (skipBlanks s)) with
    | some rest => skipLines fuel rest
    | none => skipBlanks s

/-! ## Strings -/

/-- The value of hexadecimal digits. -/
def hexValue? (s : List Char) : Option Nat :=
  s.foldl (fun n c => do
    let n ← n
    if '0' ≤ c && c ≤ '9' then return n * 16 + (c.toNat - '0'.toNat)
    else if 'a' ≤ c && c ≤ 'f' then return n * 16 + (c.toNat - 'a'.toNat + 10)
    else if 'A' ≤ c && c ≤ 'F' then return n * 16 + (c.toNat - 'A'.toNat + 10)
    else none) (some 0)

/-- A character given by a number of hexadecimal digits. -/
def charOfHex? (count : Nat) (s : List Char) : Option (Char × List Char) := do
  if s.length < count then none
  let code ← hexValue? (s.take count)
  if code < 0xD800 || (0xDFFF < code && code ≤ 0x10FFFF) then
    return (Char.ofNat code, s.drop count)
  else none

/-- A character after a backslash. -/
def escape? : List Char → Option (Char × List Char)
  | 'b' :: rest => some ('\x08', rest)
  | 't' :: rest => some ('\t', rest)
  | 'n' :: rest => some ('\n', rest)
  | 'f' :: rest => some ('\x0c', rest)
  | 'r' :: rest => some ('\r', rest)
  | '"' :: rest => some ('"', rest)
  | '\\' :: rest => some ('\\', rest)
  | 'u' :: rest => charOfHex? 4 rest
  | 'U' :: rest => charOfHex? 8 rest
  | _ => none

/-- A string with escapes, after its opening quote. -/
def basicChars? : Nat → List Char → Option (List Char × List Char)
  | 0, _ => none
  | _ + 1, '"' :: rest => some ([], rest)
  | fuel + 1, '\\' :: rest => do
    let (c, rest) ← escape? rest
    let (cs, rest) ← basicChars? fuel rest
    return (c :: cs, rest)
  | fuel + 1, c :: rest => do
    if !isPlain c then none
    let (cs, rest) ← basicChars? fuel rest
    return (c :: cs, rest)
  | _ + 1, [] => none

/-- A string without escapes, after its opening quote. -/
def literalChars? : List Char → Option (List Char × List Char)
  | [] => none
  | '\'' :: rest => some ([], rest)
  | c :: rest => do
    if !isPlain c then none
    let (cs, rest) ← literalChars? rest
    return (c :: cs, rest)

/-- The characters after blanks and line ends. -/
def skipBlankLines : Nat → List Char → List Char
  | 0, s => s
  | fuel + 1, s =>
    match lineEnd? (skipBlanks s) with
    | some rest => skipBlankLines fuel rest
    | none => skipBlanks s

/-- The characters after blanks and line ends, if there is a line end among them. -/
def continuation? (s : List Char) : Option (List Char) :=
  (lineEnd? (skipBlanks s)).map fun rest => skipBlankLines rest.length rest

/-- The quotes at the start, as far as a string of several lines may end with: its content takes
two of them and its end three. -/
def quoteRun (quote : Char) (s : List Char) : Nat := min 5 (s.takeWhile (· = quote)).length

/-- A string of several lines, after its opening quotes. Line ends count as one character. -/
def multilineChars? (quote : Char) (escapes : Bool) :
    Nat → List Char → Option (List Char × List Char)
  | 0, _ => none
  | fuel + 1, s =>
    let run := quoteRun quote s
    if 3 ≤ run then some (List.replicate (run - 3) quote, s.drop run)
    else
      match lineEnd? s with
      | some rest => do
        let (cs, rest) ← multilineChars? quote escapes fuel rest
        return ('\n' :: cs, rest)
      | none =>
        match s with
        | [] => none
        | c :: rest =>
          if escapes && c = '\\' then
            match continuation? rest with
            | some rest => multilineChars? quote escapes fuel rest
            | none => do
              let (c, rest) ← escape? rest
              let (cs, rest) ← multilineChars? quote escapes fuel rest
              return (c :: cs, rest)
          else if isPlain c then do
            let (cs, rest) ← multilineChars? quote escapes fuel rest
            return (c :: cs, rest)
          else none

/-- The characters after a line end, if there is one. -/
def skipLineEnd (s : List Char) : List Char := (lineEnd? s).getD s

/-- A string of one line. -/
def singleLine? : List Char → Option (String × List Char)
  | '"' :: rest => (basicChars? (rest.length + 1) rest).map fun r => (String.ofList r.1, r.2)
  | '\'' :: rest => (literalChars? rest).map fun r => (String.ofList r.1, r.2)
  | _ => none

/-- A string. The first line end of a string of several lines does not count. -/
def string? (s : List Char) : Option (String × List Char) :=
  match s with
  | '"' :: '"' :: '"' :: rest =>
    (multilineChars? '"' true (rest.length + 1) (skipLineEnd rest)).map
      fun r => (String.ofList r.1, r.2)
  | '\'' :: '\'' :: '\'' :: rest =>
    (multilineChars? '\'' false (rest.length + 1) (skipLineEnd rest)).map
      fun r => (String.ofList r.1, r.2)
  | s => singleLine? s

/-! ## Numbers -/

/-- Digits with single underscores between them, without the underscores. -/
def digitRow? (isDigit : Char → Bool) : List Char → Option (List Char × List Char)
  | [] => none
  | c :: rest =>
    if isDigit c then
      match rest with
      | '_' :: rest => do
        let (ds, rest) ← digitRow? isDigit rest
        return (c :: ds, rest)
      | rest =>
        match digitRow? isDigit rest with
        | some (ds, rest) => some (c :: ds, rest)
        | none => if (rest.head?.map isDigit).getD false then none else some ([c], rest)
    else none

/-- A decimal digit. -/
def isDecimal (c : Char) : Bool := '0' ≤ c && c ≤ '9'

/-- A digit of a base up to sixteen. -/
def isDigitOf (base : Nat) (c : Char) : Bool :=
  match hexValue? [c] with
  | some d => d < base
  | none => false

/-- A sign, if there is one. -/
def sign (s : List Char) : Bool × List Char :=
  match s with
  | '-' :: rest => (true, rest)
  | '+' :: rest => (false, rest)
  | s => (false, s)

/-- Decimal digits that do not start with a zero, unless it is the only one. -/
def wholeDigits? (s : List Char) : Option (List Char × List Char) :=
  match s with
  | '0' :: rest => some (['0'], rest)
  | s => digitRow? isDecimal s

/-- Largest integer. -/
def maxInteger : Nat := 9223372036854775807

/-- An integer in a base other than ten. -/
def basedInteger? (base : Nat) (s : List Char) : Option (Toml × List Char) := do
  let (ds, rest) ← digitRow? (isDigitOf base) s
  let n := ds.foldl (fun n c => n * base + (hexValue? [c]).getD 0) 0
  if n ≤ maxInteger then return (.integer n, rest) else none

/-- An integer of 64 bits. -/
def integer? (s : List Char) : Option (Toml × List Char) :=
  match s with
  | '0' :: 'x' :: rest => basedInteger? 16 rest
  | '0' :: 'o' :: rest => basedInteger? 8 rest
  | '0' :: 'b' :: rest => basedInteger? 2 rest
  | s => do
    let (negative, s) := sign s
    let (ds, rest) ← wholeDigits? s
    let n ← Text.digits? ds
    if n ≤ maxInteger + (if negative then 1 else 0) then
      return (.integer (if negative then -n else n), rest)
    else none

/-- A point with digits, if there is one. -/
def fraction? (s : List Char) : Option (List Char × List Char) :=
  match s with
  | '.' :: rest => (digitRow? isDecimal rest).map fun r => ('.' :: r.1, r.2)
  | s => some ([], s)

/-- An exponent part, if there is one: its value and its text. -/
def exponent? (s : List Char) : Option (Option Int × List Char × List Char) :=
  match s with
  | 'e' :: rest | 'E' :: rest => do
    let (negative, rest) := sign rest
    let (ds, rest) ← digitRow? isDecimal rest
    let n ← Text.digits? ds
    return (some (if negative then -n else n), 'e' :: (if negative then ['-'] else []) ++ ds, rest)
  | s => some (none, [], s)

/-- A number with a point or exponent, or one of the special numbers. A positive number that is
too large for 64 bits is refused. -/
def float? (s : List Char) : Option (Toml × List Char) :=
  let (negative, unsigned) := sign s
  let signText := if negative then ['-'] else []
  match unsigned with
  | 'i' :: 'n' :: 'f' :: rest => some (.float (String.ofList (signText ++ ['i', 'n', 'f'])), rest)
  | 'n' :: 'a' :: 'n' :: rest => some (.float (String.ofList (signText ++ ['n', 'a', 'n'])), rest)
  | unsigned => do
    let (whole, rest) ← wholeDigits? unsigned
    let (fraction, rest) ← fraction? rest
    let (exponent, exponentText, rest) ← exponent? rest
    if fraction.isEmpty && exponent.isNone then none
    let places := fraction.drop 1
    let digits ← Text.digits? (whole ++ places)
    let value := Binary64.ofDecimal false digits (exponent.getD 0 - places.length)
    if !negative && !value.isFinite then none
    return (.float (String.ofList (signText ++ whole ++ fraction ++ exponentText)), rest)

/-! ## Dates -/

/-- A number of a fixed count of digits between two bounds. -/
def fixedNumber? (count low high : Nat) (s : List Char) : Option (Nat × List Char) := do
  if s.length < count then none
  let n ← Text.digits? (s.take count)
  if low ≤ n && n ≤ high then return (n, s.drop count) else none

/-- The characters after a given one. -/
def after? (c : Char) (s : List Char) : Option (List Char) :=
  match s with
  | d :: rest => if d = c then some rest else none
  | [] => none

/-- Days of a month. -/
def daysIn (year month : Nat) : Nat :=
  if month = 2 then
    if year % 4 = 0 && (year % 100 ≠ 0 || year % 400 = 0) then 29 else 28
  else if month = 4 || month = 6 || month = 9 || month = 11 then 30
  else 31

/-- The characters after a date. -/
def date? (s : List Char) : Option (List Char) := do
  let (year, s) ← fixedNumber? 4 0 9999 s
  let (month, s) ← fixedNumber? 2 1 12 (← after? '-' s)
  let (_, s) ← fixedNumber? 2 1 (daysIn year month) (← after? '-' s)
  return s

/-- The characters after a fraction of a second, if there is one. -/
def secondFraction? (s : List Char) : Option (List Char) :=
  match s with
  | '.' :: rest =>
    if (rest.head?.map isDecimal).getD false then some (rest.dropWhile isDecimal) else none
  | s => some s

/-- The characters after a time of day. -/
def time? (s : List Char) : Option (List Char) := do
  let (_, s) ← fixedNumber? 2 0 23 s
  let (_, s) ← fixedNumber? 2 0 59 (← after? ':' s)
  let (_, s) ← fixedNumber? 2 0 60 (← after? ':' s)
  secondFraction? s

/-- The characters after an offset from universal time. -/
def offset? (s : List Char) : Option (List Char) :=
  match s with
  | 'Z' :: rest | 'z' :: rest => some rest
  | '+' :: rest | '-' :: rest => do
    let (_, s) ← fixedNumber? 2 0 23 rest
    let (_, s) ← fixedNumber? 2 0 59 (← after? ':' s)
    return s
  | _ => none

/-- The characters after a time that follows a date. -/
def timeAfterDate? (s : List Char) : Option (List Char) :=
  match s with
  | 'T' :: rest | 't' :: rest | ' ' :: rest => do
    let s ← time? rest
    return (offset? s).getD s
  | _ => none

/-- A date, a time of day, or both with or without an offset. -/
def dateTime? (s : List Char) : Option (Toml × List Char) := do
  let rest ←
    match date? s with
    | some rest => some ((timeAfterDate? rest).getD rest)
    | none => time? s
  return (.dateTime (String.ofList (s.take (s.length - rest.length))), rest)

/-- A number or date. -/
def numberOrDate? (s : List Char) : Option (Toml × List Char) :=
  (dateTime? s).orElse fun _ => (float? s).orElse fun _ => integer? s

end QmlStubs.Toml
