import QmlStubs.Json.Basic
import QmlStubs.Text.Split
import QmlStubs.Text.Utf8

/-!
# Reading JSON text

The reader is strict: nothing but blanks around the value, no comments, no trailing commas, no
raw control characters in strings. It accepts every text of the grammar, whatever its strings and
numbers mean; meaning is looked at where a value is read into a type.

Each function takes the symbols that are left and returns what is left after it. The fuel of the
recursive ones bounds the nesting and the number of items together; `Json.parse?` gives enough for
any text, since each step down or along takes at least one symbol from the text.
-/

set_option autoImplicit false

namespace QmlStubs.Json

open Text (Symbol)

-- Powers are those of the core library, also where more instances are known.
attribute [local instance (high)] instPowNat

/-- A blank between tokens. -/
def isBlank : Symbol → Bool
  | some c => c = ' ' || c = '\n' || c = '\t' || c = '\r'
  | none => false

/-- The symbols from the next token on. -/
def skipBlanks (s : List Symbol) : List Symbol := s.dropWhile isBlank

/-! ## Strings -/

/-- A piece of a string: a character, a stray byte, or a number of sixteen bits from an escape. -/
inductive StringPiece where
  | char (c : Char)
  | stray
  | unit (code : Nat)

/-- The value of a hexadecimal digit. -/
def hexDigit? : Symbol → Option Nat
  | some c =>
    if '0' ≤ c && c ≤ '9' then some (c.toNat - '0'.toNat)
    else if 'a' ≤ c && c ≤ 'f' then some (c.toNat - 'a'.toNat + 10)
    else if 'A' ≤ c && c ≤ 'F' then some (c.toNat - 'A'.toNat + 10)
    else none
  | none => none

/-- The character that a short escape stands for. -/
def shortEscape? : Char → Option Char
  | '"' => some '"'
  | '\\' => some '\\'
  | '/' => some '/'
  | 'b' => some '\x08'
  | 'f' => some '\x0c'
  | 'n' => some '\n'
  | 'r' => some '\r'
  | 't' => some '\t'
  | _ => none

/-- The pieces up to the closing quote, and what follows it. -/
def stringPieces? : List Symbol → Option (List StringPiece × List Symbol)
  | [] => none
  | some '"' :: rest => some ([], rest)
  | some '\\' :: some 'u' :: a :: b :: c :: d :: rest => do
    let code := ((← hexDigit? a) * 16 + (← hexDigit? b)) * 256 +
      ((← hexDigit? c) * 16 + (← hexDigit? d))
    let (pieces, rest) ← stringPieces? rest
    return (.unit code :: pieces, rest)
  | some '\\' :: some e :: rest => do
    let c ← shortEscape? e
    let (pieces, rest) ← stringPieces? rest
    return (.char c :: pieces, rest)
  | some c :: rest => do
    if c = '\\' || c < ' ' then none
    let (pieces, rest) ← stringPieces? rest
    return (.char c :: pieces, rest)
  | none :: rest => do
    let (pieces, rest) ← stringPieces? rest
    return (.stray :: pieces, rest)

/-- The first half of a surrogate pair. -/
def isLeading (code : Nat) : Bool := 0xD800 ≤ code && code ≤ 0xDBFF

/-- The second half of a surrogate pair. -/
def isTrailing (code : Nat) : Bool := 0xDC00 ≤ code && code ≤ 0xDFFF

/-- The characters of the pieces, unless a byte is stray or half of a pair stands alone. -/
def decodePieces : List StringPiece → Option (List Char)
  | [] => some []
  | .char c :: rest => (decodePieces rest).map (c :: ·)
  | .stray :: _ => none
  | .unit a :: .unit b :: rest =>
    if isLeading a then
      if isTrailing b then
        let code := 0x10000 + (a - 0xD800) * 0x400 + (b - 0xDC00)
        (decodePieces rest).map (Char.ofNat code :: ·)
      else none
    else if isTrailing a then none
    else (decodePieces (.unit b :: rest)).map (Char.ofNat a :: ·)
  | .unit a :: rest =>
    if isLeading a || isTrailing a then none
    else (decodePieces rest).map (Char.ofNat a :: ·)

/-- A string after its opening quote. -/
def quotedString? (s : List Symbol) : Option (Option String × List Symbol) := do
  let (pieces, rest) ← stringPieces? s
  return ((decodePieces pieces).map String.ofList, rest)

/-! ## Numbers -/

/-- A row of decimal digits: its value, its length, and what follows. -/
def digitRow (s : List Symbol) : Nat × Nat × List Symbol :=
  match s with
  | some c :: rest =>
    match Text.digit? c with
    | some d =>
      let (value, count, rest) := digitRow rest
      (d * 10 ^ count + value, count + 1, rest)
    | none => (0, 0, s)
  | _ => (0, 0, s)

/-- An exponent part, or zero without one. -/
def exponentPart? (s : List Symbol) : Option (Option Int × List Symbol) :=
  match s with
  | some 'e' :: rest | some 'E' :: rest =>
    let (negative, rest) :=
      match rest with
      | some '-' :: rest => (true, rest)
      | some '+' :: rest => (false, rest)
      | rest => (false, rest)
    match digitRow rest with
    | (_, 0, _) => none
    | (value, _, rest) => some (some (if negative then -value else value), rest)
  | _ => some (none, s)

/-- A number after its sign. -/
def unsignedNumber? (negative : Bool) (s : List Symbol) : Option (Numeral × List Symbol) := do
  let (whole, count, rest) := digitRow s
  if count = 0 then none
  match s with
  | some '0' :: _ => if count ≠ 1 then none
  | _ => pure ()
  let (fraction, places, rest) ←
    match rest with
    | some '.' :: rest =>
      match digitRow rest with
      | (_, 0, _) => none
      | (value, places, rest) => some (value, places, rest)
    | rest => some (0, 0, rest)
  let (exponent, rest) ← exponentPart? rest
  return (⟨negative, whole * 10 ^ places + fraction, exponent.getD 0 - places,
    places == 0 && exponent.isNone⟩, rest)

/-! ## Values -/

mutual

/-- A value and what follows it. -/
def value? : Nat → List Symbol → Option (Json × List Symbol)
  | 0, _ => none
  | fuel + 1, s =>
    match skipBlanks s with
    | some 'n' :: some 'u' :: some 'l' :: some 'l' :: rest => some (.null, rest)
    | some 't' :: some 'r' :: some 'u' :: some 'e' :: rest => some (.bool true, rest)
    | some 'f' :: some 'a' :: some 'l' :: some 's' :: some 'e' :: rest => some (.bool false, rest)
    | some '"' :: rest => do
      let (text, rest) ← quotedString? rest
      return (.string text, rest)
    | some '[' :: rest =>
      match skipBlanks rest with
      | some ']' :: rest => some (.array [], rest)
      | rest => do
        let (items, rest) ← items? fuel rest
        return (.array items, rest)
    | some '\x7b' :: rest =>
      match skipBlanks rest with
      | some '\x7d' :: rest => some (.object [], rest)
      | rest => do
        let (members, rest) ← members? fuel rest
        return (.object members, rest)
    | some '-' :: rest => do
      let (n, rest) ← unsignedNumber? true rest
      return (.number n, rest)
    | rest => do
      let (n, rest) ← unsignedNumber? false rest
      return (.number n, rest)

/-- The items of a list that has one, up to the closing bracket. -/
def items? : Nat → List Symbol → Option (List Json × List Symbol)
  | 0, _ => none
  | fuel + 1, s => do
    let (v, rest) ← value? fuel s
    match skipBlanks rest with
    | some ']' :: rest => return ([v], rest)
    | some ',' :: rest =>
      let (items, rest) ← items? fuel rest
      return (v :: items, rest)
    | _ => none

/-- The members of an object that has one, up to the closing brace. -/
def members? : Nat → List Symbol → Option (List (Option String × Json) × List Symbol)
  | 0, _ => none
  | fuel + 1, s =>
    match skipBlanks s with
    | some '"' :: rest => do
      let (key, rest) ← quotedString? rest
      match skipBlanks rest with
      | some ':' :: rest =>
        let (v, rest) ← value? fuel rest
        match skipBlanks rest with
        | some '\x7d' :: rest => return ([(key, v)], rest)
        | some ',' :: rest =>
          let (members, rest) ← members? fuel rest
          return ((key, v) :: members, rest)
        | _ => none
      | _ => none
    | _ => none

end

/-- The value of a text that holds one value and blanks. -/
def ofSymbols? (s : List Symbol) : Option Json :=
  match value? (2 * s.length + 2) s with
  | some (v, rest) => if (skipBlanks rest).isEmpty then some v else none
  | none => none

/-- The value of a text. -/
def parse? (s : String) : Option Json := ofSymbols? (Text.ofString s)

/-- The value of a row of bytes. -/
def parseBytes? (b : ByteArray) : Option Json := ofSymbols? (Text.symbols b)

end QmlStubs.Json
