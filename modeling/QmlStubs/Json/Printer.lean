import QmlStubs.Json.Basic

/-!
# Writing JSON text

Two layouts of one value: compact, for lines sent to the import helper, and indented by four
spaces, for the files that are kept. Both write the members in the order of the value.
-/

set_option autoImplicit false

namespace QmlStubs.Json

/-- The written form of one character of a string. Controls are escaped, and nothing else but the
quote and the backslash. -/
def escapeChar (c : Char) : List Char :=
  match c with
  | '"' => ['\\', '"']
  | '\\' => ['\\', '\\']
  | '\x08' => ['\\', 'b']
  | '\x0c' => ['\\', 'f']
  | '\n' => ['\\', 'n']
  | '\r' => ['\\', 'r']
  | '\t' => ['\\', 't']
  | c =>
    if c < ' ' then
      ['\\', 'u', '0', '0', Nat.digitChar (c.toNat / 16), Nat.digitChar (c.toNat % 16)]
    else [c]

/-- A string between quotes. -/
def quote (s : String) : List Char := '"' :: s.toList.flatMap escapeChar ++ ['"']

/-- An unreadable string has no text; it is written as the empty string. -/
def quoteKey (s : Option String) : List Char := quote (s.getD "")

mutual

/-- A value without blanks. -/
def compactChars : Json → List Char
  | .null => ['n', 'u', 'l', 'l']
  | .bool true => ['t', 'r', 'u', 'e']
  | .bool false => ['f', 'a', 'l', 's', 'e']
  | .number n => n.text
  | .string s => quoteKey s
  | .array items => '[' :: compactItems items ++ [']']
  | .object members => '\x7b' :: compactMembers members ++ ['\x7d']

/-- Items with commas between them. -/
def compactItems : List Json → List Char
  | [] => []
  | [v] => v.compactChars
  | v :: rest => v.compactChars ++ ',' :: compactItems rest

/-- Members with commas between them. -/
def compactMembers : List (Option String × Json) → List Char
  | [] => []
  | [(k, v)] => quoteKey k ++ ':' :: v.compactChars
  | (k, v) :: rest => quoteKey k ++ ':' :: v.compactChars ++ ',' :: compactMembers rest

end

/-- A new line and the blanks before a nested value. -/
def newLine (level : Nat) : List Char := '\n' :: List.replicate (4 * level) ' '

mutual

/-- A value at a nesting level, indented by four spaces a level. -/
def indentedChars (level : Nat) : Json → List Char
  | .array [] => ['[', ']']
  | .array (v :: items) =>
    '[' :: newLine (level + 1) ++ v.indentedChars (level + 1) ++ indentedItems (level + 1) items ++
      newLine level ++ [']']
  | .object [] => ['\x7b', '\x7d']
  | .object ((k, v) :: members) =>
    '\x7b' :: newLine (level + 1) ++ quoteKey k ++ ':' :: ' ' :: v.indentedChars (level + 1) ++
      indentedMembers (level + 1) members ++ newLine level ++ ['\x7d']
  | .null => ['n', 'u', 'l', 'l']
  | .bool true => ['t', 'r', 'u', 'e']
  | .bool false => ['f', 'a', 'l', 's', 'e']
  | .number n => n.text
  | .string s => quoteKey s

/-- The items after the first. -/
def indentedItems (level : Nat) : List Json → List Char
  | [] => []
  | v :: rest => ',' :: newLine level ++ v.indentedChars level ++ indentedItems level rest

/-- The members after the first. -/
def indentedMembers (level : Nat) : List (Option String × Json) → List Char
  | [] => []
  | (k, v) :: rest =>
    ',' :: newLine level ++ quoteKey k ++ ':' :: ' ' :: v.indentedChars level ++
      indentedMembers level rest

end

/-- The text of a value without blanks. -/
def compact (j : Json) : String := String.ofList j.compactChars

/-- The text of a value indented by four spaces a level. -/
def indented (j : Json) : String := String.ofList (j.indentedChars 0)

end QmlStubs.Json
