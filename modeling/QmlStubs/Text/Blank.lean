/-!
# Blank characters

The characters with the property White_Space, which separate the words of a command.
-/

set_option autoImplicit false

namespace QmlStubs.Text

/-- Ranges of code points with the property White_Space. -/
def blankRanges : List (Nat × Nat) :=
  [(0x9, 0xd), (0x20, 0x20), (0x85, 0x85), (0xa0, 0xa0), (0x1680, 0x1680), (0x2000, 0x200a),
    (0x2028, 0x2029), (0x202f, 0x202f), (0x205f, 0x205f), (0x3000, 0x3000)]

/-- Whether a character separates words. -/
def isBlank (c : Char) : Bool := blankRanges.any fun r => r.1 ≤ c.toNat && c.toNat ≤ r.2

/-- Put a character in front of the words of what follows it. -/
def addToWords (c : Char) (words : List (List Char)) : List (List Char) :=
  if isBlank c then [] :: words
  else
    match words with
    | [] => [[c]]
    | w :: rest => (c :: w) :: rest

/-- The rows of characters between blanks. -/
def words (s : String) : List String :=
  ((s.toList.foldr addToWords []).filter fun w => !w.isEmpty).map String.ofList

end QmlStubs.Text
