/-!
# Bytes as characters

A types file is read as bytes. Bytes that belong to no UTF-8 character make a string that holds
them unreadable, but they may stand in a part of the file that is skipped, so they are kept as
places without a character instead of refusing the file at once.
-/

set_option autoImplicit false

namespace QmlStubs.Text

/-- A character, or `none` for a byte that belongs to no character. -/
abbrev Symbol := Option Char

/-- The symbols of at most `fuel` characters from a position on. -/
def symbolsFrom (b : ByteArray) : Nat → Nat → List Symbol
  | 0, _ => []
  | fuel + 1, i =>
    if i < b.size then
      match b.utf8DecodeChar? i with
      | some c => some c :: symbolsFrom b fuel (i + c.utf8Size)
      | none => none :: symbolsFrom b fuel (i + 1)
    else []

/-- The symbols of a text. -/
def ofString (s : String) : List Symbol := s.toList.map some

/-- The symbols of a row of bytes. -/
def symbols (b : ByteArray) : List Symbol :=
  match String.fromUTF8? b with
  | some s => ofString s
  | none => symbolsFrom b b.size 0

end QmlStubs.Text
