import QmlStubs.Text.GraphemeExtend
import QmlStubs.Text.Printable

/-!
# Quoted text in messages

An error message that names a text the user wrote shows it between double quotes, so that blanks
at its ends and characters without a visible form can be seen.
-/

set_option autoImplicit false

namespace QmlStubs.Text

/-- The written form of one character inside quotes. An apostrophe stands for itself. -/
def quoteChar (c : Char) : List Char :=
  match c with
  | '"' => ['\\', '"']
  | '\\' => ['\\', '\\']
  | '\n' => ['\\', 'n']
  | '\t' => ['\\', 't']
  | '\r' => ['\\', 'r']
  | '\x00' => ['\\', '0']
  | c =>
    if isGraphemeExtend c || !isPrintable c then
      ['\\', 'u', '\x7b'] ++ Nat.toDigits 16 c.toNat ++ ['\x7d']
    else [c]

/-- A text between double quotes. -/
def quoted (s : String) : String :=
  String.ofList ('"' :: s.toList.flatMap quoteChar ++ ['"'])

end QmlStubs.Text
