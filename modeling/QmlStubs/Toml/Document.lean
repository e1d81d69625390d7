import QmlStubs.Toml.Lexeme

/-!
# Reading TOML documents

A document is read line by line: a comment or empty line, a table header, or a key with a value.
Lists may run over several lines, tables in braces stay on one. The nesting of lists and tables in
braces and the length of dotted keys are bounded.
-/

set_option autoImplicit false

namespace QmlStubs.Toml

/-- Nesting of lists and of tables in braces, and parts of a dotted key, stay below this. -/
def depthLimit : Nat := 80

/-! ## Keys -/

/-- A character of a key without quotes. -/
def isBare (c : Char) : Bool :=
  ('a' ≤ c && c ≤ 'z') || ('A' ≤ c && c ≤ 'Z') || isDecimal c || c = '_' || c = '-'

/-- One part of a key. -/
def keyPart? (s : List Char) : Option (String × List Char) :=
  match s with
  | '"' :: _ | '\'' :: _ => singleLine? s
  | s =>
    let bare := s.takeWhile isBare
    if bare.isEmpty then none else some (String.ofList bare, s.dropWhile isBare)

/-- The parts of a dotted key, with blanks around each. -/
def keyParts? : Nat → List Char → Option (List String × List Char)
  | 0, _ => none
  | fuel + 1, s => do
    let (part, rest) ← keyPart? (skipBlanks s)
    match skipBlanks rest with
    | '.' :: rest =>
      let (parts, rest) ← keyParts? fuel rest
      return (part :: parts, rest)
    | rest => return ([part], rest)

/-- A dotted key. -/
def key? (s : List Char) : Option (List String × List Char) := keyParts? (depthLimit - 1) s

/-- A dotted key as the path to its table and its last part. -/
def splitKey (parts : List String) : List String × String :=
  (parts.dropLast, parts.getLast?.getD "")

/-! ## Values -/

mutual

/-- A value inside `depth` lists and tables in braces. -/
def value? (depth : Nat) : Nat → List Char → Option (Toml × List Char)
  | 0, _ => none
  | fuel + 1, s =>
    match s with
    | '"' :: _ | '\'' :: _ => (string? s).map fun r => (.string r.1, r.2)
    | '[' :: rest =>
      if depthLimit ≤ depth + 1 then none
      else (items? (depth + 1) fuel rest).map fun r => (.array r.1, r.2)
    | '\x7b' :: rest =>
      if depthLimit ≤ depth + 1 then none
      else
        match skipBlanks rest with
        | '\x7d' :: rest => some (.table [], rest)
        | _ => do
          let (t, rest) ← braces? (depth + 1) fuel rest .empty
          return (.table (ofMembers t.members), rest)
    | 't' :: 'r' :: 'u' :: 'e' :: rest => some (.boolean true, rest)
    | 'f' :: 'a' :: 'l' :: 's' :: 'e' :: rest => some (.boolean false, rest)
    | s => numberOrDate? s

/-- The items of a list up to its closing bracket. A comma may follow the last one. -/
def items? (depth : Nat) : Nat → List Char → Option (List Toml × List Char)
  | 0, _ => none
  | fuel + 1, s =>
    match skipLines s.length s with
    | ']' :: rest => some ([], rest)
    | s => do
      let (v, rest) ← value? depth fuel s
      match skipLines rest.length rest with
      | ']' :: rest => return ([v], rest)
      | ',' :: rest =>
        let (items, rest) ← items? depth fuel rest
        return (v :: items, rest)
      | _ => none

/-- The members of a table in braces that has one, up to the closing brace. -/
def braces? (depth : Nat) : Nat → List Char → Table → Option (Table × List Char)
  | 0, _, _ => none
  | fuel + 1, s, t => do
    let (parts, rest) ← key? s
    let rest ← after? '=' rest
    let (v, rest) ← value? depth fuel (skipBlanks rest)
    let (path, last) := splitKey parts
    let t ← t.addAt? path last v
    match skipBlanks rest with
    | '\x7d' :: rest => return (t, rest)
    | ',' :: rest => braces? depth fuel rest t
    | _ => none

end

/-! ## Lines -/

/-- The document so far, and the header that keys belong to. -/
structure Progress where
  root : Table
  header : List String

/-- A header after its opening brackets, up to its closing ones. -/
def header? (closing : List Char) (s : List Char) : Option (List String × List Char) := do
  let (parts, rest) ← key? s
  if closing.isPrefixOf rest then
    return (parts, ← endOfLine? (rest.drop closing.length))
  else none

/-- One line that is neither empty nor a comment. -/
def line? (p : Progress) (s : List Char) : Option (Progress × List Char) :=
  match s with
  | '[' :: '[' :: rest => do
    let (parts, rest) ← header? [']', ']'] rest
    let (path, last) := splitKey parts
    return (⟨← p.root.change? false path (Table.openAnother? last), parts⟩, rest)
  | '[' :: rest => do
    let (parts, rest) ← header? [']'] rest
    let (path, last) := splitKey parts
    return (⟨← p.root.change? false path (Table.open? last), parts⟩, rest)
  | s => do
    let (parts, rest) ← key? s
    let rest ← after? '=' rest
    let (v, rest) ← value? 0 (2 * rest.length + 2) (skipBlanks rest)
    let rest ← endOfLine? rest
    let (path, last) := splitKey parts
    return (⟨← p.root.change? false p.header (Table.addAt? path last v), p.header⟩, rest)

/-- All lines of a document. -/
def lines? : Nat → Progress → List Char → Option Table
  | 0, _, _ => none
  | fuel + 1, p, s =>
    match skipLines s.length s with
    | [] => some p.root
    | '#' :: rest => if (rest.dropWhile isPlain).isEmpty then some p.root else none
    | s => do
      let (p, rest) ← line? p s
      lines? fuel p rest

/-- The members of a document. A byte order mark at its start does not count. -/
def parse? (s : String) : Option (List (String × Toml)) :=
  let cs := match s.toList with
    | '\ufeff' :: rest => rest
    | cs => cs
  (lines? (cs.length + 1) ⟨.empty, []⟩ cs).map fun t => ofMembers t.members

end QmlStubs.Toml
