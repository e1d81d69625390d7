import QmlStubs.Path.Basic

/-!
# Patterns of file names

A pattern is a path whose parts may match several names. In a part `?` stands for one character, `*`
for any row of characters, and brackets for one character out of a set or, with `!`, outside of
it. The part `**` stands for directories at any depth. No character of a name is special, so a
name that starts with a dot is matched like any other.
-/

set_option autoImplicit false

namespace QmlStubs.Glob

/-- A member of a bracketed set. -/
inductive CharSpec where
  | one (c : Char)
  | range (low high : Char)
  deriving DecidableEq

/-- One element of a part. -/
inductive Token where
  | char (c : Char)
  | anyChar
  | anyRow
  | oneOf (specs : List CharSpec)
  | noneOf (specs : List CharSpec)
  deriving DecidableEq

/-- One part of a pattern. -/
inductive Part where
  /-- A name without special characters, which is looked up directly. -/
  | literal (name : String)
  /-- All names that the tokens match. -/
  | names (tokens : List Token)
  /-- Directories at any depth. -/
  | anyDepth
  deriving DecidableEq

/-- A pattern: where the search starts, its parts, and whether only directories match. -/
structure Pattern where
  start : Path
  parts : List Part
  directoriesOnly : Bool
  deriving DecidableEq

/-! ## Escaping -/

/-- A text as a pattern that matches itself alone. -/
def escape (s : List Char) : List Char :=
  s.flatMap fun c =>
    if c = '?' || c = '*' || c = '[' || c = ']' then ['[', c, ']'] else [c]

/-! ## Reading patterns -/

/-- The members of a bracketed set. A minus between two characters makes a range. -/
def charSpecs : List Char → List CharSpec
  | a :: '-' :: b :: rest => .range a b :: charSpecs rest
  | a :: rest => .one a :: charSpecs rest
  | [] => []

/-- The characters before and after the first closing bracket. -/
def untilBracket? (s : List Char) : Option (List Char × List Char) :=
  match s.dropWhile (· ≠ ']') with
  | _ :: rest => some (s.takeWhile (· ≠ ']'), rest)
  | [] => none

/-- The tokens of a part. The first character inside brackets may be a closing bracket. Two stars
in a row are refused, and so is a bracket without its partner. -/
def tokens? : Nat → List Char → Option (List Token)
  | _, [] => some []
  | 0, _ => none
  | _ + 1, '*' :: '*' :: _ => none
  | fuel + 1, '*' :: rest => (tokens? fuel rest).map (.anyRow :: ·)
  | fuel + 1, '?' :: rest => (tokens? fuel rest).map (.anyChar :: ·)
  | fuel + 1, '[' :: '!' :: c :: rest => do
    let (inside, rest) ← untilBracket? rest
    return .noneOf (charSpecs (c :: inside)) :: (← tokens? fuel rest)
  | _ + 1, ['[', '!'] => none
  | fuel + 1, '[' :: c :: rest => do
    let (inside, rest) ← untilBracket? rest
    return .oneOf (charSpecs (c :: inside)) :: (← tokens? fuel rest)
  | _ + 1, ['['] => none
  | fuel + 1, c :: rest => (tokens? fuel rest).map (.char c :: ·)

/-- The text of tokens that are all plain characters. -/
def literalChars? : List Token → Option (List Char)
  | [] => some []
  | .char c :: rest => (literalChars? rest).map (c :: ·)
  | _ :: _ => none

/-- One part of a pattern. -/
def part? (s : List Char) : Option Part :=
  if s = ['*', '*'] then some .anyDepth
  else (tokens? s.length s).map fun ts =>
    match literalChars? ts with
    | some cs => .literal (String.ofList cs)
    | none => .names ts

/-- Parts in which `**` does not follow itself, which would say the same twice. -/
def mergeDepths : List Part → List Part
  | .anyDepth :: .anyDepth :: rest => mergeDepths (.anyDepth :: rest)
  | p :: rest => p :: mergeDepths rest
  | [] => []

/-- The parts of a text between slashes; a slash at the end starts no further part. -/
def partTexts (s : List Char) : List (List Char) :=
  let parts := Text.split '/' s
  if parts.getLast? = some [] then parts.dropLast else parts

/-- The pattern of a text. One that starts with a slash is searched from the root. -/
def Pattern.ofChars? (s : List Char) : Option Pattern := do
  let (start, rest) := match s with
    | '/' :: rest => ("/", rest)
    | s => (".", s)
  let parts ← (partTexts rest).mapM part?
  return {
    start := ⟨start⟩
    parts := mergeDepths parts
    directoriesOnly := s.getLast? = some '/' }

/-! ## Matching names -/

/-- Whether a member of a set is a character. -/
def CharSpec.holds (c : Char) : CharSpec → Bool
  | .one d => c = d
  | .range low high => low ≤ c && c ≤ high

/-- Whether a test holds for a text or one of its ends. -/
def anyEnd (test : List Char → Bool) : List Char → Bool
  | [] => test []
  | c :: rest => test (c :: rest) || anyEnd test rest

/-- Whether tokens match a whole text. -/
def tokensMatch : List Token → List Char → Bool
  | [], s => s.isEmpty
  | .anyRow :: ts, s => anyEnd (tokensMatch ts) s
  | .char c :: ts, d :: s => c = d && tokensMatch ts s
  | .anyChar :: ts, _ :: s => tokensMatch ts s
  | .oneOf specs :: ts, d :: s => specs.any (CharSpec.holds d) && tokensMatch ts s
  | .noneOf specs :: ts, d :: s => !specs.any (CharSpec.holds d) && tokensMatch ts s
  | _ :: _, [] => false

/-- Whether a part matches a name. -/
def Part.matchesName (name : String) : Part → Bool
  | .literal text => text = name
  | .names ts => tokensMatch ts name.toList
  | .anyDepth => true

end QmlStubs.Glob
