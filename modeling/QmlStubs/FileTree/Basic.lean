import QmlStubs.Number.Binary64
import QmlStubs.Path.Basic

/-!
# File trees

Everything the generator reads and writes is one value, a `FileTree`: a sorted map from places to
entries. A place is the list of names from the root down, so the entries below a directory are
those whose place starts with the directory's place, in depth-first order, and a change at one
place leaves the look-up of every other place as it was.

`FileTree.follow?` finds the place that a path leads to. It takes links one after another, forty
at most, and keeps the two ways in which nothing may be there apart: a name that is free in a
directory that exists, where an entry can be created, and a path that leads nowhere.
-/

set_option autoImplicit false

namespace QmlStubs

/-- Why an operation on files is refused. -/
inductive FileError where
  | notFound
  | notADirectory
  | isADirectory
  | alreadyExists
  | directoryNotEmpty
  | invalidData
  | invalidInput
  | invalidName
  | tooManyLinks
  | permissionDenied
  | brokenPipe
  deriving DecidableEq

/-- The kind of a refusal. -/
def FileError.kind : FileError → String
  | notFound => "NotFound"
  | notADirectory => "NotADirectory"
  | isADirectory => "IsADirectory"
  | alreadyExists => "AlreadyExists"
  | directoryNotEmpty => "DirectoryNotEmpty"
  | invalidData => "InvalidData"
  | invalidInput => "InvalidInput"
  | invalidName => "InvalidFilename"
  | tooManyLinks => "FilesystemLoop"
  | permissionDenied => "PermissionDenied"
  | brokenPipe => "BrokenPipe"

/-- A refusal inside a message: its kind in angle brackets, since the wording differs between
systems. -/
def FileError.message (e : FileError) : String := "<" ++ e.kind ++ ">"

/-- A moment: seconds since 1970, which may be negative, and nanoseconds to be added. -/
structure FileTime where
  seconds : Int
  nanoseconds : Nat
  deriving DecidableEq

/-- A moment as a number of seconds; there is none for a moment before 1970. -/
def FileTime.toBinary64? (t : FileTime) : Option Binary64 :=
  if 0 ≤ t.seconds then some (.ofSeconds t.seconds.toNat t.nanoseconds) else none

/-- What is at a place. -/
inductive Entry where
  | directory (modified : FileTime)
  | file (content : ByteArray) (modified : FileTime) (executable : Bool)
  | link (target : Path)

/-- The names from the root down. -/
abbrev Place := List String

/-- Files, directories and links. The root is a directory that is always there and has no entry. -/
structure FileTree where
  entries : SortedMap Place Entry
  /-- The directory that relative paths start from. -/
  current : Place
  /-- The time given to what is written. -/
  clock : FileTime

namespace FileTree

/-- The entry at a place. -/
def at? (t : FileTree) (p : Place) : Option Entry :=
  if p = [] then some (.directory t.clock) else t.entries.find? p

/-- Whether there is a directory at a place. -/
def isDirectoryAt (t : FileTree) (p : Place) : Bool :=
  match t.at? p with
  | some (.directory _) => true
  | _ => false

/-- The absolute path of a place. -/
def pathOf (p : Place) : Path := ⟨"/" ++ Text.joinStrings '/' p⟩

/-- The names in a directory, in order. -/
def namesIn (t : FileTree) (p : Place) : List String :=
  t.entries.keys.filterMap fun q =>
    match q.getLast? with
    | some n => if q.dropLast = p then some n else none
    | none => none

/-! ## Following paths -/

/-- One step of a path. -/
inductive Step where
  | stay
  | up
  | down (name : String)
  deriving DecidableEq

/-- The step that a part between slashes stands for. -/
def stepOf? (part : List Char) : Option Step :=
  match part with
  | [] => none
  | ['.'] => some .stay
  | ['.', '.'] => some .up
  | part => some (.down (String.ofList part))

/-- The steps of a path. A slash at the end asks for a directory, as a dot there does. -/
def stepsOf (p : Path) : List Step :=
  let parts := Text.split '/' p.text.toList
  parts.filterMap stepOf? ++ if parts.getLast? = some [] then [.stay] else []

/-- Where a path leads. -/
inductive Destination where
  /-- An entry, after all links. -/
  | found (place : Place)
  /-- No entry, but the directory that would hold it. -/
  | free (place : Place)
  deriving DecidableEq

/-- How far a path goes without taking a link. -/
inductive Progress where
  | arrived (d : Destination)
  | refused (e : FileError)
  /-- A link, and the steps that are left from the place where it starts. -/
  | atLink (start : Place) (steps : List Step)

/-- Longest name of an entry, in bytes. -/
def maxNameLength : Nat := 255

/-- Longest path, in bytes. -/
def maxPathLength : Nat := 4095

/-- The place where a link target starts. -/
def linkStart (target : Path) (directory : Place) : Place :=
  if target.isAbsolute then [] else directory

/-- Take steps from a place up to the first link. -/
def advance (t : FileTree) (place : Place) : List Step → Progress
  | [] => .arrived (.found place)
  | step :: rest =>
    if t.isDirectoryAt place then
      match step with
      | .stay => advance t place rest
      | .up => advance t place.dropLast rest
      | .down name =>
        if maxNameLength < name.utf8ByteSize then .refused .invalidName
        else
          let next := place ++ [name]
          match t.at? next with
          | some (.link target) =>
            .atLink (linkStart target place) (stepsOf target ++ rest)
          | some _ => advance t next rest
          | none => if rest = [] then .arrived (.free next) else .refused .notFound
    else .refused .notADirectory

/-- Follow steps from a place, taking at most so many links. -/
def followSteps (t : FileTree) : Nat → Place → List Step → Except FileError Destination
  | links, place, steps =>
    match t.advance place steps with
    | .arrived d => .ok d
    | .refused e => .error e
    | .atLink start steps =>
      match links with
      | 0 => .error .tooManyLinks
      | links + 1 => followSteps t links start steps

/-- Most links that one path may take. -/
def maxLinks : Nat := 40

/-- The place where a path starts. -/
def startOf (t : FileTree) (p : Path) : Place := if p.isAbsolute then [] else t.current

/-- What is wrong with the text of a path before any entry is looked at. -/
def textError? (p : Path) : Option FileError :=
  if p.text.toList.contains '\x00' then some .invalidInput
  else if p.text = "" then some .notFound
  else if maxPathLength < p.text.utf8ByteSize then some .invalidName
  else none

/-- Where a path leads, through all links. -/
def follow? (t : FileTree) (p : Path) : Except FileError Destination :=
  match textError? p with
  | some e => .error e
  | none => t.followSteps maxLinks (t.startOf p) (stepsOf p)

/-- The place of the entry that a path leads to. -/
def place? (t : FileTree) (p : Path) : Except FileError Place := do
  match ← t.follow? p with
  | .found place => return place
  | .free _ => throw .notFound

/-- Where a path leads when a link at its end is not taken. A path that ends in dots has no last
name and is followed to its end. -/
def followParent? (t : FileTree) (p : Path) : Except FileError Destination :=
  match textError? p with
  | some e => .error e
  | none =>
    let steps := stepsOf p
    match steps.getLast? with
    | some (.down name) =>
      if maxNameLength < name.utf8ByteSize then .error .invalidName
      else do
        match ← t.followSteps maxLinks (t.startOf p) steps.dropLast with
        | .free _ => throw .notFound
        | .found directory =>
          if t.isDirectoryAt directory then
            let place := directory ++ [name]
            return if (t.at? place).isSome then .found place else .free place
          else throw .notADirectory
    | _ => t.followSteps maxLinks (t.startOf p) steps

/-! ## Reading -/

/-- Whether a path leads to an entry. -/
def isPresent (t : FileTree) (p : Path) : Bool := (t.place? p).toBool

/-- Whether a path leads to a directory. -/
def isDirectory (t : FileTree) (p : Path) : Bool :=
  match t.place? p with
  | .ok place => t.isDirectoryAt place
  | .error _ => false

/-- Whether a path leads to a file. -/
def isFile (t : FileTree) (p : Path) : Bool :=
  match t.place? p with
  | .ok place => !t.isDirectoryAt place
  | .error _ => false

/-- The path without links and dots. -/
def canonical? (t : FileTree) (p : Path) : Except FileError Path := (t.place? p).map pathOf

/-- The path without links and dots, or the path itself if it leads nowhere. -/
def canonicalOr (t : FileTree) (p : Path) : Path :=
  match t.canonical? p with
  | .ok q => q
  | .error _ => p

/-- The bytes of a file. -/
def read? (t : FileTree) (p : Path) : Except FileError ByteArray := do
  match t.at? (← t.place? p) with
  | some (.file content _ _) => return content
  | some (.directory _) => throw .isADirectory
  | _ => throw .notFound

/-- The text of a file. -/
def readText? (t : FileTree) (p : Path) : Except FileError String := do
  match String.fromUTF8? (← t.read? p) with
  | some s => return s
  | none => throw .invalidData

/-- The time of the last change, in seconds since 1970. -/
def modified? (t : FileTree) (p : Path) : Option Binary64 :=
  match t.place? p with
  | .ok place =>
    match t.at? place with
    | some (.file _ time _) => time.toBinary64?
    | some (.directory time) => time.toBinary64?
    | _ => none
  | .error _ => none

/-- The names in the directory that a path leads to. -/
def list? (t : FileTree) (p : Path) : Option (List String) :=
  match t.place? p with
  | .ok place => if t.isDirectoryAt place then some (t.namesIn place) else none
  | .error _ => none

end FileTree

end QmlStubs
