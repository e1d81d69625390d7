import QmlStubs.FileTree.Basic

/-!
# Starting programs

The generator runs two other programs, the import helper and the registrar. What such a program
does is a parameter; whether it can be started at all is decided here from the file tree. A program
name with a slash is a path from the directory that the program starts in, any other name is looked
for in the search path.
-/

set_option autoImplicit false

namespace QmlStubs

/-- What a program is started with. -/
structure Launch where
  /-- The program and its arguments. -/
  command : List String
  /-- The directory it starts in, when that is not the current one. -/
  directory : Option Path
  /-- Variables that are set for it. -/
  environment : List (String × String)
  deriving DecidableEq

namespace Launch

/-- The directory a program starts in. -/
def startPlace? (l : Launch) (t : FileTree) : Except FileError Place :=
  match l.directory with
  | none => .ok t.current
  | some p => do
    let place ← t.place? p
    if t.isDirectoryAt place then return place else throw .notADirectory

/-- Why the entry at a path cannot be run, if it cannot. -/
def runError? (t : FileTree) (p : Path) : Option FileError :=
  match t.place? p with
  | .error e => some e
  | .ok place =>
    match t.at? place with
    | some (.file _ _ true) => none
    | _ => some .permissionDenied

/-- Why no directory of the search path has a program to run, if none has: the name is nowhere,
or what it names may not be run. -/
def searchError? (t : FileTree) (name : String) (searchPath : List Path) : Option FileError :=
  let errors := searchPath.map fun d => runError? t (d.join name)
  if errors.any Option.isNone then none
  else if errors.contains (some .permissionDenied) then some .permissionDenied
  else some .notFound

/-- Whether a text holds the character that ends texts outside the generator. -/
def holdsNul (s : String) : Bool := s.toList.contains '\x00'

/-- Why a program cannot be started, if it cannot. -/
def startError? (l : Launch) (t : FileTree) (searchPath : List Path) : Option FileError :=
  if l.command.any holdsNul || l.environment.any fun e => holdsNul e.1 || holdsNul e.2 then
    some .invalidInput
  else
    match l.startPlace? t, l.command with
    | .error e, _ => some e
    | .ok _, [] => some .notFound
    | .ok place, name :: _ =>
      if name = "" then some .notFound
      else if name.toList.contains '/' then runError? { t with current := place } ⟨name⟩
      else searchError? t name searchPath

end Launch

end QmlStubs
