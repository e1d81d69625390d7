import QmlStubs.FileTree.Basic

/-!
# Changing file trees

Each operation is a function of the tree that answers a refusal or nothing, and the tree after it.
The single operations leave the tree alone when they refuse; `makeDirectories` may have made some
of the directories by then, so what an interrupted sequence leaves behind is always the tree after
its last operation.
-/

set_option autoImplicit false

namespace QmlStubs.FileTree

/-- A change of a tree that may be refused. -/
abbrev Edit := ExceptT FileError (StateM FileTree) Unit

/-- Carry an edit out. -/
def run (t : FileTree) (e : Edit) : Except FileError Unit × FileTree := (ExceptT.run e).run t

/-- Set the entry at a place. -/
def put (t : FileTree) (p : Place) (e : Entry) : FileTree :=
  { t with entries := t.entries.insert p e }

/-- Take an entry and all entries below it out. -/
def cut (t : FileTree) (p : Place) : FileTree :=
  { t with entries := t.entries.filter fun q _ => !p.isPrefixOf q }

/-- Take all entries below a place out. -/
def clear (t : FileTree) (p : Place) : FileTree :=
  { t with entries := t.entries.filter fun q _ => q == p || !p.isPrefixOf q }

/-- An edit from a function that refuses or gives the new tree. -/
def editBy (f : FileTree → Except FileError FileTree) : Edit := do
  let t ← get
  match f t with
  | .ok t => set t
  | .error e => throw e

/-- Whether a path ends in a slash. -/
def endsInSlash (p : Path) : Bool := p.text.toList.getLast? == some '/'

/-- The path without slashes at its end. -/
def trimSlashes (p : Path) : Path :=
  let cs := (p.text.toList.reverse.dropWhile (· = '/')).reverse
  if cs.isEmpty then p else ⟨String.ofList cs⟩

/-! ## Files -/

/-- The tree with a file written: a file that is there is overwritten and stays executable, and a
free name gets a new file. A slash at the end of the path asks for a directory, which is no file. -/
def written? (content : ByteArray) (p : Path) (t : FileTree) : Except FileError FileTree := do
  if endsInSlash p then
    let _ ← t.followParent? (trimSlashes p)
    throw .isADirectory
  match ← t.follow? p with
  | .free place => return t.put place (.file content t.clock false)
  | .found place =>
    match t.at? place with
    | some (.file _ _ executable) => return t.put place (.file content t.clock executable)
    | _ => throw .isADirectory

/-- Write a file. -/
def write (p : Path) (content : ByteArray) : Edit := editBy (written? content p)

/-- Write a text as UTF-8. -/
def writeText (p : Path) (content : String) : Edit := write p content.toUTF8

/-- The tree without a file or link. -/
def withoutFile? (p : Path) (t : FileTree) : Except FileError FileTree := do
  match ← t.followParent? p with
  | .free _ => throw .notFound
  | .found place => if t.isDirectoryAt place then throw .isADirectory else return t.cut place

/-- Remove a file, or a link without following it. -/
def removeFile (p : Path) : Edit := editBy (withoutFile? p)

/-- Remove a file if it is there. -/
def removeIfPresent (p : Path) : Edit := editBy fun t =>
  match withoutFile? p t with
  | .error .notFound => .ok t
  | r => r

/-- The tree with a file moved in the place of another one, or to a free name. -/
def renamed? (source target : Path) (t : FileTree) : Except FileError FileTree := do
  match ← t.followParent? source with
  | .free _ => throw .notFound
  | .found place =>
    match t.at? place, ← t.followParent? target with
    | some entry, .free free =>
      if t.isDirectoryAt place then throw .isADirectory else return (t.cut place).put free entry
    | some entry, .found taken =>
      if t.isDirectoryAt place || t.isDirectoryAt taken then throw .isADirectory
      else return (t.cut place).put taken entry
    | none, _ => throw .notFound

/-- Move a file. What was at the target is replaced in one step. -/
def rename (source target : Path) : Edit := editBy (renamed? source target)

/-- The tree with a link at a free name, which no slash may follow. -/
def linked? (p target : Path) (t : FileTree) : Except FileError FileTree := do
  match ← t.followParent? (trimSlashes p) with
  | .found _ => throw .alreadyExists
  | .free place => if endsInSlash p then throw .notFound else return t.put place (.link target)

/-- Make a link. -/
def makeLink (p target : Path) : Edit := editBy (linked? p target)

/-- The tree with the time of an entry set. -/
def touched? (p : Path) (time : FileTime) (t : FileTree) : Except FileError FileTree := do
  let place ← t.place? p
  match t.at? place with
  | some (.file content _ executable) => return t.put place (.file content time executable)
  | some (.directory _) => return if place = [] then t else t.put place (.directory time)
  | _ => throw .notFound

/-- Set the time of the last change. -/
def touch (p : Path) (time : FileTime) : Edit := editBy (touched? p time)

/-! ## Directories -/

/-- The tree with a directory at a free name. -/
def withDirectory? (p : Path) (t : FileTree) : Except FileError FileTree := do
  match ← t.followParent? (trimSlashes p) with
  | .found _ => throw .alreadyExists
  | .free place => return t.put place (.directory t.clock)

/-- Make the first of some directories, each of which is above the one before it. Those above are
made only when one of them is missing, and a directory that is there already is no error. -/
def makeFirst : List Path → Edit
  | [] => pure ()
  | p :: above => do
    let t ← get
    match withDirectory? p t with
    | .ok t => set t
    | .error .notFound =>
      makeFirst above
      let t ← get
      match withDirectory? p t with
      | .ok t => set t
      | .error e => if t.isDirectory p then pure () else throw e
    | .error e => if t.isDirectory p then pure () else throw e

/-- Make a directory and the missing ones above it. The empty path asks for nothing. -/
def makeDirectories (p : Path) : Edit := if p.text = "" then pure () else makeFirst p.ancestors

/-- The tree without an empty directory. A path that ends in dots cannot be removed, nor can a link
in the place of the directory. -/
def withoutDirectory? (p : Path) (t : FileTree) : Except FileError FileTree := do
  let p := trimSlashes p
  match (stepsOf p).getLast? with
  | some .stay => throw .invalidInput
  | some .up =>
    let _ ← t.place? p
    throw .directoryNotEmpty
  | _ =>
    match ← t.followParent? p with
    | .free _ => throw .notFound
    | .found place =>
      if !t.isDirectoryAt place then throw .notADirectory
      else if (t.namesIn place).isEmpty then return t.cut place
      else throw .directoryNotEmpty

/-- Remove a directory with all that is below it, or a link without following it. The entries below
go first, so they are gone when the directory itself cannot be removed. -/
def removeTree (p : Path) : Edit := do
  let t ← get
  match t.followParent? p with
  | .error e => throw e
  | .ok (.free _) => throw .notFound
  | .ok (.found place) =>
    match t.at? place with
    | some (.link _) => set (t.cut place)
    | some (.directory _) =>
      set (t.clear place)
      editBy (withoutDirectory? p)
    | _ => throw .notADirectory

end QmlStubs.FileTree
