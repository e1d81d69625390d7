import QmlStubs.Glob.Search

/-!
# Finding source files

The source files are the files with the source extension at any depth below the input directories,
except those below an ignored directory. They are listed without links and dots, each once, in the
order of the input directories and of the search below each.
-/

set_option autoImplicit false

namespace QmlStubs

/-- Why the source files cannot be listed. -/
inductive DiscoveryError where
  | missingDirectory (path : Path)
  | badPattern
  | file (cause : FileError)
  deriving DecidableEq

/-- The message of an error. -/
def DiscoveryError.message : DiscoveryError → String
  | missingDirectory path => "Input directory does not exist: " ++ path.text
  | badPattern => "Invalid glob pattern: <pattern>"
  | file cause => "I/O error: " ++ cause.message

namespace Discovery

/-- The directories above a path, by components. -/
def properAncestors (p : Path) : List (List Component) :=
  let cs := p.components
  ((List.range cs.length).filter fun n => !p.isAbsolute || n ≠ 0).map cs.take

/-- Whether one of the ignored directories is above a path. -/
def isIgnored (ignored : List Path) (p : Path) : Bool :=
  (properAncestors p).any fun cs => ignored.any fun i => i.components == cs

/-- The pattern of source files below a directory. -/
def sourcePattern (extension : String) : List Char :=
  ['*', '*', '/', '*', '.'] ++ extension.toList

/-- The search results below one input directory that count, as they were found. -/
def matchesIn (t : FileTree) (ignored : List Path) (extension : String) (directory : Path) :
    Except DiscoveryError (List Path) := do
  if !t.isDirectory directory then throw (.missingDirectory directory)
  match t.canonical? directory with
  | .error e => throw (.file e)
  | .ok directory =>
    match Glob.pathsBelow? t directory (sourcePattern extension) with
    | none => throw .badPattern
    | some paths => return paths.filter fun p => t.isFile p && !isIgnored ignored p

/-- Add the paths that are not there yet, without links and dots. -/
def addNew (t : FileTree) (files : List Path) : List Path → Except DiscoveryError (List Path)
  | [] => .ok files
  | p :: rest =>
    match t.canonical? p with
    | .error e => .error (.file e)
    | .ok q => addNew t (if files.any q.same then files else files ++ [q]) rest

/-- The source files below some directories. -/
def sources (t : FileTree) (inDirs ignore : List Path) (extension : String) :
    Except DiscoveryError (List Path) :=
  let ignored := ignore.map t.canonicalOr
  inDirs.foldlM (fun files directory => do
    addNew t files (← matchesIn t ignored extension directory)) []

end Discovery

end QmlStubs
