import QmlStubs.FileTree.Basic
import QmlStubs.Glob.Pattern

/-!
# Searching a file tree by pattern

Results come in the order of a walk: the names in a directory in order, and a directory before its
contents. Links to directories are entered; a circle of links ends where a path takes too many of
them, and what cannot be looked into is passed over.
-/

set_option autoImplicit false

namespace QmlStubs.Glob

/-- A path below a directory, which is not named when it is the current one. -/
def below (directory : Path) (name : String) : Path :=
  if directory.components = [.here] then ⟨name⟩ else directory.join name

/-- The entries of a directory. -/
def children (t : FileTree) (directory : Path) : List Path :=
  ((t.list? directory).getD []).map (below directory)

/-- All entries below a directory, a directory before its contents. No path is so long that the
bound on the depth is reached. -/
def descendants (t : FileTree) : Nat → Path → List Path
  | 0, _ => []
  | depth + 1, directory =>
    (children t directory).flatMap fun p =>
      p :: if t.isDirectory p then descendants t depth p else []

/-- Whether the last component of a path is matched by a part. -/
def matchesLast (part : Part) (p : Path) : Bool :=
  match p.fileName? with
  | some name => part.matchesName name
  | none => false

/-- The directory above and the directory itself, which no directory lists as entries. They match
only tokens that start with a dot. -/
def dots (t : FileTree) (ts : List Token) (directory : Path) : List Path :=
  if t.isDirectory directory && ts.head? = some (.char '.') then
    (["..", "."].filter fun name => tokensMatch ts name.toList).map directory.join
  else []

/-- Whether there is something to go on with under a name that is looked up directly. -/
def leadsOn (t : FileTree) (directory : Path) (name : String) : Bool :=
  if name = "." || name = ".." then t.isDirectory directory
  else t.isPresent (below directory name)

/-- The paths that the parts match from a directory on. -/
def search (t : FileTree) (directoriesOnly : Bool) : List Part → Path → List Path
  | [], p => if !directoriesOnly || t.isDirectory p then [p] else []
  | .literal name :: rest, p =>
    if leadsOn t p name then search t directoriesOnly rest (below p name) else []
  | .names ts :: rest, p =>
    (dots t ts p ++ (children t p).filter (matchesLast (.names ts))).flatMap
      (search t directoriesOnly rest)
  | [.anyDepth], p => (descendants t FileTree.maxPathLength p).filter t.isDirectory
  | .anyDepth :: part :: rest, p =>
    ((descendants t FileTree.maxPathLength p).filter (matchesLast part)).flatMap
      (search t directoriesOnly rest)

/-- The paths that a pattern matches. -/
def Pattern.paths (p : Pattern) (t : FileTree) : List Path :=
  search t p.directoriesOnly p.parts p.start

/-- The paths below a directory that match a pattern, whose text follows the directory's. -/
def pathsBelow? (t : FileTree) (directory : Path) (pattern : List Char) : Option (List Path) :=
  (Pattern.ofChars? (escape directory.text.toList ++ '/' :: pattern)).map fun p => p.paths t

end QmlStubs.Glob
