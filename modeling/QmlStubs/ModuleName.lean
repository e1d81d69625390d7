import QmlStubs.FileTree.Basic

/-!
# Module names of source files

A file is named relative to the search root with the most components among those it lies below:
`<root>/pkg/sub/mod.py` is `pkg.sub.mod`, and `<root>/pkg/__init__.py` is `pkg`. A name has at least
one part, and no part is empty or holds a dot.
-/

set_option autoImplicit false

namespace QmlStubs

/-- Why a file has no module name. -/
inductive NamingError where
  | notBelowRoot (file : Path)
  | noName (file : Path)
  deriving DecidableEq

/-- The message of an error. -/
def NamingError.message : NamingError → String
  | notBelowRoot file => file.text ++ " is not below any module search root"
  | noName file => "Cannot derive a module name from " ++ file.text

namespace ModuleName

/-- Search roots as they are compared with files: without links and dots where they exist. -/
def searchRoots (t : FileTree) (roots : List Path) : List Path := roots.map t.canonicalOr

/-- The root with more components of two, the second one if they have equally many. -/
def longer (best : Option Path) (root : Path) : Option Path :=
  match best with
  | some b => if root.components.length < b.components.length then some b else some root
  | none => some root

/-- The root with the most components that a file lies below. -/
def longestRoot? (roots : List Path) (file : Path) : Option Path :=
  (roots.filter fun r => file.isBelow r).foldl longer none

/-- The name of a component that is one. -/
def nameOf? : Component → Option String
  | .name n => some n
  | _ => none

/-- The name parts of a file relative to its root. -/
def parts? (relative : List Component) : Option (List String) := do
  let packages ← relative.dropLast.mapM nameOf?
  let stem := Path.stem (← nameOf? (← relative.getLast?))
  let parts := if stem = "__init__" then packages else packages ++ [stem]
  if parts.isEmpty || parts.any fun p => p.isEmpty || p.toList.contains '.' then none
  else some parts

/-- The module name of a file. -/
def ofFile (roots : List Path) (file : Path) : Except NamingError String :=
  match (longestRoot? roots file).bind file.relativeTo? with
  | none => .error (.notBelowRoot file)
  | some relative =>
    match parts? relative with
    | none => .error (.noName file)
    | some parts => .ok (Text.joinStrings '.' parts)

end ModuleName

end QmlStubs
