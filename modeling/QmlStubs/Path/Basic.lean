import QmlStubs.Collections.SortedMap
import QmlStubs.Text.Split

/-!
# Paths

A path keeps the text it was given, since messages and files show it unchanged, but paths are
compared by their components: repeated and trailing slashes and inner dots do not count, and two
dots are never resolved, since they depend on links. The component order puts the root before
`.`, `.` before `..`, and both before names, which are ordered by their characters.
-/

set_option autoImplicit false

namespace QmlStubs

open Std

/-- One component of a path. -/
inductive Component where
  | root
  | here
  | parent
  | name (text : String)
  deriving DecidableEq

namespace Component

/-- Each kind of component extends the key of the kind before it. -/
def sortKey : Component → List String
  | root => []
  | here => [""]
  | parent => ["", ""]
  | name text => ["", "", text]

theorem sortKey_injective {a b : Component} (h : a.sortKey = b.sortKey) : a = b := by
  cases a <;> cases b <;> simp_all [sortKey]

instance : Ord Component := ⟨compareOn sortKey⟩

instance : TransOrd Component := inferInstanceAs (TransCmp (compareOn sortKey))

instance : LawfulEqOrd Component where
  eq_of_compare h := Component.sortKey_injective (LawfulEqCmp.eq_of_compare h)

/-- The text of a component. -/
def text : Component → String
  | root => "/"
  | here => "."
  | parent => ".."
  | name text => text

end Component

/-- A path as it was written. -/
structure Path where
  text : String
  deriving DecidableEq

namespace Path

/-- A component after the first place; an empty part and a dot are none. -/
def componentOf? (part : List Char) : Option Component :=
  match part with
  | [] => none
  | ['.'] => none
  | ['.', '.'] => some .parent
  | part => some (.name (String.ofList part))

/-- The components of a written path. A dot counts only at the start of a relative path. -/
def componentsOf (s : List Char) : List Component :=
  let parts := Text.split '/' s
  let rest := parts.filterMap componentOf?
  match parts with
  | ['.'] :: _ => .here :: rest
  | [] :: _ :: _ => .root :: rest
  | _ => rest

/-- What paths are compared by. -/
def components (p : Path) : List Component := componentsOf p.text.toList

/-- Equality of paths. -/
def same (p q : Path) : Bool := p.components == q.components

/-- Whether a path starts at the root. -/
def isAbsolute (p : Path) : Bool := p.text.toList.head? == some '/'

/-- The path of a component list. -/
def ofComponents : List Component → Path
  | .root :: rest => ⟨"/" ++ Text.joinStrings '/' (rest.map Component.text)⟩
  | cs => ⟨Text.joinStrings '/' (cs.map Component.text)⟩

/-- A path below another one. An absolute second path stands for itself, and an empty one adds a
trailing slash. -/
def join (p : Path) (s : String) : Path :=
  if s.toList.head? = some '/' then ⟨s⟩
  else
    match p.text.toList.getLast? with
    | none => ⟨s⟩
    | some '/' => ⟨p.text ++ s⟩
    | some _ => ⟨p.text ++ "/" ++ s⟩

/-- The last component when it is a name. -/
def fileName? (p : Path) : Option String :=
  match p.components.getLast? with
  | some (.name n) => some n
  | _ => none

/-- The components of the directory that holds a path; the root and the empty path have none. -/
def parentComponents? (p : Path) : Option (List Component) :=
  match p.components.getLast? with
  | none => none
  | some .root => none
  | some _ => some p.components.dropLast

/-- The path and the directories above it, from the path up. The empty path ends the list and is
not part of it. -/
def ancestors (p : Path) : List Path :=
  let cs := p.components
  p :: ((List.range cs.length).reverse.map fun n => ofComponents (cs.take n)).filter
    fun q => q.text ≠ ""

/-- What follows a list of components at the start of another one. -/
def dropComponents? (base : List Component) (cs : List Component) : Option (List Component) :=
  if base.isPrefixOf cs then some (cs.drop base.length) else none

/-- The components of a path after those of a directory above it. -/
def relativeTo? (p base : Path) : Option (List Component) :=
  dropComponents? base.components p.components

/-- Whether a path starts with the components of another one. -/
def isBelow (p base : Path) : Bool := base.components.isPrefixOf p.components

/-- A file name up to its last dot. A name whose only dot is its first character is all stem. -/
def stem (name : String) : String :=
  let cs := name.toList
  let before := (cs.reverse.dropWhile (· ≠ '.')).drop 1
  if before.isEmpty then name else String.ofList before.reverse

end Path

/-- A set of paths in path order, each with the text it was put in with. -/
abbrev PathSet := SortedMap (List Component) Path

namespace PathSet

/-- The paths of a list; of equal paths the last text counts. -/
def ofList (l : List Path) : PathSet := SortedMap.ofList (l.map fun p => (p.components, p))

/-- Put a path into a set; an equal path that is there keeps its text. -/
def add (s : PathSet) (p : Path) : PathSet := s.insertNew p.components p

/-- Whether an equal path is in the set. -/
def has (s : PathSet) (p : Path) : Bool := s.contains p.components

/-- The paths in order. -/
def toList (s : PathSet) : List Path := s.values

end PathSet

end QmlStubs
