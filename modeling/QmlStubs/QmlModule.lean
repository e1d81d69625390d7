import QmlStubs.Path.Basic

/-!
# QML modules and their files

A QML module is a dotted name in one version. Its files lie in the directory that the parts of the
name lead to below the output directory, and carry the version in their names. `ofTypesPath?` goes
back from the path of a types file to its module.
-/

set_option autoImplicit false

namespace QmlStubs

open Std

/-- A QML module in one version. -/
structure QmlModule where
  uri : String
  major : UInt32
  minor : UInt32
  deriving DecidableEq

namespace QmlModule

/-- A fixed-width number that orders as the version does: by the major part, then by the minor. -/
def versionKey (m : QmlModule) : List Nat := [m.major.toNat, m.minor.toNat]

/-- Modules are ordered by name, then by version. -/
def order : QmlModule → QmlModule → Ordering :=
  compareLex (compareOn uri) (compareOn versionKey)

instance : Ord QmlModule := ⟨order⟩

instance : TransOrd QmlModule :=
  inferInstanceAs (TransCmp (compareLex (compareOn uri) (compareOn versionKey)))

instance : LawfulEqOrd QmlModule where
  eq_of_compare {a b} h := by
    have h : compareLex (compareOn uri) (compareOn versionKey) a b = .eq := h
    rw [compareLex_eq_eq] at h
    obtain ⟨hu, hv⟩ := h
    have hu : a.uri = b.uri := LawfulEqCmp.eq_of_compare hu
    have hv : a.versionKey = b.versionKey := LawfulEqCmp.eq_of_compare hv
    simp only [versionKey, List.cons.injEq, and_true, UInt32.toNat_inj] at hv
    obtain ⟨uri, major, minor⟩ := a
    simp_all

/-- The text of the major and minor version with a separator. -/
def versionText (m : QmlModule) (separator : String) : String :=
  Text.ofNat m.major.toNat ++ separator ++ Text.ofNat m.minor.toNat

/-- How messages name a module. -/
def display (m : QmlModule) : String := m.uri ++ " " ++ m.versionText "."

/-- The directory of a module's files below the output directory. -/
def directoryIn (m : QmlModule) (outDir : Path) : Path :=
  (Text.splitString '.' m.uri).foldl Path.join outDir

/-- The file that describes the module's classes. -/
def typesFileName (m : QmlModule) : String := "types" ++ m.versionText "-" ++ ".json"

/-- The file that tools read the module's types from. -/
def qmltypesFileName (m : QmlModule) : String := "types" ++ m.versionText "-" ++ ".qmltypes"

/-- The file of the generated registration code. -/
def registrationsFileName (m : QmlModule) : String :=
  "qmltyperegistrations" ++ m.versionText "-" ++ ".cpp"

/-- What follows a text at the start of another one. -/
def afterText? (start : String) (s : List Char) : Option (List Char) :=
  if start.toList.isPrefixOf s then some (s.drop start.length) else none

/-- What comes before a text at the end of another one. -/
def beforeText? (ending : String) (s : List Char) : Option (List Char) :=
  if ending.toList.isSuffixOf s then some (s.take (s.length - ending.length)) else none

/-- A version part: decimal digits with or without a plus sign, in 32 bits. -/
def versionPart? (s : List Char) : Option UInt32 := do
  let digits := match s with
    | '+' :: rest => rest
    | s => s
  let n ← Text.digits? digits
  if n < 4294967296 then some (UInt32.ofNat n) else none

/-- The version in the name of a types file. -/
def versionOfFileName? (name : String) : Option (UInt32 × UInt32) := do
  let version ← beforeText? ".json" (← afterText? "types" name.toList)
  let major := version.takeWhile (· ≠ '-')
  match version.dropWhile (· ≠ '-') with
  | '-' :: minor => return (← versionPart? major, ← versionPart? minor)
  | _ => none

/-- The module whose types file lies at a path below the output directory. -/
def ofTypesPath? (outDir p : Path) : Option QmlModule := do
  let (major, minor) ← versionOfFileName? (← p.fileName?)
  let relative ← Path.dropComponents? outDir.components (← p.parentComponents?)
  if relative.isEmpty then none
  else some ⟨Text.joinStrings '.' (relative.map Component.text), major, minor⟩

end QmlModule

end QmlStubs
