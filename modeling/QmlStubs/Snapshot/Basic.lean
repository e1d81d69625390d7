import QmlStubs.Path.Basic
import QmlStubs.Number.Binary64

/-!
# Snapshots

A snapshot is what one run leaves for the next: for each module name that was seen, the file that
backs it with its time and the modules it loaded, or a tombstone for a name that was imported but
has no file. A snapshot counts only when it was written by the same version of the generator.
-/

set_option autoImplicit false

namespace QmlStubs

/-- What is known of a module with a backing file. -/
structure ModuleRecord where
  modified : Binary64
  path : Path
  dependencies : SortedSet String
  deriving DecidableEq

/-- A record, or `none` for a tombstone: a name without a backing file. -/
abbrev ModuleEntry := Option ModuleRecord

/-- The known module names. -/
abbrev Modules := SortedMap String ModuleEntry

/-- The modules one run has seen, and the version of the generator that wrote them. -/
structure Snapshot where
  modules : Modules
  version : String
  deriving DecidableEq

/-- Whether the backing file is gone or has another time than the record. -/
def ModuleRecord.isStale (r : ModuleRecord) (modified : Option Binary64) : Bool :=
  match modified with
  | some time => !time.sameValue r.modified
  | none => true

namespace Snapshot

/-- Version of this generator. -/
def currentVersion : String := "0.3.0"

/-- A snapshot of this version. -/
def ofModules (modules : Modules) : Snapshot := ⟨modules, currentVersion⟩

/-- The snapshot that knows no module. -/
def empty : Snapshot := ofModules .empty

instance : Inhabited Snapshot := ⟨empty⟩

/-- Record a module. -/
def insertRecord (s : Snapshot) (name : String) (r : ModuleRecord) : Snapshot :=
  { s with modules := s.modules.insert name (some r) }

/-- Record a name without a backing file. -/
def insertTombstone (s : Snapshot) (name : String) : Snapshot :=
  { s with modules := s.modules.insert name none }

/-- The record under a name; unknown names and tombstones have none. -/
def record? (s : Snapshot) (name : String) : Option ModuleRecord := (s.modules.find? name).join

/-- Whether a name is known to have no backing file. -/
def isTombstone (s : Snapshot) (name : String) : Bool := s.modules.find? name == some none

/-- Number of known names. -/
def size (s : Snapshot) : Nat := s.modules.size

end Snapshot

end QmlStubs
