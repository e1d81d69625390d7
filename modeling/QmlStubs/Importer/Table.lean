import QmlStubs.Importer.Basic

/-!
# Importing from a table

An importer over a fixed table that says for each module where its file is, what it imports and
what it registers. A module is executed at most once, unless it fails; it counts as loaded as soon
as its execution begins, so that circles of imports end.
-/

set_option autoImplicit false

namespace QmlStubs

/-- One import of a table module. -/
structure TableImport where
  module : String
  reexports : List String
  /-- Whether the importing module goes on when the import fails. -/
  isOptional : Bool

/-- A module of the table. -/
structure TableModule where
  file : Option Path
  imports : List TableImport
  /-- The message that the module fails with after its imports, if it fails. -/
  failure : Option String
  registrations : List Registration

/-- The modules that can be imported. -/
abbrev ModuleTable := SortedMap String TableModule

namespace TableImporter

/-- A namespace over a table. -/
structure State where
  loaded : SortedSet String
  /-- The modules in the order in which their execution began. -/
  executed : List String
  registrations : List Registration

/-- Nothing is loaded. -/
def State.empty : State := ⟨.empty, [], []⟩

/-- An execution that can fail, with the namespace and the imports it reported. -/
abbrev Run := ExceptT ImportError (StateM (State × List ImportEvent))

/-- Execute a module and what it imports. Each module being executed is marked as loaded, so the
nesting is bounded by the size of the table. -/
def execute (table : ModuleTable) : Nat → String → Run Unit
  | 0, _ => pure ()
  | depth + 1, name => do
    if (← get).1.loaded.contains name then return
    match table.find? name with
    | none => throw (.failed name ("No module named '" ++ name ++ "'"))
    | some m =>
      modify fun (s, events) =>
        ({ s with loaded := s.loaded.insert name (), executed := s.executed ++ [name] }, events)
      m.imports.forM fun i => do
        modify fun (s, events) => (s, events ++ [⟨some name, i.module, i.reexports⟩])
        if i.isOptional then tryCatch (execute table depth i.module) fun _ => pure ()
        else execute table depth i.module
      match m.failure with
      | some message =>
        modify fun (s, events) => ({ s with loaded := s.loaded.erase name }, events)
        throw (.failed name message)
      | none =>
        modify fun (s, events) =>
          ({ s with registrations := s.registrations ++ m.registrations }, events)

/-- The file of a table module. -/
def fileOf? (table : ModuleTable) (name : String) : Option Path :=
  (table.find? name).bind (·.file)

/-- The importer over a table. -/
def ofTable (table : ModuleTable) : Importer State where
  importModule name s :=
    let (r, s, events) := (execute table (table.size + 1) name).run.run (s, [])
    ⟨r.map fun _ => ⟨name, fileOf? table name⟩, events, s⟩
  loaded? s name := if s.loaded.contains name then some ⟨name, fileOf? table name⟩ else none
  loadedFiles s := .ofList (s.loaded.toList.filterMap (fileOf? table))
  takeRegistrations s := (s.registrations, { s with registrations := [] })
  finish s := (.ok (), s)

end TableImporter

end QmlStubs
