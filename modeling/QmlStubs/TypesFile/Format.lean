import QmlStubs.FileTree.Edit
import QmlStubs.Json.Parser
import QmlStubs.Json.Printer
import QmlStubs.Json.Reader
import QmlStubs.TypesFile.Basic

/-!
# The format of types files

Entries are written as indented JSON with every field, except for the accessors that a property
does not have. When they are read, fields that have a default may be missing.
-/

set_option autoImplicit false

namespace QmlStubs

open Json (required withDefault optional string? bool? list? uint32? int32? fields?)

/-- Access of a method or base class that gives none. -/
def publicAccess : String := "public"

/-- Revision of the format, which an entry may leave out. -/
def currentRevision : UInt32 := 68

/-! ## Writing -/

/-- The written form of a parameter. -/
def Argument.toJson (a : Argument) : Json :=
  .record [("name", .text a.name), ("type", .text a.typeName)]

/-- The written form of a method. -/
def Method.toJson (m : Method) : Json :=
  .record [("access", .text m.access), ("name", .text m.name),
    ("arguments", .array (m.arguments.map Argument.toJson)), ("returnType", .text m.returnType)]

/-- A member that is left out when there is no value. -/
def optionalMember (name : String) (value : Option String) : List (String × Json) :=
  match value with
  | some v => [(name, .text v)]
  | none => []

/-- The written form of a property. -/
def Property.toJson (p : Property) : Json :=
  .record ([("name", .text p.name), ("type", .text p.typeName),
    ("index", .number (.ofInt p.index.toInt))] ++ optionalMember "notify" p.notify ++
    optionalMember "read" p.read ++ optionalMember "write" p.write)

/-- The written form of an enumeration. -/
def Enumeration.toJson (e : Enumeration) : Json :=
  .record [("isClass", .bool e.isClass), ("isFlag", .bool e.isFlag), ("name", .text e.name),
    ("type", .text e.typeName), ("values", .texts e.values)]

/-- The written form of a class information. -/
def ClassInfo.toJson (c : ClassInfo) : Json :=
  .record [("name", .text c.name), ("value", .text c.value)]

/-- The written form of a base class. -/
def SuperClass.toJson (c : SuperClass) : Json :=
  .record [("access", .text c.access), ("name", .text c.name)]

/-- The written form of a class. -/
def ClassLayout.toJson (c : ClassLayout) : Json :=
  .record [("className", .text c.className), ("qualifiedClassName", .text c.qualifiedClassName),
    ("object", .bool c.object), ("superClasses", .array (c.superClasses.map SuperClass.toJson)),
    ("classInfos", .array (c.classInfos.map ClassInfo.toJson)),
    ("enums", .array (c.enums.map Enumeration.toJson)),
    ("properties", .array (c.properties.map Property.toJson)),
    ("signals", .array (c.signals.map Method.toJson)),
    ("slots", .array (c.slots.map Method.toJson))]

/-- The written form of an entry. -/
def TypesEntry.toJson (e : TypesEntry) : Json :=
  .record [("classes", .array (e.classes.map ClassLayout.toJson)),
    ("outputRevision", .nat e.outputRevision.toNat),
    ("QML_IMPORT_MAJOR_VERSION", .nat e.majorVersion.toNat),
    ("QML_IMPORT_MINOR_VERSION", .nat e.minorVersion.toNat),
    ("QT_MODULES", .texts e.qtModules), ("PY_MODULES", .texts e.pyModules),
    ("inputFile", .text e.inputFile)]

/-- The written form of a registration. -/
def Registration.toJson (r : Registration) : Json :=
  .record [("uri", .text r.module.uri), ("major", .nat r.module.major.toNat),
    ("minor", .nat r.module.minor.toNat), ("module", r.entry.toJson)]

/-! ## Reading -/

/-- A list that may be left out. -/
def listOrEmpty {α : Type} (read : Json → Option α) : Option Json → Option (List α) :=
  withDefault [] (list? read)

/-- Read a parameter. -/
def Argument.ofJson? (j : Json) : Option Argument := do
  match ← fields? ["name", "type"] j with
  | [name, type] => return ⟨← required string? name, ← required string? type⟩
  | _ => none

/-- Read a method. -/
def Method.ofJson? (j : Json) : Option Method := do
  match ← fields? ["access", "name", "arguments", "returnType"] j with
  | [access, name, arguments, returnType] =>
    return ⟨← withDefault publicAccess string? access, ← required string? name,
      ← listOrEmpty Argument.ofJson? arguments, ← required string? returnType⟩
  | _ => none

/-- Read a property. -/
def Property.ofJson? (j : Json) : Option Property := do
  match ← fields? ["name", "type", "index", "notify", "read", "write"] j with
  | [name, type, index, notify, read, write] =>
    return ⟨← required string? name, ← required string? type, ← required int32? index,
      ← optional string? notify, ← optional string? read, ← optional string? write⟩
  | _ => none

/-- Read an enumeration. -/
def Enumeration.ofJson? (j : Json) : Option Enumeration := do
  match ← fields? ["isClass", "isFlag", "name", "type", "values"] j with
  | [isClass, isFlag, name, type, values] =>
    return ⟨← required bool? isClass, ← required bool? isFlag, ← required string? name,
      ← required string? type, ← required (list? string?) values⟩
  | _ => none

/-- Read a class information. -/
def ClassInfo.ofJson? (j : Json) : Option ClassInfo := do
  match ← fields? ["name", "value"] j with
  | [name, value] => return ⟨← required string? name, ← required string? value⟩
  | _ => none

/-- Read a base class. -/
def SuperClass.ofJson? (j : Json) : Option SuperClass := do
  match ← fields? ["access", "name"] j with
  | [access, name] => return ⟨← withDefault publicAccess string? access, ← required string? name⟩
  | _ => none

/-- Read a class. -/
def ClassLayout.ofJson? (j : Json) : Option ClassLayout := do
  match ← fields? ["className", "qualifiedClassName", "object", "superClasses", "classInfos",
      "enums", "properties", "signals", "slots"] j with
  | [className, qualified, object, superClasses, classInfos, enums, properties, signals, slots] =>
    return ⟨← required string? className, ← required string? qualified,
      ← required bool? object, ← listOrEmpty SuperClass.ofJson? superClasses,
      ← listOrEmpty ClassInfo.ofJson? classInfos, ← listOrEmpty Enumeration.ofJson? enums,
      ← listOrEmpty Property.ofJson? properties, ← listOrEmpty Method.ofJson? signals,
      ← listOrEmpty Method.ofJson? slots⟩
  | _ => none

/-- Read an entry. -/
def TypesEntry.ofJson? (j : Json) : Option TypesEntry := do
  match ← fields? ["classes", "outputRevision", "QML_IMPORT_MAJOR_VERSION",
      "QML_IMPORT_MINOR_VERSION", "QT_MODULES", "PY_MODULES", "inputFile"] j with
  | [classes, revision, major, minor, qtModules, pyModules, inputFile] =>
    return ⟨← required (list? ClassLayout.ofJson?) classes,
      ← withDefault currentRevision uint32? revision, ← required uint32? major,
      ← required uint32? minor, ← listOrEmpty string? qtModules, ← listOrEmpty string? pyModules,
      ← required string? inputFile⟩
  | _ => none

/-- Deepest nesting of lists and objects in a text whose every part is looked at. -/
def maxDepth : Nat := 127

/-- Read a registration, which lies inside `level` lists and objects. It has to be an object, and
what it holds beside the known fields has to be readable and not nested too deep, since the fields
of the module stand among the others. -/
def Registration.ofJson? (level : Nat) : Json → Option Registration
  | .object members => do
    let others := members.filter fun m => m.1 != some "module"
    if others.any fun m => m.1.isNone || !m.2.isReadable || maxDepth < level + 1 + m.2.depth then
      none
    let entry ← required TypesEntry.ofJson? (← Json.field? members "module")
    let uri ← required string? (← Json.field? members "uri")
    let major ← required uint32? (← Json.field? members "major")
    let minor ← required uint32? (← Json.field? members "minor")
    return ⟨⟨uri, major, minor⟩, entry⟩
  | _ => none

/-! ## The file -/

/-- Why a types file cannot be used. -/
inductive TypesFileError where
  | file (path : Path) (cause : FileError)
  | malformed (path : Path)
  deriving DecidableEq

/-- The message of an error. -/
def TypesFileError.message : TypesFileError → String
  | file path cause => "IO error on " ++ path.text ++ ": " ++ cause.message
  | malformed path => "Invalid descriptor file " ++ path.text ++ ": <json>"

namespace TypesFile

/-- The text of a list of entries. -/
def text (entries : List TypesEntry) : String :=
  (Json.array (entries.map TypesEntry.toJson)).indented

/-- The entries of a row of bytes. -/
def ofBytes? (content : ByteArray) : Option (List TypesEntry) :=
  (Json.parseBytes? content).bind (list? TypesEntry.ofJson?)

/-- Read a types file. -/
def read (t : FileTree) (p : Path) : Except TypesFileError (List TypesEntry) :=
  match t.read? p with
  | .error e => .error (.file p e)
  | .ok content =>
    match ofBytes? content with
    | some entries => .ok entries
    | none => .error (.malformed p)

/-- Write a types file. -/
def write (p : Path) (entries : List TypesEntry) : FileTree.Edit :=
  FileTree.writeText p (text entries)

end TypesFile

end QmlStubs
