import QmlStubs.FileTree.Basic
import QmlStubs.QmlModule

/-!
# The entries of a types file

The types file of a QML module is a list of entries, one for each class that was registered. An
entry holds the layout of the class as the Qt tools read it, the modules it needs, and the source
file it was registered from, by which the entries of a changed file are replaced.
-/

set_option autoImplicit false

namespace QmlStubs

/-- A method parameter. -/
structure Argument where
  name : String
  typeName : String
  deriving DecidableEq

/-- A signal or slot. -/
structure Method where
  access : String
  name : String
  arguments : List Argument
  returnType : String
  deriving DecidableEq

/-- A property with the names of its accessors. -/
structure Property where
  name : String
  typeName : String
  index : Int32
  notify : Option String
  read : Option String
  write : Option String
  deriving DecidableEq

/-- An enumeration. -/
structure Enumeration where
  isClass : Bool
  isFlag : Bool
  name : String
  typeName : String
  values : List String
  deriving DecidableEq

/-- A named piece of information about a class. -/
structure ClassInfo where
  name : String
  value : String
  deriving DecidableEq

/-- A base class. -/
structure SuperClass where
  access : String
  name : String
  deriving DecidableEq

/-- The layout of one class. -/
structure ClassLayout where
  className : String
  qualifiedClassName : String
  object : Bool
  superClasses : List SuperClass
  classInfos : List ClassInfo
  enums : List Enumeration
  properties : List Property
  signals : List Method
  slots : List Method
  deriving DecidableEq

/-- One entry of a types file. -/
structure TypesEntry where
  classes : List ClassLayout
  outputRevision : UInt32
  majorVersion : UInt32
  minorVersion : UInt32
  qtModules : List String
  pyModules : List String
  inputFile : String
  deriving DecidableEq

/-- A class that was registered for a QML module while a file was imported. -/
structure Registration where
  module : QmlModule
  entry : TypesEntry
  deriving DecidableEq

namespace TypesEntry

/-- Entries are sorted by the name of their first class. -/
def sortKey (e : TypesEntry) : String :=
  match e.classes with
  | c :: _ => c.className
  | [] => ""

/-- The source file of an entry, relative to a directory unless it is absolute, without links and
dots if it is there. -/
def resolvedInput (t : FileTree) (base : Path) (e : TypesEntry) : Path :=
  t.canonicalOr (base.join e.inputFile)

end TypesEntry

end QmlStubs
