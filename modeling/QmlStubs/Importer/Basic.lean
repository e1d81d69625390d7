import QmlStubs.FileTree.Basic
import QmlStubs.Trace
import QmlStubs.TypesFile.Basic

/-!
# Importers

A run never executes source code itself. It asks an importer, which holds a live namespace, for
one module after the other, and the importer reports the imports that this caused, remembers which
modules are loaded from which files, and collects the classes that were registered. An importer is
a value with a state, so that all statements about runs hold for every importer.
-/

set_option autoImplicit false

namespace QmlStubs

/-- A module that is loaded. Built-in modules have no file. -/
structure LoadedModule where
  name : String
  file : Option Path
  deriving DecidableEq

/-- Why a module could not be imported. -/
inductive ImportError where
  /-- The module failed while it was executed. -/
  | failed (module message : String)
  | cannotStart (command : String) (cause : FileError)
  | noCommand
  /-- The helper ended before it answered. -/
  | exited
  /-- The helper ended with a status that is not zero. -/
  | finishedWith (status : Nat)
  /-- The helper's answer is no response. -/
  | protocol
  | file (cause : FileError)
  deriving DecidableEq

/-- The message of an error. -/
def ImportError.message : ImportError → String
  | failed module text => "Importing " ++ module ++ " failed: " ++ text
  | cannotStart command cause =>
    "Failed to start import helper `" ++ command ++ "`: " ++ cause.message
  | noCommand => "No import helper command configured"
  | exited => "Import helper exited unexpectedly"
  | finishedWith status => "Import helper finished with exit status: " ++ Text.ofNat status
  | protocol => "Invalid response from import helper: <json>"
  | file cause => "IO error: " ++ cause.message

/-- What one import came to. -/
structure ImportResult (σ : Type) where
  outcome : Except ImportError LoadedModule
  /-- The imports that were executed, whether the import succeeded or not. -/
  events : List ImportEvent
  state : σ

/-- An import system over states `σ`. -/
structure Importer (σ : Type) where
  /-- Import a module. -/
  importModule : String → σ → ImportResult σ
  /-- A module that is loaded. -/
  loaded? : σ → String → Option LoadedModule
  /-- The files of all modules that were executed. -/
  loadedFiles : σ → PathSet
  /-- The classes registered since they were last asked for. -/
  takeRegistrations : σ → List Registration × σ
  /-- Give the namespace up. -/
  finish : σ → Except ImportError Unit × σ

end QmlStubs
