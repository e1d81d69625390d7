import QmlStubs.Assessment
import QmlStubs.QmlModule
import QmlStubs.Snapshot.Store

/-!
# Notices

What the generator reports while it works, in the order in which it happens.
-/

set_option autoImplicit false

namespace QmlStubs

/-- One line of the report. -/
inductive Notice where
  | discarding (snapshot : Path) (cause : SnapshotError)
  | startingImports
  | importing (dirty total : Nat)
  | importingModule (name : String) (reason : DirtyReason)
  | startingTypes
  | generating (module : QmlModule) (classes : Nat)
  | done (imported regenerated removed : Nat)
  deriving DecidableEq

/-- The words of a notice. -/
def Notice.text : Notice → String
  | discarding snapshot cause => "discarding snapshot " ++ snapshot.text ++ ": " ++ cause.message
  | startingImports => "Importing Python modules"
  | importing dirty total =>
    "Importing modules (" ++ Text.ofNat dirty ++ " of " ++ Text.ofNat total ++ " files dirty)"
  | importingModule name reason => " -> " ++ name ++ " (" ++ reason.text ++ ")"
  | startingTypes => "Generating QML type info for QML modules"
  | generating module classes =>
    " -> " ++ module.display ++ " (contains " ++ Text.ofNat classes ++ " classes)"
  | done imported regenerated removed =>
    "Done: " ++ Text.ofNat imported ++ " files reimported, " ++ Text.ofNat regenerated ++
      " QML modules regenerated, " ++ Text.ofNat removed ++ " removed"

end QmlStubs
