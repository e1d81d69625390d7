import QmlStubs.Snapshot.Basic

/-!
# Which files have to be imported again

An assessment compares a snapshot with the files that are there now. It starts from the modules
that changed themselves (`seed`), spreads dirtiness to the modules that depend on them until a
pass over all modules marks nothing new (`settle`), and then sorts out the current files, the
entries that can be kept, and the backing files whose results are stale.

The graph of a snapshot may have cycles and may name modules that the snapshot does not have; such
a name counts as dirty.
-/

set_option autoImplicit false

namespace QmlStubs

/-- What one run makes of a module of the snapshot. -/
inductive Dirtiness where
  /-- Nothing that the module depends on has changed. -/
  | clean
  /-- Its file changed or is gone, or it never had one. -/
  | changed
  /-- Something it depends on is dirty, because of the named module. -/
  | via (cause : String)
  deriving DecidableEq

namespace Dirtiness

/-- Whether the module needs another look. -/
def isDirty : Dirtiness → Bool
  | clean => false
  | _ => true

/-- The module whose change made the named one dirty. -/
def causeFor (name : String) : Dirtiness → Option String
  | clean => none
  | changed => some name
  | via cause => some cause

end Dirtiness

/-- The state of each module of a snapshot. -/
abbrev States := SortedMap String Dirtiness

/-- Why a file is imported again. -/
inductive DirtyReason where
  | new
  | changed
  | dependency (name : String)
  deriving DecidableEq

/-- The words for a reason. -/
def DirtyReason.text : DirtyReason → String
  | new => "new"
  | changed => "changed"
  | dependency name => "dependency " ++ name ++ " changed"

/-- A current file that has to be imported again. -/
structure DirtyFile where
  path : Path
  reason : DirtyReason
  deriving DecidableEq

/-- The outcome of comparing a snapshot with the current files. -/
structure Assessment where
  /-- The files to import, in the order they were given. -/
  dirtyFiles : List DirtyFile
  /-- The entries that are clean and reachable from a current file. -/
  surviving : Modules
  /-- The backing files of the dirty modules. -/
  dirtyBacking : PathSet
  /-- The final state of each module. -/
  states : States
  /-- Number of passes until nothing changed. -/
  passes : Nat

namespace Assessment

/-! ## Spreading dirtiness -/

/-- The state of an entry by its own file. -/
def ownState (stat : Path → Option Binary64) : ModuleEntry → Dirtiness
  | some r => if r.isStale (stat r.path) then .changed else .clean
  | none => .changed

/-- The states before dirtiness has spread. -/
def seed (modules : Modules) (stat : Path → Option Binary64) : States :=
  modules.mapVal fun _ e => ownState stat e

/-- The module that makes dependents of the named one dirty, if it is dirty or unknown. -/
def causeOf (states : States) (name : String) : Option String :=
  match states.find? name with
  | some s => s.causeFor name
  | none => some name

/-- The cause that a clean record takes from its dependencies: that of the first dirty one. -/
def inheritedCause (states : States) (r : ModuleRecord) : Option String :=
  r.dependencies.toList.findSome? (causeOf states)

/-- Whether a module is still clean. -/
def isCleanAt (states : States) (name : String) : Bool := states.find? name == some .clean

/-- Look at one module: a clean record with a dirty dependency is marked. -/
def mark (states : States) (e : String × ModuleEntry) : States :=
  match e.2 with
  | some r =>
    if isCleanAt states e.1 then
      match inheritedCause states r with
      | some cause => states.insert e.1 (.via cause)
      | none => states
    else states
  | none => states

/-- Look at all modules in name order. Marks made early in a pass are seen later in it. -/
def pass (modules : Modules) (states : States) : States := modules.entries.foldl mark states

/-- Repeat passes until one marks nothing new, and count them. Each pass but the last marks a
module, so as many repetitions as there are modules are enough. -/
def settle (modules : Modules) : Nat → States → States × Nat
  | 0, states => (pass modules states, 1)
  | rounds + 1, states =>
    let next := pass modules states
    if next = states then (next, 1)
    else
      let (final, passes) := settle modules rounds next
      (final, passes + 1)

/-! ## Reaching modules -/

/-- The dependencies of an entry. -/
def dependenciesOf : ModuleEntry → List String
  | some r => r.dependencies.toList
  | none => []

/-- The modules that cannot be reached from the queued names over dependencies. Each name that is
reached is taken out of the modules, so that it is visited once. -/
def unreached (modules : Modules) (queue : List String) : Modules :=
  match queue with
  | [] => modules
  | name :: rest =>
    if _h : modules.contains name = true then
      unreached (modules.erase name)
        (rest ++ dependenciesOf (modules.find? name).join)
    else unreached modules rest
termination_by (modules.size, queue.length)
decreasing_by
  · exact Prod.Lex.left _ _ (SortedMap.size_erase_lt _h)
  · exact Prod.Lex.right _ (by simp)

/-- The module that each file backs. If several records name a file, the last module counts. -/
def moduleOfFile (modules : Modules) : SortedMap (List Component) String :=
  .ofList (modules.entries.filterMap fun e => e.2.map fun r => (r.path.components, e.1))

/-! ## The assessment -/

/-- Why a current file is dirty, if it is. -/
def reasonFor? (index : SortedMap (List Component) String) (states : States) (file : Path) :
    Option DirtyReason :=
  match index.find? file.components with
  | none => some .new
  | some name =>
    match states.find? name with
    | some .changed => some .changed
    | some (.via cause) => some (.dependency cause)
    | _ => none

/-- Compare a snapshot with the current files. `stat` gives the time of a file that is there. -/
def ofFiles (snapshot : Snapshot) (stat : Path → Option Binary64) (files : List Path) :
    Assessment :=
  let modules := snapshot.modules
  let (states, passes) := settle modules modules.size (seed modules stat)
  let index := moduleOfFile modules
  let roots := files.filterMap fun f => index.find? f.components
  let unreached := unreached modules roots
  { dirtyFiles := files.filterMap fun f => (reasonFor? index states f).map fun r => ⟨f, r⟩
    surviving := modules.filter fun name _ => isCleanAt states name && !unreached.contains name
    dirtyBacking := .ofList (modules.entries.filterMap fun e =>
      if isCleanAt states e.1 then none else e.2.map (·.path))
    states
    passes }

/-- Whether no file has to be imported. -/
def isClean (a : Assessment) : Bool := a.dirtyFiles.isEmpty

/-- The reason for a file, `none` if it is clean. -/
def reason? (a : Assessment) (p : Path) : Option DirtyReason :=
  (a.dirtyFiles.find? fun f => f.path.same p).map (·.reason)

end Assessment

end QmlStubs
