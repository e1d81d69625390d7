import QmlStubs.Collections.SortedMap

/-!
# Import traces

While modules are imported, every import that a module executes is reported as an event. An open
trace collects, for each importing module, the modules it loaded; a closed one ignores events, and
so does any trace when the import happened outside a module.
-/

set_option autoImplicit false

namespace QmlStubs

/-- One import: who executed it, what was loaded, and which of the names pulled from it are modules
themselves. -/
structure ImportEvent where
  caller : Option String
  module : String
  reexports : List String
  deriving DecidableEq

/-- The imports seen so far. -/
structure Trace where
  edges : SortedMap String (SortedSet String)
  isOpen : Bool

namespace Trace

/-- A trace that has not been opened. -/
def empty : Trace := ⟨.empty, false⟩

/-- Begin to collect events. -/
def start (t : Trace) : Trace := { t with isOpen := true }

/-- Ignore events from now on. -/
def stop (t : Trace) : Trace := { t with isOpen := false }

/-- The modules that a module was seen to load. -/
def dependenciesOf (t : Trace) (name : String) : SortedSet String :=
  (t.edges.find? name).getD .empty

/-- Take one event in. -/
def record (t : Trace) (e : ImportEvent) : Trace :=
  match t.isOpen, e.caller with
  | true, some caller =>
    { t with
      edges := t.edges.insert caller
        ((t.dependenciesOf caller).insertAll (e.module :: e.reexports)) }
  | _, _ => t

/-- Take events in, in order. -/
def recordAll (t : Trace) (events : List ImportEvent) : Trace := events.foldl record t

end Trace

end QmlStubs
