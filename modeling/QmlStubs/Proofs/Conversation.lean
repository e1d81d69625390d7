import QmlStubs.Proofs.Collections
import QmlStubs.Proofs.Requests

/-!
# Conversations with a helper

An importer that drives a helper takes four different things from an answer: whether the import
succeeded, the events, the files of modules, and the registrations. This file follows a whole
conversation, in which imports mix with lookups, with taking registrations, and with opening and
closing the trace, for a helper that answers each request with one line.

A conversation is compared with its list of exchanges (`exchangesFrom`): which module was asked for,
what line came back, and whether the trace was open then. `Reflects` says what a session holds after
a list of exchanges, field by field, without mentioning the process; `Reflects.step` keeps it over one
call, and `conversation_reflects_lines` says it for every list of calls. The point that carries the
induction is that no answer leaves anything unread (`ask_line`), so the answer to the next request is
that request's own line, whatever became of the ones before.
-/

set_option autoImplicit false

namespace QmlStubs

/-! ## Traces -/

namespace Trace

variable {t : Trace} {caller module : String}

@[simp] theorem isOpen_record (e : ImportEvent) : (t.record e).isOpen = t.isOpen := by
  unfold record
  split <;> simp_all

@[simp] theorem isOpen_recordAll (events : List ImportEvent) :
    (t.recordAll events).isOpen = t.isOpen := by
  induction events generalizing t with
  | nil => rfl
  | cons e rest ih => exact ih.trans (isOpen_record e)

/-- An open trace takes in the events that have a caller. -/
theorem contains_record (e : ImportEvent) :
    (t.record e).edges.contains caller = true ↔
      t.edges.contains caller = true ∨ t.isOpen = true ∧ e.caller = some caller := by
  unfold record
  split
  case h_1 c hopen hc =>
    rw [SortedMap.contains_insert, hopen, hc, Option.some.injEq, or_comm, @eq_comm _ c]
    simp only [true_and]
  case h_2 hno =>
    refine ⟨.inl, ?_⟩
    rintro (h | ⟨hopen, hc⟩)
    · exact h
    · exact absurd hc (hno caller hopen)

theorem mem_dependenciesOf_record (e : ImportEvent) :
    module ∈ ((t.record e).dependenciesOf caller).toList ↔
      module ∈ (t.dependenciesOf caller).toList ∨
        t.isOpen = true ∧ e.caller = some caller ∧ module ∈ e.module :: e.reexports := by
  unfold record
  split
  case h_1 c hopen hc =>
    rw [hopen, hc, Option.some.injEq]
    by_cases h : caller = c
    · subst h
      rw [dependenciesOf, SortedMap.find?_insert_self, Option.getD_some,
        SortedSet.mem_toList_insertAll, or_comm]
      simp only [true_and]
    · rw [dependenciesOf, SortedMap.find?_insert_of_ne h, ← dependenciesOf]
      simp [Ne.symm h]
  case h_2 hno =>
    refine ⟨.inl, ?_⟩
    rintro (h | ⟨hopen, hc, -⟩)
    · exact h
    · exact absurd hc (hno caller hopen)

theorem contains_recordAll (events : List ImportEvent) :
    (t.recordAll events).edges.contains caller = true ↔
      t.edges.contains caller = true ∨ t.isOpen = true ∧ ∃ e ∈ events, e.caller = some caller := by
  induction events generalizing t with
  | nil => simp [recordAll]
  | cons e rest ih =>
    have hstep : (t.recordAll (e :: rest)) = (t.record e).recordAll rest := rfl
    rw [hstep, ih, contains_record, isOpen_record]
    simp only [List.mem_cons, exists_eq_or_imp]
    tauto

theorem mem_dependenciesOf_recordAll (events : List ImportEvent) :
    module ∈ ((t.recordAll events).dependenciesOf caller).toList ↔
      module ∈ (t.dependenciesOf caller).toList ∨ t.isOpen = true ∧
        ∃ e ∈ events, e.caller = some caller ∧ module ∈ e.module :: e.reexports := by
  induction events generalizing t with
  | nil => simp [recordAll]
  | cons e rest ih =>
    have hstep : (t.recordAll (e :: rest)) = (t.record e).recordAll rest := rfl
    rw [hstep, ih, mem_dependenciesOf_record, isOpen_record]
    simp only [List.mem_cons (l := rest), exists_eq_or_imp]
    tauto

end Trace

/-- A process answers the requests with one line each. -/
def HelperProgram.AnswersByLines (p : HelperProgram) (line : Nat → ByteArray)
    (requests : List String) : Prop :=
  ∀ n < requests.length, '\n'.toUInt8 ∉ (line n).data.toList ∧
    p.answer? (requests.take (n + 1)) = some ((line n).push '\n'.toUInt8)

namespace HelperProgram.AnswersByLines

variable {p : HelperProgram} {line : Nat → ByteArray} {requests more : List String}

theorem of_append (h : p.AnswersByLines line (requests ++ more)) :
    p.AnswersByLines line requests := by
  intro n hn
  obtain ⟨hline, hanswer⟩ := h n (by simp; omega)
  rw [List.take_append_of_le_length hn] at hanswer
  exact ⟨hline, hanswer⟩

/-- The answer to the request after the first ones. -/
theorem next {request : String} (h : p.AnswersByLines line (requests ++ request :: more)) :
    '\n'.toUInt8 ∉ (line requests.length).data.toList ∧
      p.answer? (requests ++ [request]) = some ((line requests.length).push '\n'.toUInt8) := by
  obtain ⟨hline, hanswer⟩ := h requests.length (by simp)
  rw [List.append_cons, List.take_left' (by simp)] at hanswer
  exact ⟨hline, hanswer⟩

end HelperProgram.AnswersByLines

namespace Helper

/-! ## Exchanges -/

/-- What a line says, or why it says nothing. -/
def answerOf (line : ByteArray) : Except ImportError HelperResponse :=
  match String.fromUTF8? (line.push '\n'.toUInt8) with
  | none => .error (.file .invalidData)
  | some text =>
    match HelperResponse.ofLine? text with
    | none => .error .protocol
    | some response => .ok response

/-- One import: the module that was asked for, the line that answered, without its end, and whether
the trace was open. -/
structure Exchange where
  module : String
  line : ByteArray
  isTraced : Bool

namespace Exchange

/-- The line that was sent, without its end. -/
def request (x : Exchange) : String := requestLine x.module

/-- What the answer says, or why it says nothing. -/
def answer (x : Exchange) : Except ImportError HelperResponse := answerOf x.line

/-- Whether the import succeeds, and with which error it does not. -/
def verdict (x : Exchange) : Except ImportError Unit :=
  match x.answer with
  | .error e => .error e
  | .ok r => if r.ok then .ok () else .error (.failed x.module (r.error.getD "no error message"))

/-- The events that the trace should take in. -/
def events (x : Exchange) : List ImportEvent :=
  match x.answer with
  | .ok r => if x.isTraced then r.events else []
  | .error _ => []

/-- The file that is reported for a name, if the name is reported. -/
def fileOf? (x : Exchange) (name : String) : Option (Option Path) :=
  match x.answer with
  | .ok r => r.modules.find? name
  | .error _ => none

/-- The registrations of a successful import. -/
def accepted (x : Exchange) : List Registration :=
  match x.answer with
  | .ok r => if r.ok then r.registrations else []
  | .error _ => []

end Exchange

/-- The file that was last reported for a name. -/
def lastFile? (xs : List Exchange) (name : String) : Option (Option Path) :=
  xs.reverse.findSome? fun x => x.fileOf? name

/-! ## Sessions -/

/-- What the user of an importer does. -/
inductive Call where
  | importModule (name : String)
  | loaded (name : String)
  | loadedFiles
  | takeRegistrations
  | startTrace
  | stopTrace

/-- The module that a call asks the helper for. -/
def Call.imported? : Call → Option String
  | importModule name => some name
  | _ => none

/-- A conversation so far. -/
structure Session where
  state : State
  trace : Trace
  /-- What the imports came to, in order. -/
  outcomes : List (Except ImportError LoadedModule)
  /-- The registrations that were taken, in order. -/
  taken : List Registration

namespace Session

/-- Nothing was asked for yet. -/
def empty : Session := ⟨.empty, .empty, [], []⟩

/-- Make one call. A lookup changes nothing. -/
def step (h : Helper) (t : FileTree) (s : Session) : Call → Session
  | .importModule name =>
    let r := (h.importer t).importModule name s.state
    { s with
      state := r.state
      trace := s.trace.recordAll r.events
      outcomes := s.outcomes ++ [r.outcome] }
  | .loaded _ => s
  | .loadedFiles => s
  | .takeRegistrations =>
    let (registrations, state) := (h.importer t).takeRegistrations s.state
    { s with state, taken := s.taken ++ registrations }
  | .startTrace => { s with trace := s.trace.start }
  | .stopTrace => { s with trace := s.trace.stop }

/-- Make calls, in order. -/
def run (h : Helper) (t : FileTree) (s : Session) (calls : List Call) : Session :=
  calls.foldl (step h t) s

/-- The session is what the exchanges say. -/
structure Reflects (s : Session) (xs : List Exchange) : Prop where
  /-- The process read all requests and wrote nothing that was not read. -/
  process : s.state.process = none ∧ xs = [] ∨
    s.state.process = some ⟨xs.map Exchange.request, [], false⟩
  requests : s.state.requests = xs.map Exchange.request
  outcomes : s.outcomes.map (Except.map fun _ => ()) = xs.map Exchange.verdict
  edges : ∀ caller, s.trace.edges.contains caller = true ↔
    ∃ e ∈ xs.flatMap Exchange.events, e.caller = some caller
  dependencies : ∀ caller module, module ∈ (s.trace.dependenciesOf caller).toList ↔
    ∃ e ∈ xs.flatMap Exchange.events, e.caller = some caller ∧ module ∈ e.module :: e.reexports
  files : ∀ name, s.state.modules.find? name = lastFile? xs name
  registrations : s.taken ++ s.state.registrations = xs.flatMap Exchange.accepted

end Session

/-- The exchanges of some calls, when the trace is open or not at first and `n` requests were
answered before. -/
def exchangesFrom (line : Nat → ByteArray) : Bool → Nat → List Call → List Exchange
  | _, _, [] => []
  | isOpen, n, .importModule name :: rest =>
    ⟨name, line n, isOpen⟩ :: exchangesFrom line isOpen (n + 1) rest
  | isOpen, n, .loaded _ :: rest => exchangesFrom line isOpen n rest
  | isOpen, n, .loadedFiles :: rest => exchangesFrom line isOpen n rest
  | isOpen, n, .takeRegistrations :: rest => exchangesFrom line isOpen n rest
  | _, n, .startTrace :: rest => exchangesFrom line true n rest
  | _, n, .stopTrace :: rest => exchangesFrom line false n rest

/-- The exchanges of a conversation. -/
def exchanges (line : Nat → ByteArray) (calls : List Call) : List Exchange :=
  exchangesFrom line false 0 calls

/-- The helper can be started. -/
def Starts (h : Helper) (t : FileTree) : Prop :=
  h.launch.command ≠ [] ∧ h.launch.startError? t h.searchPath = none

variable {h : Helper} {t : FileTree} {line : Nat → ByteArray} {s : Session} {xs : List Exchange}

/-! ## One exchange -/

theorem process?_of_starts (hstarts : h.Starts t) (hnone : s.state.process = none) :
    process? h t s.state =
      .ok (⟨[], [], false⟩, { s.state with launches := s.state.launches ++ [h.launch] }) := by
  have hcommand : ¬ h.launch.command.isEmpty = true := by simpa using hstarts.1
  unfold process?
  split
  case h_1 p hsome => exact absurd (hnone.symm.trans hsome) (by simp)
  case h_2 => rw [if_neg hcommand, hstarts.2]

/-- **An answer of one line is read to its end.** The process has seen the request after those of the
exchanges before it, and has nothing more to say. -/
theorem ask_line (hstarts : h.Starts t) (hs : s.Reflects xs) {x : Exchange}
    (hline : '\n'.toUInt8 ∉ x.line.data.toList)
    (hanswer : h.program.answer? ((xs ++ [x]).map Exchange.request) =
      some (x.line.push '\n'.toUInt8)) :
    ∃ launches, ask h t x.module s.state =
      (x.answer, { s.state with
        process := some ⟨(xs ++ [x]).map Exchange.request, [], false⟩
        requests := (xs ++ [x]).map Exchange.request
        launches }) := by
  have hrequests : (xs ++ [x]).map Exchange.request =
      xs.map Exchange.request ++ [requestLine x.module] := by simp [Exchange.request]
  rw [hrequests] at hanswer ⊢
  have hprocess : ∃ launches, process? h t s.state =
      .ok (⟨xs.map Exchange.request, [], false⟩, { s.state with launches }) := by
    rcases hs.process with ⟨hnone, rfl⟩ | hsome
    · exact ⟨_, process?_of_starts hstarts hnone⟩
    · refine ⟨s.state.launches, ?_⟩
      unfold process?
      rw [hsome]
  have hbytes : (⟨(x.line.data.toList ++ [newline]).toArray⟩ : ByteArray) =
      x.line.push '\n'.toUInt8 := by
    refine ByteArray.ext (Array.ext' ?_)
    rw [ByteArray.data_push, Array.toList_push]
  obtain ⟨launches, hprocess⟩ := hprocess
  refine ⟨launches, ?_⟩
  unfold ask Exchange.answer answerOf
  rw [hprocess]
  dsimp only
  rw [if_neg (by simp), hs.requests, hanswer]
  dsimp only
  rw [List.nil_append, toList_push, splitLine_line hline]
  split
  case h_1 heq => exact absurd heq (by simp)
  case h_2 answer unread _ heq =>
    obtain ⟨rfl, rfl⟩ : _ ∧ _ := by simpa using heq.symm
    rw [hbytes]
    split <;> [skip; split] <;> simp_all

/-- What an import does that was answered with the line of an exchange. -/
structure Takes (st : State) (x : Exchange) (r : ImportResult State) : Prop where
  outcome : r.outcome.map (fun _ => ()) = x.verdict
  events : x.events = if x.isTraced then r.events else []
  files : ∀ name, r.state.modules.find? name = (x.fileOf? name).or (st.modules.find? name)
  registrations : r.state.registrations = st.registrations ++ x.accepted
  /-- An answer that says nothing is passed over. -/
  refused : ∀ e, x.answer = .error e →
    r.events = [] ∧ r.state.modules = st.modules ∧ r.state.registrations = st.registrations

/-- **What an import takes from its answer**: all of the modules and events, the registrations only
when the import succeeded, and nothing when the answer cannot be read. -/
theorem takes_importModule {x : Exchange} {st st' : State}
    (hask : ask h t x.module st = (x.answer, st')) (hmodules : st'.modules = st.modules)
    (hregistrations : st'.registrations = st.registrations) :
    Takes st x (importModule h t x.module st) := by
  unfold importModule
  rw [hask]
  cases hanswer : x.answer with
  | error e =>
    exact
      { outcome := by simp [Exchange.verdict, hanswer, Except.map]
        events := by simp [Exchange.events, hanswer]
        files := fun name => by simp [Exchange.fileOf?, hanswer, hmodules]
        registrations := by simp [Exchange.accepted, hanswer, hregistrations]
        refused := fun _ _ => ⟨rfl, hmodules, hregistrations⟩ }
  | ok r =>
    have hfiles : ∀ name, (st'.modules.union r.modules).find? name =
        (x.fileOf? name).or (st.modules.find? name) := fun name => by
      rw [SortedMap.find?_union, hmodules, ← SortedMap.find?_ofList, SortedMap.ofList_entries,
        Exchange.fileOf?, hanswer]
    dsimp only
    cases hok : r.ok with
    | true =>
      rw [if_pos rfl]
      exact
        { outcome := by simp [Exchange.verdict, hanswer, hok, Except.map]
          events := by simp [Exchange.events, hanswer]
          files := hfiles
          registrations := by simp [Exchange.accepted, hanswer, hok, hregistrations]
          refused := fun e he => by rw [hanswer] at he; exact absurd he (by simp) }
    | false =>
      rw [if_neg (by simp)]
      exact
        { outcome := by simp [Exchange.verdict, hanswer, hok, Except.map]
          events := by simp [Exchange.events, hanswer]
          files := hfiles
          registrations := by simp [Exchange.accepted, hanswer, hok, hregistrations]
          refused := fun e he => by rw [hanswer] at he; exact absurd he (by simp) }

/-! ## Whole conversations -/

theorem lastFile?_concat (xs : List Exchange) (x : Exchange) (name : String) :
    lastFile? (xs ++ [x]) name = (x.fileOf? name).or (lastFile? xs name) := by
  unfold lastFile?
  rw [List.reverse_append, List.reverse_singleton, List.singleton_append, List.findSome?_cons]
  cases x.fileOf? name <;> rfl

/-- The events of one more exchange come to those before, if the trace is open. -/
theorem exists_events_concat {x : Exchange} {events : List ImportEvent}
    (h : x.events = if x.isTraced then events else []) (P : ImportEvent → Prop) :
    (∃ e ∈ (xs ++ [x]).flatMap Exchange.events, P e) ↔
      (∃ e ∈ xs.flatMap Exchange.events, P e) ∨ x.isTraced = true ∧ ∃ e ∈ events, P e := by
  have hall : (xs ++ [x]).flatMap Exchange.events = xs.flatMap Exchange.events ++ x.events := by simp
  rw [hall, h]
  cases x.isTraced <;> simp [or_and_right, exists_or]

namespace Session

theorem reflects_empty : empty.Reflects [] where
  process := .inl ⟨rfl, rfl⟩
  requests := rfl
  outcomes := rfl
  edges := by simp [empty, Trace.empty, SortedMap.contains]
  dependencies := fun caller module =>
    ⟨fun h => absurd h (List.not_mem_nil), fun ⟨_, he, _⟩ => absurd he (List.not_mem_nil)⟩
  files := by simp [empty, State.empty, lastFile?]
  registrations := rfl

/-- What the next import takes, when its request is answered by a line. -/
theorem Reflects.takes (hstarts : h.Starts t) (hs : s.Reflects xs) {x : Exchange}
    (hline : '\n'.toUInt8 ∉ x.line.data.toList)
    (hanswer : h.program.answer? ((xs ++ [x]).map Exchange.request) =
      some (x.line.push '\n'.toUInt8)) :
    Takes s.state x (Helper.importModule h t x.module s.state) := by
  obtain ⟨launches, hask⟩ := ask_line hstarts hs hline hanswer
  exact takes_importModule hask rfl rfl

/-- An import adds its exchange. -/
theorem Reflects.importModule (hstarts : h.Starts t) (hs : s.Reflects xs) {x : Exchange}
    (hopen : x.isTraced = s.trace.isOpen) (hline : '\n'.toUInt8 ∉ x.line.data.toList)
    (hanswer : h.program.answer? ((xs ++ [x]).map Exchange.request) =
      some (x.line.push '\n'.toUInt8)) :
    (s.step h t (.importModule x.module)).Reflects (xs ++ [x]) := by
  have htakes := hs.takes hstarts hline hanswer
  obtain ⟨launches, hask⟩ := ask_line hstarts hs hline hanswer
  have hstate : ∀ {r}, r = Helper.importModule h t x.module s.state →
      r.state.process = some ⟨(xs ++ [x]).map Exchange.request, [], false⟩ ∧
        r.state.requests = (xs ++ [x]).map Exchange.request := by
    rintro r rfl
    unfold Helper.importModule
    rw [hask]
    cases x.answer with
    | error e => exact ⟨rfl, rfl⟩
    | ok r => cases hok : r.ok <;> simp [hok]
  exact
    { process := .inr (hstate rfl).1
      requests := (hstate rfl).2
      outcomes := by
        rw [step, List.map_append, List.map_append, hs.outcomes]
        exact congrArg _ (congrArg (fun v => [v]) htakes.outcome)
      edges := fun caller => by
        rw [exists_events_concat htakes.events, hopen, ← hs.edges caller]
        exact Trace.contains_recordAll _
      dependencies := fun caller module => by
        rw [exists_events_concat htakes.events, hopen, ← hs.dependencies caller module]
        exact Trace.mem_dependenciesOf_recordAll _
      files := fun name => by
        rw [lastFile?_concat, ← hs.files name]
        exact htakes.files name
      registrations := by
        rw [List.flatMap_append, ← hs.registrations, List.append_assoc, List.flatMap_singleton,
          ← htakes.registrations]
        rfl }

/-- The calls that send nothing leave the exchanges as they are. -/
theorem Reflects.takeRegistrations (hs : s.Reflects xs) :
    (s.step h t .takeRegistrations).Reflects xs :=
  { hs with registrations := (List.append_nil _).trans hs.registrations }

/-- **The run of a conversation.** Induction on the calls; what was exchanged before is a prefix of
all exchanges, and the helper's answers are known for all of them. -/
theorem Reflects.run (hstarts : h.Starts t) {calls : List Call} (hs : s.Reflects xs)
    (hlines : h.program.AnswersByLines line
      ((xs ++ exchangesFrom line s.trace.isOpen xs.length calls).map Exchange.request)) :
    (s.run h t calls).Reflects (xs ++ exchangesFrom line s.trace.isOpen xs.length calls) := by
  induction calls generalizing s xs with
  | nil =>
    rw [exchangesFrom, List.append_nil]
    exact hs
  | cons call rest ih =>
    cases call with
    | importModule name =>
      rw [exchangesFrom, List.append_cons] at hlines ⊢
      have hnext : h.program.AnswersByLines line (xs.map Exchange.request ++
          requestLine name :: (exchangesFrom line s.trace.isOpen (xs.length + 1) rest).map
            Exchange.request) := by
        simpa [Exchange.request] using hlines
      obtain ⟨hline, hanswer⟩ := hnext.next
      rw [List.length_map] at hline hanswer
      have hstep := hs.importModule hstarts (x := ⟨name, line xs.length, s.trace.isOpen⟩) rfl hline
        (by simpa [Exchange.request] using hanswer)
      have hopen : (s.step h t (.importModule name)).trace.isOpen = s.trace.isOpen :=
        Trace.isOpen_recordAll _
      have hrun := ih hstep
      rw [hopen, List.length_append, List.length_singleton] at hrun
      exact hrun hlines
    | loaded name => exact ih hs hlines
    | loadedFiles => exact ih hs hlines
    | takeRegistrations => exact ih hs.takeRegistrations hlines
    | startTrace => exact ih (s := s.step h t .startTrace) { hs with } hlines
    | stopTrace => exact ih (s := s.step h t .stopTrace) { hs with } hlines

end Session

/-- The modules that were asked for are those of the imports. -/
theorem exchangesFrom_map_module (isOpen : Bool) (n : Nat) (calls : List Call) :
    (exchangesFrom line isOpen n calls).map (fun x => x.module) =
      calls.filterMap Call.imported? := by
  induction calls generalizing isOpen n with
  | nil => rfl
  | cons call rest ih =>
    cases call with
    | importModule name => exact congrArg (name :: ·) (ih isOpen (n + 1))
    | loaded name => exact ih isOpen n
    | loadedFiles => exact ih isOpen n
    | takeRegistrations => exact ih isOpen n
    | startTrace => exact ih true n
    | stopTrace => exact ih false n

theorem map_request_exchanges (calls : List Call) :
    (exchanges line calls).map Exchange.request =
      (calls.filterMap Call.imported?).map requestLine := by
  rw [exchanges, ← exchangesFrom_map_module false 0 calls, List.map_map]
  rfl

/-- **The loader protocol.** A helper that answers each request with one line decides by its lines
alone what becomes of a conversation.

The requests are one line each and say the names that were imported. Each import comes to what its own
line says. The trace holds the events of the answers that came while it was open, and the files are
those reported last, whether the imports succeeded or not; the registrations that were taken or can
still be taken are those of the successful imports. An answer that cannot be read changes nothing. -/
theorem conversation_reflects_lines {calls : List Call} (hstarts : h.Starts t)
    (hlines : h.program.AnswersByLines line
      ((calls.filterMap Call.imported?).map requestLine)) :
    let s := Session.empty.run h t calls
    let xs := exchanges line calls
    (Text.split '\n' (sentText s.state.requests) =
        (calls.filterMap Call.imported?).map (fun name => (requestLine name).toList) ++ [[]] ∧
      ∀ name ∈ calls.filterMap Call.imported?,
        Json.parse? (requestLine name) = some (Json.record [("import", .text name)])) ∧
    s.outcomes.map (Except.map fun _ => ()) = xs.map Exchange.verdict ∧
    (∀ caller, s.trace.edges.contains caller = true ↔
      ∃ e ∈ xs.flatMap Exchange.events, e.caller = some caller) ∧
    (∀ caller module, module ∈ (s.trace.dependenciesOf caller).toList ↔
      ∃ e ∈ xs.flatMap Exchange.events, e.caller = some caller ∧ module ∈ e.module :: e.reexports) ∧
    (∀ name, (h.importer t).loaded? s.state name =
      (lastFile? xs name).map fun file => ⟨name, file⟩) ∧
    s.taken ++ s.state.registrations = xs.flatMap Exchange.accepted ∧
    ∀ before name after e, calls = before ++ .importModule name :: after →
      answerOf (line (before.filterMap Call.imported?).length) = .error e →
        let s := Session.empty.run h t before
        let s' := s.step h t (.importModule name)
        s'.trace = s.trace ∧ s'.state.modules = s.state.modules ∧
          s'.state.registrations = s.state.registrations := by
  intro s xs
  have hreflects : ∀ calls, h.program.AnswersByLines line
      ((calls.filterMap Call.imported?).map requestLine) →
        (Session.empty.run h t calls).Reflects (exchanges line calls) := fun calls hlines => by
    rw [← map_request_exchanges] at hlines
    exact Session.reflects_empty.run hstarts hlines
  have hs := hreflects calls hlines
  refine ⟨⟨?_, fun name _ => parse?_requestLine name⟩, hs.outcomes, hs.edges, hs.dependencies,
    fun name => ?_, hs.registrations, ?_⟩
  · rw [hs.requests, map_request_exchanges, split_sentText, List.map_map]
    · rfl
    · intro r hr
      obtain ⟨name, -, rfl⟩ := List.mem_map.1 hr
      exact newline_notMem_requestLine name
  · exact congrArg (Option.map _) (hs.files name)
  · rintro before name after e rfl he
    rw [List.filterMap_append, List.map_append] at hlines
    have hbefore := hreflects before hlines.of_append
    obtain ⟨hline, hanswer⟩ := hlines.next
    rw [List.length_map] at hline hanswer
    obtain ⟨hevents, hmodules, hregistrations⟩ :=
      (hbefore.takes hstarts (x := ⟨name, line (before.filterMap Call.imported?).length, false⟩)
        hline (by rw [List.map_append, map_request_exchanges]; exact hanswer)).refused e he
    refine ⟨?_, hmodules, hregistrations⟩
    exact congrArg (Trace.recordAll _) hevents

/-- Answers of three kinds: a success, a byte that is no text, and a failure. -/
def sampleLines : List ByteArray :=
  ["\x7b\"ok\":true,\"events\":[\x7b\"caller\":\"a\",\"module\":\"b\"\x7d],".toUTF8 ++
      "\"modules\":\x7b\"a\":\"/a.py\",\"b\":\"/b.py\"\x7d\x7d".toUTF8,
    ⟨#[255]⟩,
    "\x7b\"ok\":false,\"error\":\"no\",\"modules\":\x7b\"a\":null\x7d\x7d".toUTF8]

def sampleHelper : Helper := .ofCommand ["/py"] [] (.ofLines sampleLines 0)

def sampleTree : FileTree where
  entries := .ofList [(["py"], .file .empty ⟨100, 0⟩ true)]
  current := []
  clock := ⟨100, 0⟩

def sampleCalls : List Call :=
  [.startTrace, .importModule "a", .importModule "é\n", .takeRegistrations, .importModule "b",
    .loaded "a"]

/-- Each answer of the sample has its own verdict, and the failure still reports a file. -/
theorem sample_reflects_lines :
    sampleHelper.Starts sampleTree ∧
    sampleHelper.program.AnswersByLines (fun n => sampleLines.getD n .empty)
      ((sampleCalls.filterMap Call.imported?).map requestLine) ∧
    (Session.empty.run sampleHelper sampleTree sampleCalls).outcomes.map
        (Except.map fun _ => ()) =
      [.ok (), .error (.file .invalidData), .error (.failed "b" "no")] ∧
    (sampleHelper.importer sampleTree).loaded?
      (Session.empty.run sampleHelper sampleTree sampleCalls).state "a" = some ⟨"a", none⟩ ∧
    "b" ∈ ((Session.empty.run sampleHelper sampleTree sampleCalls).trace.dependenciesOf "a").toList := by
  have hstarts : sampleHelper.Starts sampleTree := ⟨by decide, by decide +kernel⟩
  have hlines : sampleHelper.program.AnswersByLines (fun n => sampleLines.getD n .empty)
      ((sampleCalls.filterMap Call.imported?).map requestLine) := by
    intro n hn
    match n, (show n < 3 from hn) with
    | 0, _ => exact ⟨by decide +kernel, rfl⟩
    | 1, _ => exact ⟨by decide +kernel, rfl⟩
    | 2, _ => exact ⟨by decide +kernel, rfl⟩
  obtain ⟨-, houtcomes, -, hdependencies, hloaded, -, -⟩ := conversation_reflects_lines hstarts hlines
  refine ⟨hstarts, hlines, houtcomes.trans (by decide +kernel), (hloaded "a").trans (by decide +kernel),
    (hdependencies "a" "b").2 ?_⟩
  decide +kernel

end Helper

end QmlStubs
