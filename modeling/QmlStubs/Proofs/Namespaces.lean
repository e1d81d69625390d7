import QmlStubs.Importer.Helper
import QmlStubs.Proofs.Collections

/-!
# Namespaces and the processes that hold them

A helper process is one import namespace: giving it up ends it, a process may end by itself, and the
next import starts another. The importer's own table of files is not part of that. Here the
processes are numbered in the order they are started, and each answer is taken as a `Report` with
the number of the process that gave it. For every sequence of calls, whatever the processes answer
and wherever they end,

> a name has the file that was reported last for it, by any of the processes (`find?_run`).

So **the namespace is that of the running process as long as only one was started**
(`isFresh_of_one_process`), and a second process does not begin with an empty one
(`restarted_namespace_is_not_fresh`).
-/

set_option autoImplicit false

namespace QmlStubs

namespace Helper

/-- The files that one answer reports, and the number of the process it comes from. -/
structure Report where
  process : Nat
  files : SortedMap String (Option Path)

/-- A use of a namespace. -/
inductive Use where
  | importModule (name : String)
  | finish

namespace Use

variable (h : Helper) (t : FileTree)

/-- The importer's side after a use. -/
def step (s : State) : Use → State
  | .importModule name => ((h.importer t).importModule name s).state
  | .finish => ((h.importer t).finish s).2

/-- What a use reports: nothing if it has no answer that can be read. -/
def report? (s : State) : Use → Option Report
  | .importModule name =>
    match ask h t name s with
    | (.ok r, s) => some ⟨s.launches.length, r.modules⟩
    | (.error _, _) => none
  | .finish => none

/-- The importer's side after some uses. -/
def run (s : State) (uses : List Use) : State := uses.foldl (step h t) s

/-- What some uses report, in order. -/
def reports : State → List Use → List Report
  | _, [] => []
  | s, use :: rest => (report? h t s use).toList ++ reports (step h t s use) rest

end Use

/-- The file that was reported last for a name. -/
def lastReported? (reports : List Report) (name : String) : Option (Option Path) :=
  reports.reverse.findSome? fun r => r.files.find? name

/-- All files that are known after some uses were reported by the process that was started last. -/
def IsFresh (h : Helper) (t : FileTree) (uses : List Use) : Prop :=
  ∀ name m, (h.importer t).loaded? (Use.run h t .empty uses) name = some m →
    ∃ r ∈ Use.reports h t .empty uses,
      r.process = (Use.run h t .empty uses).launches.length ∧ r.files.find? name = some m.file

variable {h : Helper} {t : FileTree}

/-! ## One use -/

/-- A process that runs was started. -/
def Numbered (s : State) : Prop := s.process ≠ none → s.launches ≠ []

/-- What a request leaves: the files as they were, and the processes that were started before. -/
structure Asked (s s' : State) : Prop where
  modules : s'.modules = s.modules
  launches : s.launches.length ≤ s'.launches.length
  numbered : Numbered s'

theorem Numbered.of_process? {s s' : State} {p : Process} (hs : Numbered s)
    (hp : process? h t s = .ok (p, s')) :
    s'.modules = s.modules ∧ s.launches.length ≤ s'.launches.length ∧ s'.launches ≠ [] := by
  unfold process? at hp
  split at hp
  case h_1 q hq =>
    obtain ⟨-, rfl⟩ := Prod.mk.inj (Except.ok.inj hp)
    exact ⟨rfl, Nat.le_refl _, hs (by rw [hq]; simp)⟩
  case h_2 =>
    split at hp
    · exact absurd hp (by simp)
    · split at hp
      · exact absurd hp (by simp)
      · obtain ⟨-, rfl⟩ := Prod.mk.inj (Except.ok.inj hp)
        exact ⟨rfl, by simp, by simp⟩

/-- **A request changes no file**, and what is answered was answered by a process. -/
theorem Numbered.of_ask {s s' : State} {name : String} {r : Except ImportError HelperResponse}
    (hs : Numbered s) (hr : ask h t name s = (r, s')) :
    Asked s s' ∧ (r.toBool = true → s'.launches ≠ []) := by
  cases hp : process? h t s with
  | error e =>
    unfold ask at hr
    rw [hp] at hr
    obtain ⟨rfl, rfl⟩ := Prod.mk.inj hr
    exact ⟨⟨rfl, Nat.le_refl _, hs⟩, fun hbool => absurd hbool (by simp [Except.toBool])⟩
  | ok started =>
    obtain ⟨p, s₁⟩ := started
    obtain ⟨hmodules, hlaunches, hne⟩ := hs.of_process? hp
    -- However the answer is read, only the process itself and the requests are changed after that.
    have hrest : s'.modules = s₁.modules ∧ s'.launches = s₁.launches := by
      unfold ask at hr
      rw [hp] at hr
      dsimp only at hr
      split at hr
      · obtain ⟨-, rfl⟩ := Prod.mk.inj hr
        exact ⟨rfl, rfl⟩
      · repeat' split at hr
        all_goals
          obtain ⟨-, rfl⟩ := Prod.mk.inj hr
          exact ⟨rfl, rfl⟩
    refine ⟨⟨hrest.1.trans hmodules, ?_, fun _ => ?_⟩, fun _ => ?_⟩
    · rwa [hrest.2]
    · rwa [hrest.2]
    · rwa [hrest.2]

namespace Use

/-- What one use leaves of the files and the processes. -/
structure Steps (s s' : State) (report : Option Report) : Prop where
  files : ∀ name, s'.modules.find? name =
    (report.bind fun r => r.files.find? name).or (s.modules.find? name)
  launches : s.launches.length ≤ s'.launches.length
  numbered : Numbered s'
  process : ∀ r ∈ report, 0 < r.process ∧ r.process = s'.launches.length

/-- **A use adds what it reports**, under the number of the process that runs then. -/
theorem steps {s : State} (hs : Numbered s) (use : Use) :
    Steps s (use.step h t s) (use.report? h t s) := by
  cases use with
  | finish =>
    have hfinish : (Use.finish.step h t s).modules = s.modules ∧
        (Use.finish.step h t s).launches = s.launches ∧ Numbered (Use.finish.step h t s) := by
      unfold step importer Helper.finish
      dsimp only
      split
      · exact ⟨rfl, rfl, hs⟩
      · exact ⟨rfl, rfl, fun hp => absurd rfl hp⟩
    obtain ⟨hmodules, hlaunches, hnumbered⟩ := hfinish
    exact
      { files := fun name => by rw [hmodules]; rfl
        launches := hlaunches ▸ Nat.le_refl _
        numbered := hnumbered
        process := fun r hr => absurd hr (by simp [report?]) }
  | importModule name =>
    cases hask : ask h t name s with
    | mk r s₁ =>
      obtain ⟨hasked, hne⟩ := hs.of_ask hask
      cases r with
      | error e =>
        have hreport : report? h t s (.importModule name) = none := by
          unfold report?
          dsimp only
          rw [hask]
        have hstate : step h t s (.importModule name) = s₁ := by
          unfold step importer Helper.importModule
          dsimp only
          rw [hask]
        rw [hreport, hstate]
        exact
          { files := fun name' => by rw [hasked.modules]; rfl
            launches := hasked.launches
            numbered := hasked.numbered
            process := fun r hr => absurd hr (by simp) }
      | ok r =>
        have hreport : report? h t s (.importModule name) =
            some ⟨s₁.launches.length, r.modules⟩ := by
          unfold report?
          dsimp only
          rw [hask]
        -- A failed import reports its files as well; only its registrations are left out.
        have hstate : ∃ registrations, step h t s (.importModule name) =
            { s₁ with modules := s₁.modules.union r.modules, registrations } := by
          unfold step importer Helper.importModule
          dsimp only
          rw [hask]
          dsimp only
          split
          · exact ⟨_, rfl⟩
          · exact ⟨_, rfl⟩
        obtain ⟨registrations, hstate⟩ := hstate
        rw [hreport, hstate]
        exact
          { files := fun name' => by
              rw [SortedMap.find?_union, hasked.modules, ← SortedMap.find?_ofList,
                SortedMap.ofList_entries]
              rfl
            launches := hasked.launches
            numbered := hasked.numbered
            process := fun r' hr' => by
              obtain rfl := Option.some.inj hr'
              exact ⟨List.length_pos_of_ne_nil (hne rfl), rfl⟩ }

/-! ## Any uses -/

/-- **The files after some uses are those reported last**, by whichever process. -/
theorem find?_run {s : State} (hs : Numbered s) (uses : List Use) (name : String) :
    (run h t s uses).modules.find? name =
      (lastReported? (reports h t s uses) name).or (s.modules.find? name) := by
  induction uses generalizing s with
  | nil => rfl
  | cons use rest ih =>
    have hstep := steps (h := h) (t := t) hs use
    have hrun : run h t s (use :: rest) = run h t (use.step h t s) rest := rfl
    rw [hrun, ih hstep.numbered, hstep.files, reports]
    unfold lastReported?
    rw [List.reverse_append, List.findSome?_append, Option.or_assoc]
    cases use.report? h t s with
    | none => rfl
    | some r => simp

/-- The processes that report are among those that are started, none before its start. -/
theorem process_bounds {s : State} (hs : Numbered s) (uses : List Use) :
    s.launches.length ≤ (run h t s uses).launches.length ∧
      ∀ r ∈ reports h t s uses, 0 < r.process ∧ s.launches.length ≤ r.process ∧
        r.process ≤ (run h t s uses).launches.length := by
  induction uses generalizing s with
  | nil => exact ⟨Nat.le_refl _, fun r hr => absurd hr (by simp [reports])⟩
  | cons use rest ih =>
    have hstep := steps (h := h) (t := t) hs use
    obtain ⟨hle, hrest⟩ := ih hstep.numbered
    have hrun : run h t s (use :: rest) = run h t (use.step h t s) rest := rfl
    rw [hrun]
    refine ⟨Nat.le_trans hstep.launches hle, fun r hr => ?_⟩
    rw [reports, List.mem_append, Option.mem_toList] at hr
    rcases hr with hr | hr
    · obtain ⟨hpos, heq⟩ := hstep.process r hr
      exact ⟨hpos, heq ▸ hstep.launches, heq ▸ hle⟩
    · obtain ⟨hpos, hge, hlast⟩ := hrest r hr
      exact ⟨hpos, Nat.le_trans hstep.launches hge, hlast⟩

end Use

theorem numbered_empty : Numbered .empty := fun hp => absurd rfl hp

/-- **A module is loaded from the file that was reported last for it**, since the importer was made:
no process that is given up or ends takes its files along. -/
theorem loaded?_run (uses : List Use) (name : String) :
    (h.importer t).loaded? (Use.run h t .empty uses) name =
      (lastReported? (Use.reports h t .empty uses) name).map fun file => ⟨name, file⟩ := by
  have hfind := Use.find?_run (h := h) (t := t) numbered_empty uses name
  have hempty : (State.empty.modules.find? name) = none := rfl
  rw [hempty, Option.or_none] at hfind
  exact congrArg (Option.map _) hfind

/-- **As long as one process was started**, what is loaded is what that process reported. -/
theorem isFresh_of_one_process {uses : List Use}
    (hone : (Use.run h t .empty uses).launches.length ≤ 1) : IsFresh h t uses := by
  intro name m hm
  rw [loaded?_run] at hm
  obtain ⟨file, hfile, rfl⟩ := Option.map_eq_some_iff.1 hm
  obtain ⟨r, hr, hfind⟩ := List.exists_of_findSome?_eq_some hfile
  rw [List.mem_reverse] at hr
  obtain ⟨hpos, -, hle⟩ := (Use.process_bounds numbered_empty uses).2 r hr
  exact ⟨r, hr, by omega, hfind⟩

/-! ## A process after another -/

/-- A helper each of whose processes loads a module on the second import. -/
def secondHelper : Helper :=
  .ofCommand ["/py"] [] <| .ofLines ["\x7b\"ok\":true\x7d".toUTF8,
    "\x7b\"ok\":true,\"modules\":\x7b\"b\":\"/b.py\"\x7d\x7d".toUTF8] 0

/-- Two imports from one process, and one from the next. -/
def twoProcesses : List Use := [.importModule "a", .importModule "b", .finish, .importModule "a"]

def pythonTree : FileTree where
  entries := .ofList [(["py"], .file .empty ⟨100, 0⟩ true)]
  current := []
  clock := ⟨100, 0⟩

/-- **A second process does not begin with an empty namespace**: what the first one loaded counts as
loaded, although nothing was reported since. -/
theorem restarted_namespace_is_not_fresh :
    ¬ IsFresh secondHelper pythonTree twoProcesses := by
  intro hfresh
  have hloaded : (secondHelper.importer pythonTree).loaded?
      (Use.run secondHelper pythonTree .empty twoProcesses) "b" =
        some ⟨"b", some ⟨"/b.py"⟩⟩ := by decide +kernel
  have hstale : ∀ r ∈ Use.reports secondHelper pythonTree .empty twoProcesses,
      r.process = (Use.run secondHelper pythonTree .empty twoProcesses).launches.length →
        r.files.find? "b" = none := by decide +kernel
  obtain ⟨r, hr, hprocess, hfile⟩ := hfresh "b" _ hloaded
  rw [hstale r hr hprocess] at hfile
  exact absurd hfile (by simp)

end Helper

end QmlStubs
