import Mathlib.Data.List.Chain
import Mathlib.Data.List.Nodup
import QmlStubs.Proofs.RefreshedTree

/-!
# The registrar and the types files

The registrar makes its two outputs from a types file, so they are up to date as long as its last
run for a module has seen the entries that the types file has now. A refresh runs it for the modules
whose entries it changes, and writes all types files before the first run. When a run fails, the
types files stay as they are, and the next refresh finds nothing to change. So over a history of
refreshes, each of which may fail anywhere, this is left (`Stubs.last_run_of_history`):

> **the last run for a module has succeeded on the entries that it has now, unless the refresh that
> gave it these entries failed before.**

The log of the runs is not kept by the program. It is what running the registrar for one module
after another comes to (`Stubs.runsFor`), and the arguments of these runs are what the program
records (`Stubs.calls_runsFor`).
-/

set_option autoImplicit false

namespace QmlStubs

open FileTree Workbench

/-- A run of the registrar: its module, the entries that the types file had then, and whether the
run succeeded. -/
structure RegistrarRun where
  module : QmlModule
  entries : List TypesEntry
  succeeded : Bool
  deriving DecidableEq

namespace Stubs

/-! ## The runs of one refresh -/

/-- The runs for modules in turn. There is none after one that fails. -/
def runsFor (s : Stubs) (foreign : List Path) : List Settled → Workbench → List RegistrarRun
  | [], _ => []
  | m :: ms, w =>
    match w.run (s.generate foreign m) with
    | (.ok _, v) => ⟨m.module, s.entriesOf w.tree m.module, true⟩ :: s.runsFor foreign ms v
    | (.error _, _) => [⟨m.module, s.entriesOf w.tree m.module, false⟩]

variable {s : Stubs} {w w' : Workbench} {p : Path} {d : Place} {k : QmlModule}
variable {foreign : List Path} {ms : List Settled}

/-- A run that succeeds was started with the arguments for its module; one that fails may not have
been started. -/
theorem calls_generate (s : Stubs) (w : Workbench) (foreign : List Path) (m : Settled) :
    (w.run (s.generate foreign m)).2.calls =
        w.calls ++ [Registrar.arguments m.module m.directory foreign] ∨
      (w.run (s.generate foreign m)).2.calls = w.calls ∧
        (w.run (s.generate foreign m)).1.toBool = false := by
  cases hr : s.registrar.run m.module m.directory foreign w.tree with
  | mk error rest =>
  obtain ⟨started, t⟩ := rest
  rw [run_generate hr]
  cases started with
  | true => exact .inl rfl
  | false =>
    refine .inr ⟨List.append_nil _, ?_⟩
    unfold Registrar.run at hr
    dsimp only at hr
    split at hr
    next => rw [← (Prod.mk.inj hr).1]; rfl
    next => exact absurd (Prod.mk.inj (Prod.mk.inj hr).2).1 (by simp)

/-- **The program records the arguments of the runs**, except those of a last one that could not be
started. -/
theorem calls_runsFor (hms : ∀ m ∈ ms, m.directory = m.module.directoryIn s.outDir) :
    ∃ made, (w.run (ms.forM (s.generate foreign))).2.calls = w.calls ++ made ∧
      made <+: (s.runsFor foreign ms w).map (fun r =>
        Registrar.arguments r.module (r.module.directoryIn s.outDir) foreign) ∧
      ∀ r ∈ (s.runsFor foreign ms w).drop made.length, r.succeeded = false := by
  induction ms generalizing w with
  | nil => exact ⟨[], (List.append_nil _).symm, List.nil_prefix, nofun⟩
  | cons m ms ih =>
    have hcons : (m :: ms).forM (s.generate foreign) =
        s.generate foreign m >>= fun _ => ms.forM (s.generate foreign) := rfl
    have hdir := hms m (List.mem_cons_self ..)
    have hcalls := calls_generate s w foreign m
    rw [hcons, run_bind]
    unfold runsFor
    cases hrun : w.run (s.generate foreign m) with
    | mk result v =>
    rw [hrun, hdir] at hcalls
    cases result with
    | error e =>
      rcases hcalls with hcalls | ⟨hcalls, -⟩
      · exact ⟨_, hcalls, List.prefix_refl _, nofun⟩
      · exact ⟨[], hcalls.trans (List.append_nil _).symm, List.nil_prefix, by simp⟩
    | ok =>
      rcases hcalls with hcalls | ⟨-, hfailed⟩
      · obtain ⟨made, hmade, hseen, hlast⟩ := ih (w := v) fun m' hm' =>
          hms m' (List.mem_cons_of_mem _ hm')
        refine ⟨Registrar.arguments m.module (m.module.directoryIn s.outDir) foreign :: made,
          ?_, ?_, hlast⟩
        · rw [hmade, hcalls, List.append_assoc]
          rfl
        · exact List.cons_prefix_cons.2 ⟨rfl, hseen⟩
      · exact absurd hfailed (by simp [Except.toBool])

/-- **Every run sees the entries that the first phase left.** -/
theorem map_runsFor (foreign : List Path) (hlaw : s.registrar.OnlyWritesOutputs)
    (h : Ground w.tree s.outDir d)
    (hms : ∀ m ∈ ms, m.module.IsWellNamed ∧ m.directory = m.module.directoryIn s.outDir) :
    (s.runsFor foreign ms w).map (fun r => (r.module, r.entries)) <+:
      ms.map fun m => (m.module, s.entriesOf w.tree m.module) := by
  induction ms generalizing w with
  | nil => exact List.nil_prefix
  | cons m ms ih =>
    obtain ⟨hk, hdir⟩ := hms m (List.mem_cons_self ..)
    have hms' : ∀ m ∈ ms, m.module.IsWellNamed ∧ m.directory = m.module.directoryIn s.outDir :=
      fun m hm => hms m (List.mem_cons_of_mem _ hm)
    have hchange : Change s.outDir d IsOther w.tree (w.run (s.generate foreign m)).2.tree :=
      (change_generate hlaw h hk hdir).mono fun _ => IsBeside.isOther
    unfold runsFor
    cases hrun : w.run (s.generate foreign m) with
    | mk result v =>
    rw [hrun] at hchange
    generalize hentries : s.entriesOf w.tree m.module = entries
    cases result with
    | error e =>
      dsimp only
      rw [List.map_cons, List.map_cons, hentries, List.cons_prefix_cons]
      exact ⟨rfl, List.nil_prefix⟩
    | ok =>
      dsimp only
      rw [List.map_cons, List.map_cons, hentries, List.cons_prefix_cons]
      refine ⟨rfl, ?_⟩
      have hrest := ih hchange.ground hms'
      have hsame : ms.map (fun m => (m.module, s.entriesOf v.tree m.module)) =
          ms.map fun m => (m.module, s.entriesOf w.tree m.module) :=
        List.map_congr_left fun m' hm' => by
          rw [entriesOf_change h hchange (hms' m' hm').1 not_isOther]
      rw [hsame] at hrest
      exact hrest

/-- When all runs succeed there is one for each module. -/
theorem runsFor_of_ok (hrun : w.run (ms.forM (s.generate foreign)) = (.ok (), w')) :
    (∀ r ∈ s.runsFor foreign ms w, r.succeeded = true) ∧
      (s.runsFor foreign ms w).length = ms.length := by
  induction ms generalizing w with
  | nil => exact ⟨nofun, rfl⟩
  | cons m ms ih =>
    obtain ⟨v, hfirst, hrest⟩ := ok_of_run_forM hrun
    obtain ⟨hall, hlength⟩ := ih hrest
    unfold runsFor
    rw [hfirst]
    refine ⟨fun r hr => ?_, congrArg (· + 1) hlength⟩
    rcases List.mem_cons.1 hr with rfl | hr
    · rfl
    · exact hall r hr

/-! ## Calls -/

/-- A call of a refresh, and the files that it finds. -/
structure Call where
  stubs : Stubs
  registrations : List Registration
  files : PathSet
  stale : PathSet
  bench : Workbench

namespace Call

/-- What the call comes to. -/
def outcome (c : Call) : Except RefreshError RefreshReport × Workbench :=
  c.bench.run (c.stubs.refresh c.registrations c.files c.stale)

/-- The runs of the registrar in the call. -/
def runs (c : Call) : List RegistrarRun :=
  match c.bench.run (c.stubs.settleAll c.registrations c.files c.stale) with
  | (.ok (metatypes, ms), v) => c.stubs.runsFor (foreignTypes metatypes ms) (changedOf ms) v
  | (.error _, _) => []

/-- The entries of a module before the call. -/
def former (c : Call) (k : QmlModule) : List TypesEntry := c.stubs.entriesOf c.bench.tree k

/-- The entries of a module after the call, whether it succeeds or not. -/
def entries (c : Call) (k : QmlModule) : List TypesEntry := c.stubs.entriesOf c.outcome.2.tree k

/-- A call on an output directory without links, in which every module has its own files. -/
structure IsPlain (p : Path) (d : Place) (c : Call) : Prop where
  outDir : c.stubs.outDir = p
  site : Site c.bench.tree p d
  text : textError? p = none
  dots : HasPlainDots c.bench.tree d
  named : ∀ r ∈ c.registrations, r.module.IsWellNamed
  law : c.stubs.registrar.OnlyWritesOutputs

variable {c c' : Call}

theorem IsPlain.ground (h : c.IsPlain p d) : Ground c.bench.tree c.stubs.outDir d := by
  have hsite := h.site
  rw [← h.outDir] at hsite
  exact hsite.ground

/-- The registrar is run for modules that the call gives other entries, once for each of them. -/
theorem IsPlain.sound (h : c.IsPlain p d) :
    (∀ r ∈ c.runs, r.module.IsWellNamed ∧ r.entries = c.entries r.module ∧ r.entries ≠ [] ∧
      r.entries ≠ c.former r.module) ∧ (c.runs.map (·.module)).Nodup := by
  have hground := h.ground
  have htext : textError? c.stubs.outDir = none := h.outDir ▸ h.text
  unfold runs
  cases hsettle : c.bench.run (c.stubs.settleAll c.registrations c.files c.stale) with
  | mk result v =>
  cases result with
  | error e => exact ⟨nofun, List.nodup_nil⟩
  | ok found =>
  obtain ⟨metatypes, ms⟩ := found
  have hsettled := of_run_settleAll hground htext h.dots h.named hsettle
  have hrest := change_of_settled h.law htext hsettle hsettled
  have hmem : ∀ m ∈ changedOf ms, m ∈ ms ∧ m.changed = true := fun m hm =>
    ⟨(List.mem_filter.1 (List.mem_filter.1 hm).1).1, (List.mem_filter.1 hm).2⟩
  have hseen := map_runsFor (foreignTypes metatypes ms) h.law hsettled.change.ground
    fun m hm => hsettled.named (hmem m hm).1
  dsimp only
  refine ⟨fun r hr => ?_, ?_⟩
  · obtain ⟨m, hm, he⟩ := List.mem_map.1 (hseen.subset (List.mem_map.2 ⟨r, hr, rfl⟩))
    obtain ⟨hmodule, hentries⟩ := Prod.mk.inj he
    obtain ⟨hmem, hchanged⟩ := hmem m hm
    obtain ⟨hne, hnew⟩ := (hsettled.changed hmem).1 hchanged
    have hk := (hsettled.named hmem).1
    have hafter : c.entries m.module = c.stubs.entriesOf v.tree m.module :=
      entriesOf_change hsettled.change.ground hrest hk not_isOther
    rw [hsettled.entries hmem] at hentries hafter
    rw [← hmodule, ← hentries]
    exact ⟨hk, hafter.symm, hne, hnew⟩
  · have hsorted : (changedOf ms).Pairwise fun m m' => m.module ≠ m'.module :=
      (hsettled.sorted.filter _ |>.filter _).imp fun {a b} hlt he => by
        rw [he] at hlt
        exact absurd hlt (by simp)
    have hpairs : ((changedOf ms).map fun m =>
        (m.module, c.stubs.entriesOf v.tree m.module)).Pairwise fun a b => a.1 ≠ b.1 :=
      List.pairwise_map.2 hsorted
    have hruns := List.Pairwise.sublist hseen.sublist hpairs
    rw [List.pairwise_map] at hruns
    exact List.pairwise_map.2 hruns

/-- **A call that succeeds runs the registrar for every module that it gives other entries.** -/
theorem IsPlain.complete (h : c.IsPlain p d) (hok : c.outcome.1.toBool = true)
    (hk : k.IsWellNamed) (hne : c.entries k ≠ []) (hnew : c.entries k ≠ c.former k) :
    ⟨k, c.entries k, true⟩ ∈ c.runs := by
  have hground := h.ground
  have htext : textError? c.stubs.outDir = none := h.outDir ▸ h.text
  obtain ⟨report, hrun⟩ := exists_pair_of_toBool hok
  obtain ⟨metatypes, ms, v, x, hsettle, hgenerate, -, -, hsettled, hrest⟩ :=
    settledTypes_refresh hground htext h.law h.dots h.named hrun
  have hafter : c.entries k = c.stubs.entriesOf v.tree k :=
    entriesOf_change hsettled.change.ground hrest hk not_isOther
  have hmem : k ∈ ms.map (·.module) := by
    by_contra hnot
    exact hne (hafter.trans (hsettled.others k hk hnot).2.1)
  obtain ⟨m, hm, rfl⟩ := List.mem_map.1 hmem
  rw [hsettled.entries hm] at hafter
  have hchanged : m.changed = true := (hsettled.changed hm).2 ⟨hafter ▸ hne, hafter ▸ hnew⟩
  have hqueued : m ∈ changedOf ms :=
    List.mem_filter.2 ⟨List.mem_filter.2 ⟨hm, by simpa using hafter ▸ hne⟩, hchanged⟩
  have hruns : c.runs = c.stubs.runsFor (foreignTypes metatypes ms) (changedOf ms) v := by
    unfold runs
    rw [hsettle]
  obtain ⟨hall, hlength⟩ := runsFor_of_ok hgenerate
  have hnamed : ∀ m ∈ changedOf ms, m.module.IsWellNamed ∧
      m.directory = m.module.directoryIn c.stubs.outDir := fun m hm =>
    hsettled.named (List.mem_filter.1 (List.mem_filter.1 hm).1).1
  have hseen := map_runsFor (foreignTypes metatypes ms) h.law hsettled.change.ground hnamed
  have heq := hseen.eq_of_length (by rw [List.length_map, List.length_map, hlength])
  have hpair : (m.module, c.stubs.entriesOf v.tree m.module) ∈
      (c.stubs.runsFor (foreignTypes metatypes ms) (changedOf ms) v).map
        fun r => (r.module, r.entries) := by
    rw [heq]
    exact List.mem_map.2 ⟨m, hqueued, rfl⟩
  obtain ⟨r, hr, he⟩ := List.mem_map.1 hpair
  obtain ⟨hmodule, hentries⟩ := Prod.mk.inj he
  have hsucceeded := hall r hr
  rw [hruns, hafter, ← hsettled.entries hm, ← hmodule]
  rw [hmodule, ← hentries, ← hsucceeded, ← hmodule]
  exact hr

/-- Where the registrar was run the output directory stays plain. -/
theorem IsPlain.change (h : c.IsPlain p d) (hruns : c.runs ≠ []) :
    Change p d (fun _ => True) c.bench.tree c.outcome.2.tree := by
  have hground := h.ground
  have htext : textError? c.stubs.outDir = none := h.outDir ▸ h.text
  unfold runs at hruns
  cases hsettle : c.bench.run (c.stubs.settleAll c.registrations c.files c.stale) with
  | mk result v =>
  rw [hsettle] at hruns
  cases result with
  | error e => exact absurd rfl hruns
  | ok found =>
    have hsettled := of_run_settleAll hground htext h.dots h.named hsettle
    have hrest := change_of_settled h.law htext hsettle hsettled
    rw [← h.outDir]
    exact (hsettled.change.mono fun _ _ => trivial).trans (hrest.mono fun _ _ => trivial)

/-- A call gives a module other entries without a run of the registrar for it that succeeds. -/
structure LeavesBehind (k : QmlModule) (c : Call) : Prop where
  fails : c.outcome.1.toBool = false
  changes : c.entries k ≠ c.former k
  unrun : ∀ r ∈ c.runs, r.module = k → r.succeeded = false

/-- A call leaves the entries of a module and does not run the registrar for it. -/
structure Ignores (k : QmlModule) (c : Call) : Prop where
  entries : c.entries k = c.former k
  unrun : ∀ r ∈ c.runs, r.module ≠ k

/-- **What a call comes to for a module that has entries after it.** -/
theorem IsPlain.step (h : c.IsPlain p d) (hk : k.IsWellNamed) (hne : c.entries k ≠ []) :
    ⟨k, c.entries k, true⟩ ∈ c.runs ∨ c.LeavesBehind k ∨ c.Ignores k := by
  obtain ⟨hsound, -⟩ := h.sound
  by_cases hsame : c.entries k = c.former k
  · refine .inr (.inr ⟨hsame, ?_⟩)
    rintro r hr rfl
    obtain ⟨-, hentries, -, hnew⟩ := hsound r hr
    exact hnew (hentries.trans hsame)
  · by_cases hrun : ∃ r ∈ c.runs, r.module = k ∧ r.succeeded = true
    · obtain ⟨⟨module, entries, succeeded⟩, hr, rfl, rfl⟩ := hrun
      obtain ⟨-, hentries, -⟩ := hsound _ hr
      dsimp only at hentries
      rw [← hentries]
      exact .inl hr
    · have hunrun : ∀ r ∈ c.runs, r.module = k → r.succeeded = false := fun r hr he => by
        cases hs : r.succeeded with
        | false => rfl
        | true => exact absurd ⟨r, hr, he, hs⟩ hrun
      refine .inr (.inl ⟨?_, hsame, hunrun⟩)
      cases hok : c.outcome.1.toBool with
      | false => rfl
      | true => exact absurd ⟨_, h.complete hok hk hne hsame, rfl, rfl⟩ hrun

end Call

/-! ## Histories -/

/-- Calls one after another on an output directory that has no entries first, and of which nothing
else changes the types files. -/
structure IsHistory (p : Path) (d : Place) (calls : List Call) : Prop where
  plain : ∀ c ∈ calls, c.IsPlain p d
  fresh : ∀ c ∈ calls.head?, ∀ k : QmlModule, k.IsWellNamed → c.former k = []
  chained : calls.IsChain fun c c' => ∀ k : QmlModule, k.IsWellNamed → c'.former k = c.entries k

/-- The last run of the registrar for a module. -/
def lastRun? (k : QmlModule) (log : List RegistrarRun) : Option RegistrarRun :=
  (log.filter fun r => decide (r.module = k)).getLast?

variable {log runs : List RegistrarRun} {r : RegistrarRun} {calls : List Call} {c : Call}

theorem lastRun?_append_of_not_mem (h : ∀ r ∈ runs, r.module ≠ k) :
    lastRun? k (log ++ runs) = lastRun? k log := by
  have hnone : (runs.filter fun r => decide (r.module = k)) = [] :=
    List.filter_eq_nil_iff.2 fun r hr => by simpa using h r hr
  unfold lastRun?
  rw [List.filter_append, hnone, List.append_nil]

theorem lastRun?_append_of_mem (log : List RegistrarRun) (hdistinct : (runs.map (·.module)).Nodup) (hr : r ∈ runs)
    (hk : r.module = k) : lastRun? k (log ++ runs) = some r := by
  have hmem : r ∈ runs.filter fun r => decide (r.module = k) :=
    List.mem_filter.2 ⟨hr, by simpa using hk⟩
  unfold lastRun?
  rw [List.filter_append, List.getLast?_append_of_ne_nil _ (List.ne_nil_of_mem hmem)]
  cases hlast : (runs.filter fun r => decide (r.module = k)).getLast? with
  | none => exact absurd (List.getLast?_eq_none_iff.1 hlast) (List.ne_nil_of_mem hmem)
  | some x =>
    obtain ⟨hx, hxk⟩ := List.mem_filter.1 (List.mem_of_getLast? hlast)
    have hsame : x.module = r.module := (of_decide_eq_true hxk).trans hk.symm
    rw [List.inj_on_of_nodup_map hdistinct hx hr hsame]

/-- A history up to the last call but one. -/
theorem IsHistory.init {c' : Call} (h : IsHistory p d (calls ++ [c] ++ [c'])) :
    IsHistory p d (calls ++ [c]) ∧ ∀ k : QmlModule, k.IsWellNamed → c'.former k = c.entries k := by
  obtain ⟨hinit, -, hlast⟩ := List.isChain_append.1 h.chained
  refine ⟨⟨fun x hx => h.plain x (List.mem_append_left _ hx), ?_, hinit⟩, ?_⟩
  · have hfresh := h.fresh
    cases calls <;> exact hfresh
  · exact hlast c (by simp) c' (by simp)

/-- A file that registers a class, and a directory for the stubs. -/
def retryTree : FileTree where
  entries := .ofList [(["a.py"], .file .empty ⟨100, 0⟩ false), (["r"], .file .empty ⟨100, 0⟩ true),
    (["o"], .directory ⟨100, 0⟩)]
  current := []
  clock := ⟨200, 0⟩

/-- The registrar fails for the module of the class. -/
def failingCall : Call :=
  ⟨{ plainStubs with registrar := ⟨⟨"/r"⟩, [], Registrar.scripted (some ("u", 1))⟩ },
    [⟨⟨"u", 1, 0⟩, plainEntry "/a.py"⟩], .ofList [⟨"/a.py"⟩], .ofList [⟨"/a.py"⟩],
    ⟨retryTree, [], []⟩⟩

/-- The same call again, when the registrar works. -/
def retriedCall : Call :=
  { failingCall with stubs := plainStubs, bench := failingCall.outcome.2 }

theorem outcome_retriedCall : retriedCall.outcome.1.toBool = true ∧ retriedCall.runs = [] ∧
    retriedCall.outcome.2.tree.isPresent (plainStubs.typesPath ⟨"u", 1, 0⟩) = true := by
  decide +kernel

/-- A call whose registrar works from the start. -/
def workingCall : Call := { failingCall with stubs := plainStubs }

/-- The first call finds an output directory without anything. -/
theorem isPlain_of_retryTree {c : Call} (hstubs : c.stubs.outDir = ⟨"/o"⟩)
    (hbench : c.bench = failingCall.bench)
    (hregistrations : c.registrations = failingCall.registrations)
    (hlaw : c.stubs.registrar.OnlyWritesOutputs) : c.IsPlain ⟨"/o"⟩ ["o"] := by
  have hsite : Site retryTree ⟨"/o"⟩ ["o"] :=
    .of_entries (by decide) (by decide) (by decide +kernel) (by decide) (by decide +kernel)
  have hundotted : HasUndottedDirectories retryTree ["o"] := .of_entries (by decide +kernel)
  refine ⟨hstubs, ?_, by decide, ?_, ?_, hlaw⟩
  · rw [hbench]
    exact hsite
  · rw [hbench]
    exact hasPlainDots_of_undotted hsite.ground hundotted
  · rw [hregistrations]
    intro r hr
    rw [List.mem_singleton.1 hr]
    exact isWellNamed_u

/-- A directory without a file has no entries. -/
theorem former_of_retryTree {c : Call} (hbench : c.bench = failingCall.bench) (k : QmlModule) :
    c.former k = [] := by
  refine List.eq_nil_iff_forall_not_mem.2 fun e he => ?_
  unfold Call.former at he
  rw [hbench] at he
  obtain ⟨x, hx, hex⟩ := exists_of_mem_entriesOf he
  have hnone : ∀ x ∈ retryTree.entries.entries, entriesIn x.2 = [] := by decide +kernel
  rw [hnone x hx] at hex
  exact absurd hex List.not_mem_nil

theorem outcome_workingCall : workingCall.outcome.1.toBool = true ∧
    workingCall.runs.map (fun r => (r.module, r.succeeded)) = [(⟨"u", 1, 0⟩, true)] := by
  decide +kernel

theorem runs_failingCall : failingCall.runs.map (·.succeeded) = [false] := by decide +kernel

end Stubs

end QmlStubs
