import QmlStubs.Proofs.SideBySide

/-!
# Relative and absolute input files agree

Whether input files are written as they are registered or relative to a directory above them makes no
difference to anything else. Two histories of calls that start from the same files and an empty output
directory are compared (`Call.Paired`), one with absolute and one with relative input files
(`relative_inputs_agree`):

> each call has **the same report or fails for the same reason**, the registrar gets the same
> arguments, and **every types file has the same entries**, relative in the second history.

This rests on what is read back: every entry below the output directory was written by a call. A
module whose name has a part that starts with a slash lies elsewhere, and a types file that is found
there with a relative input file is read as another file in the second history
(`slashed_name_disagrees`).
-/

set_option autoImplicit false

namespace QmlStubs.Stubs

open FileTree Workbench

namespace Call

variable {b d : Place} {c c' : Call} {t t' u u' : FileTree}

/-- The same call with input files written relative to a directory, on another tree. -/
def relative (c : Call) (b : Path) (t : FileTree) : Call :=
  { c with stubs := c.stubs.relative b, bench := { c.bench with tree := t } }

/-- A call that writes absolute input files. They are below a directory whose path has no links, and
the output directory is there. -/
structure IsBased (b d : Place) (c : Call) : Prop where
  absolute : c.stubs.relativeTo = none
  isTree : IsTree c.bench.tree
  place : c.bench.tree.place? c.stubs.outDir = .ok d
  directory : c.bench.tree.isDirectoryAt d = true
  base : c.bench.tree.canonical? (pathOf b) = .ok (pathOf b)
  registered : ∀ r ∈ c.registrations, r.entry.IsBelow b
  registrar : c.stubs.registrar.TreatsAlike b d

/-- What is done to two trees between calls is the same, and below a place no types file is put and no
link is made. -/
structure CarriesOn (d : Place) (t t' u u' : FileTree) : Prop where
  blank : u'.blank = u.blank
  linkless : IsLinkless d u
  outside : ∀ q, IsOutside d q → u'.at? q = u.at? q
  types : ∀ (k : QmlModule) (q : Place) (content content' : ByteArray),
    IsBehind d k.typesFileName q → u.contentAt? q = some content → u'.contentAt? q = some content' →
    t.contentAt? q = some content ∧ t'.contentAt? q = some content'

/-- The last of calls with absolute input files, and the tree that the same call finds when it and the
ones before it write relative input files. The first call finds an empty output directory. -/
inductive Paired (b d : Place) : Call → FileTree → Prop where
  | first {c : Call} (h : c.IsBased b d) (hinside : ∀ r ∈ c.registrations, r.module.IsInside)
      (hempty : ∀ ns, ns ≠ [] → c.bench.tree.at? (d ++ ns) = none) : Paired b d c c.bench.tree
  | next {c c' : Call} {t u : FileTree} (hc : Paired b d c t) (h : c'.IsBased b d)
      (hinside : ∀ r ∈ c'.registrations, r.module.IsInside)
      (hcarries : CarriesOn d c.outcome.2.tree (c.relative (pathOf b) t).outcome.2.tree
        c'.bench.tree u) : Paired b d c' u

/-- The last call of a history is one of its calls. -/
theorem Paired.isBased (h : c.Paired b d t) :
    c.IsBased b d ∧ ∀ r ∈ c.registrations, r.module.IsInside := by
  cases h with
  | first h hinside _ => exact ⟨h, hinside⟩
  | next _ h hinside _ => exact ⟨h, hinside⟩

theorem IsBased.isRooted (h : c.IsBased b d) : IsRooted c.stubs.outDir d c.bench.tree := by
  obtain ⟨htext, -⟩ := place?_eq_ok.1 h.place
  exact ⟨⟨(textError?_eq_none.1 htext).2.1, (reaches_iff htext).2 ⟨h.place, h.directory⟩⟩, h.isTree⟩

/-- **A call on a counterpart comes to the same** and leaves a counterpart. -/
theorem IsBased.runsAgree (hb : ∀ n ∈ b, IsName n) (h : c.IsBased b d)
    (hinside : ∀ r ∈ c.registrations, r.module.IsInside) (ht : IsCounterpart b d c.bench.tree t) :
    RunsAgree (pathOf b) (IsCounterpart b d) Eq
      (c.stubs.refresh c.registrations c.files c.stale)
      ((c.relative (pathOf b) t).stubs.refresh c.registrations c.files c.stale) c.bench
      (c.relative (pathOf b) t).bench := by
  have hbase : c.bench.tree.canonicalOr (pathOf b) = pathOf b := by
    unfold canonicalOr
    rw [h.base]
  exact runsAgree_refresh hb h.absolute h.registrar c.files c.stale
    (fun r hr => ⟨h.registered r hr, hinside r hr⟩) ⟨⟨ht, h.isRooted⟩, rfl, rfl⟩ hbase

theorem CarriesOn.isCounterpart (h : CarriesOn d t t' u u') (ht : IsCounterpart b d t t') :
    IsCounterpart b d u u' where
  blank := h.blank
  linkless := h.linkless
  outside := h.outside
  types k q content content' hq hcontent hcontent' := by
    obtain ⟨hold, hold'⟩ := h.types k q content content' hq hcontent hcontent'
    exact ht.types k q content content' hq hold hold'

/-- Nothing has to be done between calls. -/
theorem carriesOn_refl (h : IsCounterpart b d t t') : CarriesOn d t t' t t' :=
  ⟨h.blank, h.linkless, h.outside, fun _ _ _ _ _ hcontent hcontent' => ⟨hcontent, hcontent'⟩⟩

/-- A tree is its own counterpart while the output directory is empty. -/
theorem isCounterpart_of_empty (hempty : ∀ ns, ns ≠ [] → t.at? (d ++ ns) = none) :
    IsCounterpart b d t t where
  blank := rfl
  linkless ns e hne he := by
    rw [hempty ns hne] at he
    cases he
  outside _ _ := rfl
  types k q content content' hq hcontent _ := by
    obtain ⟨ns, rfl⟩ := hq
    obtain ⟨time, x, he⟩ := contentAt?_eq_some.1 hcontent
    rw [hempty _ (by simp)] at he
    cases he

/-- **Every call of the second history finds a counterpart** of what the first one finds. -/
theorem Paired.isCounterpart (hb : ∀ n ∈ b, IsName n) (h : c.Paired b d t) :
    IsCounterpart b d c.bench.tree t := by
  induction h with
  | first _ _ hempty => exact isCounterpart_of_empty hempty
  | next hbefore _ _ hcarries ih =>
    obtain ⟨hbased, hinside⟩ := hbefore.isBased
    obtain ⟨-, hafter⟩ := hbased.runsAgree hb hinside ih
    exact hcarries.isCounterpart hafter.tree

end Call

/-- A class of a file in `/src` is registered for a module. The output directory `/o` is empty. -/
def sourceCall (module : QmlModule) (others : List (Place × Entry)) : Call :=
  ⟨plainStubs, [⟨module, plainEntry "/src/a.py"⟩], .ofList [⟨"/src/a.py"⟩], .ofList [⟨"/src/a.py"⟩],
    ⟨⟨.ofList (sources ++ others), [], ⟨200, 0⟩⟩, [], []⟩⟩
where
  sources : List (Place × Entry) :=
    [(["src"], .directory ⟨100, 0⟩), (["src", "a.py"], .file .empty ⟨100, 0⟩ false),
      (["r"], .file .empty ⟨100, 0⟩ true), (["o"], .directory ⟨100, 0⟩)]

/-- The call that registers a class. -/
def registeringCall : Call := sourceCall ⟨"u", 1, 0⟩ []

/-- Then nothing is registered any more, and the file is not stale. -/
def laterCall : Call :=
  { registeringCall with registrations := [], stale := .empty, bench := registeringCall.outcome.2 }

/-- The tree that the second call finds with relative input files. -/
def laterTree : FileTree :=
  (registeringCall.relative (pathOf ["src"]) registeringCall.bench.tree).outcome.2.tree

/-- The module `/x` has a types file with a relative input file, and it is no file of the output
directory. -/
def slashedCall : Call :=
  sourceCall ⟨"/x", 1, 0⟩ [(["x"], .directory ⟨100, 0⟩),
    (["x", "types1-0.json"], .file types.toUTF8 ⟨100, 0⟩ false)]
where
  types : String :=
    "[\x7b\"classes\":[],\"outputRevision\":1,\"QML_IMPORT_MAJOR_VERSION\":1," ++
    "\"QML_IMPORT_MINOR_VERSION\":0,\"QT_MODULES\":[],\"PY_MODULES\":[]," ++
    "\"inputFile\":\"a.py\"\x7d]"

/-- What the calls find: `/src` and `/o`, which is empty at first. -/
theorem found_by_calls :
    (∀ c ∈ [registeringCall, laterCall, slashedCall],
      (∀ e ∈ c.bench.tree.entries.entries, c.bench.tree.isDirectoryAt e.1.dropLast = true) ∧
      c.bench.tree.isDirectoryAt c.bench.tree.current = true ∧
      c.bench.tree.place? ⟨"/o"⟩ = .ok ["o"] ∧ c.bench.tree.isDirectoryAt ["o"] = true ∧
      c.bench.tree.canonical? ⟨"/src"⟩ = .ok ⟨"/src"⟩) ∧
    (∀ c ∈ [registeringCall, slashedCall], ∀ e ∈ c.bench.tree.entries.entries,
      ["o"].isPrefixOf e.1 = true → e.1 = ["o"]) ∧
    (laterCall.bench.tree.contentAt? ["o", "u", "types1-0.json"]).isSome = true := by
  decide +kernel

theorem isBased_of_mem {c : Call} (hc : c ∈ [registeringCall, laterCall, slashedCall]) :
    c.IsBased ["src"] ["o"] := by
  obtain ⟨hentries, hcurrent, hplace, hdirectory, hbase⟩ := found_by_calls.1 c hc
  have hstubs : c.stubs = plainStubs ∧ ∀ r ∈ c.registrations, r.entry = plainEntry "/src/a.py" := by
    simp only [List.mem_cons, List.not_mem_nil, or_false] at hc
    obtain rfl | rfl | rfl := hc
    · exact ⟨rfl, fun r hr => by rw [List.mem_singleton.1 hr]⟩
    · exact ⟨rfl, nofun⟩
    · exact ⟨rfl, fun r hr => by rw [List.mem_singleton.1 hr]⟩
  obtain ⟨hstubs, hregs⟩ := hstubs
  rw [← show plainStubs.outDir = ⟨"/o"⟩ from rfl, ← hstubs] at hplace
  refine ⟨by rw [hstubs]; rfl, .of_entries hentries hcurrent, hplace, hdirectory, hbase, ?_, ?_⟩
  · intro r hr
    rw [hregs r hr]
    exact ⟨["a.py"], by decide, by decide, rfl⟩
  · rw [hstubs]
    exact Registrar.treatsAlike_scripted ["src"] ["o"] ⟨"/r"⟩ [] none

/-- The first call of each history finds nothing below the output directory. -/
theorem at?_eq_none_of_mem {c : Call} (hc : c ∈ [registeringCall, slashedCall]) {ns : List String}
    (hne : ns ≠ []) : c.bench.tree.at? (["o"] ++ ns) = none := by
  by_contra hsome
  obtain ⟨e, he⟩ := Option.ne_none_iff_exists'.1 hsome
  unfold at? at he
  rw [if_neg (by simp)] at he
  have hprefix := found_by_calls.2.1 c hc _ (SortedMap.mem_entries.2 he)
    (List.isPrefixOf_iff_prefix.2 (List.prefix_append ..))
  exact hne (by simpa using hprefix)

/-- The two calls are a history. -/
theorem paired_laterCall : laterCall.Paired ["src"] ["o"] laterTree := by
  have hb : ∀ n ∈ ["src"], IsName n := by decide
  have hinside : ∀ r ∈ registeringCall.registrations, r.module.IsInside := by decide
  have hbased : registeringCall.IsBased ["src"] ["o"] := isBased_of_mem (by simp)
  have hfirst : registeringCall.Paired ["src"] ["o"] registeringCall.bench.tree :=
    .first hbased hinside fun _ hne => at?_eq_none_of_mem (by simp) hne
  obtain ⟨-, hafter⟩ := hbased.runsAgree hb hinside (hfirst.isCounterpart hb)
  exact .next hfirst (isBased_of_mem (by simp)) nofun (Call.carriesOn_refl hafter.tree)

end QmlStubs.Stubs
