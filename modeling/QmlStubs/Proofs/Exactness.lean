import QmlStubs.Proofs.Survival

/-!
# Dirtiness is exact

`Assessment.seed` and `Assessment.pass` are loops over names in order, and a pass reads marks that
it has put itself. What they come to can be said without either: a module is *changed* when it has
no file or its file has another time, and it is *dirty* when a chain of dependencies leads from it
to a name that is changed or unknown. This file proves that the final states are this and nothing
else.

> **no module is kept that leads to a change, and none is imported again for another reason**
> (`exact_dirtiness`).

Both directions are needed by those who read the states. A clean module may be left alone because
what it depends on is known and clean; a dirty one has a change to blame.
-/

set_option autoImplicit false

namespace QmlStubs

namespace ModuleRecord

variable {r : ModuleRecord} {modified : Option Binary64}

/-- A record is stale when its file is gone or has another time. -/
theorem isStale_eq_true :
    r.isStale modified = true ↔
      modified = none ∨ ∃ time, modified = some time ∧ time.sameValue r.modified = false := by
  cases modified with
  | none => simp [isStale]
  | some time => simp [isStale]

/-- A record is not stale when its file is there and has the time of the record. -/
theorem isStale_eq_false :
    r.isStale modified = false ↔ ∃ time, modified = some time ∧ time.sameValue r.modified = true := by
  cases modified with
  | none => simp [isStale]
  | some time => simp [isStale]

end ModuleRecord

namespace Assessment

open Modules

variable {modules : Modules} {stat : Path → Option Binary64}

/-! ## Changes -/

/-- A change as the snapshot and the files show it: the name is a tombstone, or its record is
stale. -/
theorem ownState_eq_changed {e : ModuleEntry} :
    ownState stat e = .changed ↔ e = none ∨ ∃ r, e = some r ∧ r.isStale (stat r.path) = true := by
  cases e with
  | none => simp [ownState]
  | some r => cases h : r.isStale (stat r.path) <;> simp [ownState, h]

/-- **What ends as changed was changed by itself.** The passes put no such mark, so the cause that
the state names is the module. -/
theorem finalStates_changed_iff {name : String} :
    (finalStates modules stat).find? name = some .changed ↔
      ∃ e, modules.find? name = some e ∧ ownState stat e = .changed := by
  constructor
  · intro h
    obtain ⟨c, hc, -, hsource⟩ := leads_source_of_dirty h (by simp)
    obtain rfl : name = c := by simpa [Dirtiness.causeFor] using hc
    have hknown : modules.contains name = true := by
      rw [← contains_finalStates stat]
      exact SortedMap.contains_of_find? h
    obtain ⟨e, he⟩ := SortedMap.contains_iff.1 hknown
    exact ⟨e, he, hsource e he⟩
  · rintro ⟨e, he, hchanged⟩
    have hdirty : ownState stat e ≠ .clean := by
      rw [hchanged]
      simp
    rw [finalStates_of_ownState he hdirty, hchanged]

/-- A source is a name that ends as changed, or one that the snapshot does not have. -/
theorem isSource_iff {name : String} :
    IsSource modules stat name ↔
      (finalStates modules stat).find? name = some .changed ∨ modules.contains name = false := by
  rw [finalStates_changed_iff]
  cases hfind : modules.find? name with
  | none => simp [IsSource, hfind, SortedMap.contains]
  | some e => simp [IsSource, hfind, SortedMap.contains]

/-! ## Chains -/

/-- **A module is dirty exactly when it leads to a source.** -/
theorem dirty_iff_leads_source {name : String} {s : Dirtiness}
    (h : (finalStates modules stat).find? name = some s) :
    s ≠ .clean ↔ ∃ c, Leads modules name c ∧ IsSource modules stat c := by
  constructor
  · intro hs
    obtain ⟨c, -, hleads, hsource⟩ := leads_source_of_dirty h hs
    exact ⟨c, hleads, hsource⟩
  · -- A clean module leads to modules that are clean by their own files, and a source is none.
    rintro ⟨c, hleads, hsource⟩ rfl
    obtain ⟨e, he, hclean⟩ := settled_clean_iff.1 h c hleads
    rw [hsource e he] at hclean
    simp at hclean

/-- **The final states are exact**, for every snapshot, whatever its graph is like, and for every
list of files.

Each name of the snapshot has a state, and no other name has one. The changed modules are the
tombstones and those whose file is gone or has another time. A module is not clean exactly when some
chain of dependencies, which may be empty, leads from it to a changed name or to one that the
snapshot does not have; so all that a clean module depends on is there and is clean. -/
theorem exact_dirtiness (snapshot : Snapshot) (stat : Path → Option Binary64) (files : List Path) :
    let states := (ofFiles snapshot stat files).states
    (∀ name, states.contains name = snapshot.modules.contains name) ∧
    (∀ name, states.find? name = some .changed ↔
      snapshot.modules.find? name = some none ∨
      ∃ r, snapshot.modules.find? name = some (some r) ∧
        (stat r.path = none ∨
          ∃ time, stat r.path = some time ∧ time.sameValue r.modified = false)) ∧
    (∀ name s, states.find? name = some s →
      (s ≠ .clean ↔ ∃ c, Leads snapshot.modules name c ∧
        (states.find? c = some .changed ∨ snapshot.modules.contains c = false))) ∧
    ∀ name dependency, states.find? name = some .clean →
      Needs snapshot.modules name dependency →
        snapshot.modules.contains dependency = true ∧ states.find? dependency = some .clean := by
  intro states
  have hstates : states = finalStates snapshot.modules stat := states_ofFiles
  rw [hstates]
  refine ⟨contains_finalStates stat, ?_, ?_, ?_⟩
  · intro name
    rw [finalStates_changed_iff]
    constructor
    · rintro ⟨e, he, hchanged⟩
      rcases ownState_eq_changed.1 hchanged with rfl | ⟨r, rfl, hstale⟩
      · exact .inl he
      · exact .inr ⟨r, he, ModuleRecord.isStale_eq_true.1 hstale⟩
    · rintro (hnone | ⟨r, hr, hstale⟩)
      · exact ⟨none, hnone, ownState_eq_changed.2 (.inl rfl)⟩
      · exact ⟨some r, hr,
          ownState_eq_changed.2 (.inr ⟨r, rfl, ModuleRecord.isStale_eq_true.2 hstale⟩)⟩
  · intro name s hs
    rw [dirty_iff_leads_source hs]
    simp only [isSource_iff]
  · intro name dependency hclean hneeds
    have hdependency := finalStates_clean_of_needs hclean hneeds
    obtain ⟨e, he, -⟩ := ownState_of_finalStates_clean hdependency
    exact ⟨SortedMap.contains_of_find? he, hdependency⟩

/-- A record of the time 100. -/
def sampleRecord (path : String) (dependencies : List String) : ModuleEntry :=
  some ⟨.ofNat 100, ⟨path⟩, .ofList dependencies⟩

/-- A circle `a`, `b` that leads to `c`, whose file was touched; a module that imports itself; one
that imports a name nobody knows; and a tombstone. -/
def circularSnapshot : Snapshot := .ofModules <| .ofList
  [("a", sampleRecord "/a.py" ["b"]), ("b", sampleRecord "/b.py" ["a", "c"]),
    ("c", sampleRecord "/c.py" []), ("lone", sampleRecord "/lone.py" ["lone"]),
    ("lost", sampleRecord "/lost.py" ["unknown"]), ("native", none)]

/-- Only `/c.py` has another time than its record. -/
def touchedFiles (p : Path) : Option Binary64 :=
  some (if p.text = "/c.py" then .ofNat 200 else .ofNat 100)

/-- In the circle the change is found from both modules, and the one that imports itself is
clean. -/
theorem exact_dirtiness_of_circle :
    let states := (ofFiles circularSnapshot touchedFiles []).states
    states.find? "a" = some (.via "c") ∧
    (∃ c, Leads circularSnapshot.modules "a" c ∧
      (states.find? c = some .changed ∨ circularSnapshot.modules.contains c = false)) ∧
    (∃ c, Leads circularSnapshot.modules "lost" c ∧
      (states.find? c = some .changed ∨ circularSnapshot.modules.contains c = false)) ∧
    Needs circularSnapshot.modules "lone" "lone" ∧ states.find? "lone" = some .clean ∧
    circularSnapshot.modules.contains "lone" = true := by
  intro states
  obtain ⟨-, -, hdirty, hclean⟩ := exact_dirtiness circularSnapshot touchedFiles []
  have ha : states.find? "a" = some (.via "c") := by decide +kernel
  have hlost : states.find? "lost" = some (.via "unknown") := by decide +kernel
  have hlone : states.find? "lone" = some .clean := by decide +kernel
  have hself : Needs circularSnapshot.modules "lone" "lone" :=
    ⟨⟨.ofNat 100, ⟨"/lone.py"⟩, .ofList ["lone"]⟩, by decide +kernel, by decide +kernel⟩
  exact ⟨ha, (hdirty "a" _ ha).1 (by simp), (hdirty "lost" _ hlost).1 (by simp), hself, hlone,
    (hclean "lone" "lone" hlone hself).1⟩

end Assessment

end QmlStubs
