import QmlStubs.Proofs.Exactness

/-!
# The modules of a file

A link gives a file two names, and each name has a record of its own, with what was seen to be loaded
under it. So several modules of a snapshot can be for one file. The index that an assessment looks
files up in has one of them, the last one in the order of names (`nameOfFile_eq_some`), and two things
depend on it.

- **The surviving entries** are the clean ones that the last module of a current file leads to
  (`surviving_entries`). Reaching goes through dirty modules as well, but what is clean has clean
  dependencies only, so the surviving entries are closed.
- **A current file is imported again** when its last module is dirty or when it has none
  (`exists_dirtyFile_iff`). The backing files of dirty modules are those of all dirty modules,
  though. A file whose last module is clean and that has another, dirty one is stale and is not
  imported again (`stale_without_import_iff`).
-/

set_option autoImplicit false

namespace QmlStubs

namespace PathSet

/-! ## Sets of paths -/

theorem has_ofList {l : List Path} {p : Path} :
    (ofList l).has p = true ↔ ∃ q ∈ l, q.same p = true := by
  unfold has ofList
  rw [SortedMap.contains_ofList]
  constructor
  · rintro ⟨e, he, hcs⟩
    obtain ⟨q, hq, rfl⟩ := List.mem_map.1 he
    exact ⟨q, hq, beq_iff_eq.2 hcs⟩
  · rintro ⟨q, hq, hsame⟩
    exact ⟨(q.components, q), List.mem_map.2 ⟨q, hq, rfl⟩, eq_of_beq hsame⟩

/-- Every path is where it is looked for. -/
def IsKeyed (s : PathSet) : Prop := ∀ cs p, s.find? cs = some p → p.components = cs

theorem isKeyed_empty : IsKeyed .empty := nofun

theorem isKeyed_ofList (l : List Path) : (ofList l).IsKeyed := by
  intro cs p hp
  obtain ⟨q, -, he⟩ := List.mem_map.1 (SortedMap.mem_of_find?_ofList hp)
  obtain ⟨rfl, rfl⟩ := Prod.mk.inj he
  rfl

/-- What is there after a path was put in was there before, or is that path. -/
theorem find?_add {s : PathSet} {p q : Path} {cs : List Component}
    (h : (s.add p).find? cs = some q) : s.find? cs = some q ∨ (q = p ∧ q.components = cs) := by
  unfold PathSet.add SortedMap.insertNew at h
  split at h
  next => exact .inl h
  next =>
    rw [SortedMap.find?_insert] at h
    split at h
    next hcs =>
      obtain rfl : p = q := Option.some.inj h
      exact .inr ⟨rfl, hcs.symm⟩
    next => exact .inl h

/-- Putting a path in changes what is there by that path alone. -/
theorem contains_add {s : PathSet} {p : Path} {cs : List Component} :
    (s.add p).contains cs = true ↔ cs = p.components ∨ s.contains cs = true := by
  unfold add SortedMap.insertNew
  split
  next h =>
    refine ⟨.inr, ?_⟩
    rintro (rfl | hc)
    · exact h
    · exact hc
  next => exact SortedMap.contains_insert

/-- A path is in the set when one of the listed paths is the same. -/
theorem IsKeyed.has_iff {s : PathSet} (h : s.IsKeyed) {p : Path} :
    s.has p = true ↔ ∃ q ∈ s.toList, q.same p = true := by
  unfold has toList
  rw [SortedMap.contains_iff]
  constructor
  · rintro ⟨q, hq⟩
    exact ⟨q, SortedMap.mem_values.2 ⟨_, hq⟩, beq_iff_eq.2 (h _ q hq)⟩
  · rintro ⟨q, hq, hsame⟩
    obtain ⟨cs, hcs⟩ := SortedMap.mem_values.1 hq
    refine ⟨q, ?_⟩
    rw [← eq_of_beq hsame, h cs q hcs]
    exact hcs

end PathSet

namespace Assessment

open Modules

variable {modules : Modules} {snapshot : Snapshot} {stat : Path → Option Binary64}
  {files : List Path} {f : Path} {name : String}

/-! ## The index -/

/-- A module whose record is for a file. -/
def IsRecordedFor (modules : Modules) (f : Path) (name : String) : Prop :=
  ∃ record, modules.find? name = some (some record) ∧ record.path.same f = true

/-- A file that some record is for. -/
def IsKnown (modules : Modules) (f : Path) : Prop :=
  ∃ name record, modules.find? name = some (some record) ∧ record.path.same f = true

/-- The last of the modules whose records are for a file. -/
def IsLastFor (modules : Modules) (f : Path) (name : String) : Prop :=
  IsRecordedFor modules f name ∧ ∀ other, IsRecordedFor modules f other → other ≤ name

/-- The index entries: the path of each record, and its name. -/
def indexEntries (modules : Modules) : List (List Component × String) :=
  modules.entries.filterMap fun e => e.2.map fun r => (r.path.components, e.1)

theorem nameOfFile_eq (modules : Modules) (f : Path) :
    nameOfFile modules f = SortedMap.lastValue? f.components (indexEntries modules) :=
  SortedMap.find?_ofList _ _

theorem mem_indexEntries {modules : Modules} {cs : List Component} {name : String} :
    (cs, name) ∈ indexEntries modules ↔
      ∃ record, modules.find? name = some (some record) ∧ record.path.components = cs := by
  unfold indexEntries
  rw [List.mem_filterMap]
  constructor
  · rintro ⟨⟨n, e⟩, he, hmap⟩
    obtain ⟨record, hrecord, heq⟩ := Option.map_eq_some_iff.1 hmap
    obtain ⟨rfl, rfl⟩ := Prod.mk.inj heq
    obtain rfl : e = some record := hrecord
    exact ⟨record, SortedMap.mem_entries.1 he, rfl⟩
  · rintro ⟨record, hrecord, rfl⟩
    exact ⟨(name, some record), SortedMap.mem_entries.2 hrecord, rfl⟩

theorem mem_indexEntries_file :
    (f.components, name) ∈ indexEntries modules ↔ IsRecordedFor modules f name := by
  rw [mem_indexEntries]
  unfold IsRecordedFor Path.same
  simp

theorem lt_of_compare {a b : String} (h : compare a b = .lt) : a < b := by
  have h : compareOfLessAndEq a b = .lt := h
  exact compareOfLessAndEq_eq_lt.1 h

/-- The index entries are in the order of their names. -/
theorem indexEntries_increasing (modules : Modules) :
    (indexEntries modules).Pairwise fun a b => a.2 < b.2 := by
  unfold indexEntries
  rw [List.pairwise_filterMap]
  apply modules.increasing.imp
  intro a b hab x hx y hy
  obtain ⟨_, -, rfl⟩ := Option.map_eq_some_iff.1 hx
  obtain ⟨_, -, rfl⟩ := Option.map_eq_some_iff.1 hy
  exact lt_of_compare hab

/-- Where the values increase, the last one under a key is the greatest one. -/
theorem le_of_lastValue? {α : Type} [DecidableEq α] {k : α} {v w : String}
    {l : List (α × String)} (hl : l.Pairwise fun a b => a.2 < b.2)
    (hv : SortedMap.lastValue? k l = some v) (hw : (k, w) ∈ l) : w ≤ v := by
  induction l with
  | nil => exact absurd hw List.not_mem_nil
  | cons e l ih =>
    obtain ⟨he, hl⟩ := List.pairwise_cons.1 hl
    rw [SortedMap.lastValue?_cons] at hv
    cases hlast : SortedMap.lastValue? k l with
    | some u =>
      rw [hlast, Option.some_or, Option.some.injEq] at hv
      subst hv
      rcases List.mem_cons.1 hw with rfl | hw
      · exact Std.le_of_lt (he _ (SortedMap.lastValue?_eq_some hlast))
      · exact ih hl hlast hw
    | none =>
      -- Nothing behind the first entry is under the key.
      rw [hlast, Option.none_or] at hv
      rcases List.mem_cons.1 hw with rfl | hw
      · rw [if_pos rfl, Option.some.injEq] at hv
        exact hv ▸ String.le_refl w
      · exact absurd rfl (SortedMap.lastValue?_eq_none.1 hlast _ hw)

theorem isRecordedFor_of_nameOfFile (h : nameOfFile modules f = some name) :
    IsRecordedFor modules f name := by
  rw [nameOfFile_eq] at h
  exact mem_indexEntries_file.1 (SortedMap.lastValue?_eq_some h)

theorem contains_of_nameOfFile {modules : Modules} {f : Path} {name : String}
    (h : nameOfFile modules f = some name) : modules.contains name = true := by
  obtain ⟨record, hrecord, -⟩ := isRecordedFor_of_nameOfFile h
  exact SortedMap.contains_of_find? hrecord

/-- A file is in the index exactly when some record is for it. -/
theorem exists_nameOfFile_iff {modules : Modules} {f : Path} :
    (∃ name, nameOfFile modules f = some name) ↔ IsKnown modules f := by
  constructor
  · rintro ⟨name, hname⟩
    exact ⟨name, isRecordedFor_of_nameOfFile hname⟩
  · rintro ⟨name, hname⟩
    rw [← Option.isSome_iff_exists, ← Option.ne_none_iff_isSome, nameOfFile_eq, Ne,
      SortedMap.lastValue?_eq_none]
    intro hall
    exact hall _ (mem_indexEntries_file.2 hname) rfl

/-- **The index has the last module of each file.** -/
theorem nameOfFile_eq_some : nameOfFile modules f = some name ↔ IsLastFor modules f name := by
  have hgreatest : ∀ {last other : String}, nameOfFile modules f = some last →
      IsRecordedFor modules f other → other ≤ last := by
    intro last other hlast hother
    rw [nameOfFile_eq] at hlast
    exact le_of_lastValue? (indexEntries_increasing modules) hlast (mem_indexEntries_file.2 hother)
  constructor
  · intro h
    exact ⟨isRecordedFor_of_nameOfFile h, fun other => hgreatest h⟩
  · rintro ⟨hname, hall⟩
    obtain ⟨last, hlast⟩ := exists_nameOfFile_iff.2 ⟨name, hname⟩
    have hle : last ≤ name := hall last (isRecordedFor_of_nameOfFile hlast)
    rw [hlast, String.le_antisymm hle (hgreatest hlast hname)]

/-! ## What survives -/

/-- **The surviving entries**, for every snapshot, every look at the files and every list of them.

They are the clean entries that the last module of a current file leads to, over dependencies of
clean and dirty records alike. None of them is a tombstone or is stale, and what a surviving record
depends on survives. -/
theorem surviving_entries (snapshot : Snapshot) (stat : Path → Option Binary64)
    (files : List Path) :
    let a := ofFiles snapshot stat files
    (∀ name e, a.surviving.find? name = some e ↔
      snapshot.modules.find? name = some e ∧ a.states.find? name = some .clean ∧
        ∃ f ∈ files, ∃ root, IsLastFor snapshot.modules f root ∧
          Leads snapshot.modules root name) ∧
    (∀ name e, a.surviving.find? name = some e → ∃ r time, e = some r ∧
      stat r.path = some time ∧ time.sameValue r.modified = true) ∧
    ∀ name r, a.surviving.find? name = some (some r) → ∀ dependency ∈ r.dependencies.toList,
      ∃ r', a.surviving.find? dependency = some (some r') := by
  intro a
  refine ⟨?_, ?_, ?_⟩
  · intro name e
    rw [show a.states = finalStates snapshot.modules stat from states_ofFiles]
    simp only [← nameOfFile_eq_some]
    exact find?_surviving
  · intro name e he
    obtain ⟨r, rfl, hfresh⟩ := fresh_surviving he
    obtain ⟨time, htime, hsame⟩ := ModuleRecord.isStale_eq_false.1 hfresh
    exact ⟨r, time, rfl, htime, hsame⟩
  · intro name r hr dependency hdependency
    have hneeds : Needs a.surviving name dependency := ⟨r, hr, hdependency⟩
    obtain ⟨e, he⟩ := SortedMap.contains_iff.1 (closed_surviving name dependency hneeds)
    obtain ⟨r', rfl, -⟩ := fresh_surviving he
    exact ⟨r', he⟩

/-- A file with two names, of which the first one depends on a tombstone; and a file that was touched,
from which a library is reached. -/
def sharedSnapshot : Snapshot := .ofModules <| .ofList
  [("a", sampleRecord "/x.py" ["native"]), ("b", sampleRecord "/x.py" []), ("native", none),
    ("c", sampleRecord "/c.py" ["lib"]), ("lib", sampleRecord "/lib.py" ["base"]),
    ("base", sampleRecord "/base.py" [])]

/-- Both current files. -/
def sharedFiles : List Path := [⟨"/x.py"⟩, ⟨"/c.py"⟩]

/-- The library survives, though only a dirty module leads to it, and so does what it needs. -/
theorem surviving_entries_of_shared :
    let a := ofFiles sharedSnapshot touchedFiles sharedFiles
    a.states.find? "c" = some .changed ∧ ∃ r time, a.surviving.find? "lib" = some (some r) ∧
      touchedFiles r.path = some time ∧ time.sameValue r.modified = true ∧
      "base" ∈ r.dependencies.toList ∧ ∃ r', a.surviving.find? "base" = some (some r') := by
  intro a
  obtain ⟨hentries, hfresh, hclosed⟩ := surviving_entries sharedSnapshot touchedFiles sharedFiles
  have hchanged : a.states.find? "c" = some .changed := by decide +kernel
  have hclean : a.states.find? "lib" = some .clean := by decide +kernel
  have hstored : sharedSnapshot.modules.find? "lib" = some (sampleRecord "/lib.py" ["base"]) := by
    decide +kernel
  have hlast : IsLastFor sharedSnapshot.modules ⟨"/c.py"⟩ "c" :=
    nameOfFile_eq_some.1 (by decide +kernel)
  have hneeds : Needs sharedSnapshot.modules "c" "lib" :=
    ⟨⟨.ofNat 100, ⟨"/c.py"⟩, .ofList ["lib"]⟩, by decide +kernel, by decide +kernel⟩
  have hsurvives := (hentries "lib" _).2
    ⟨hstored, hclean, ⟨"/c.py"⟩, by decide, "c", hlast, .single hneeds⟩
  have hbase : ∀ r, sampleRecord "/lib.py" ["base"] = some r → "base" ∈ r.dependencies.toList := by
    intro r hr
    rw [← Option.some.inj hr]
    decide +kernel
  obtain ⟨r, time, hr, htime, hsame⟩ := hfresh "lib" _ hsurvives
  have hlib : a.surviving.find? "lib" = some (some r) := hr ▸ hsurvives
  exact ⟨hchanged, r, time, hlib, htime, hsame, hbase r hr,
    hclosed "lib" r hlib "base" (hbase r hr)⟩

/-! ## What is imported again -/

/-- A state that is not clean gives a reason. -/
theorem reasonFor?_eq_none {states : States}
    (hknown : ∀ name, states.contains name = modules.contains name) :
    reasonFor? (moduleOfFile modules) states f = none ↔
      ∃ name, IsLastFor modules f name ∧ states.find? name = some .clean := by
  simp only [← nameOfFile_eq_some]
  unfold reasonFor?
  cases hname : nameOfFile modules f with
  | none =>
    have hfind : (moduleOfFile modules).find? f.components = none := hname
    simp [hfind]
  | some name =>
    have hfind : (moduleOfFile modules).find? f.components = some name := hname
    have hstate := contains_of_nameOfFile hname
    rw [← hknown] at hstate
    obtain ⟨state, hstate⟩ := SortedMap.contains_iff.1 hstate
    rw [hfind]
    cases state <;> simp [hstate]

/-- **A current file is left alone exactly when its last module is clean.** -/
theorem exists_dirtyFile_iff (hf : f ∈ files) :
    (∃ d ∈ (ofFiles snapshot stat files).dirtyFiles, d.path = f) ↔
      ∀ name, IsLastFor snapshot.modules f name →
        (finalStates snapshot.modules stat).find? name ≠ some .clean := by
  have hdirty : (ofFiles snapshot stat files).dirtyFiles = files.filterMap fun f =>
      (reasonFor? (moduleOfFile snapshot.modules) (finalStates snapshot.modules stat) f).map
        fun r => ⟨f, r⟩ := rfl
  have hreason : (∃ d ∈ (ofFiles snapshot stat files).dirtyFiles, d.path = f) ↔
      reasonFor? (moduleOfFile snapshot.modules) (finalStates snapshot.modules stat) f ≠ none := by
    rw [hdirty, Option.ne_none_iff_exists']
    constructor
    · rintro ⟨d, hd, rfl⟩
      obtain ⟨g, -, hmap⟩ := List.mem_filterMap.1 hd
      obtain ⟨reason, hreason, rfl⟩ := Option.map_eq_some_iff.1 hmap
      exact ⟨reason, hreason⟩
    · rintro ⟨reason, hreason⟩
      exact ⟨⟨f, reason⟩, List.mem_filterMap.2 ⟨f, hf, congrArg (Option.map _) hreason⟩, rfl⟩
  rw [hreason, Ne, reasonFor?_eq_none (contains_finalStates stat)]
  simp

/-- The stale backing files are those of all modules that are not clean. -/
theorem has_dirtyBacking : (ofFiles snapshot stat files).dirtyBacking.has f = true ↔
    ∃ name, IsRecordedFor snapshot.modules f name ∧
      (finalStates snapshot.modules stat).find? name ≠ some .clean := by
  have hbacking : (ofFiles snapshot stat files).dirtyBacking =
      .ofList (snapshot.modules.entries.filterMap fun e =>
        if isCleanAt (finalStates snapshot.modules stat) e.1 then none
        else e.2.map (·.path)) := rfl
  rw [hbacking, PathSet.has_ofList]
  constructor
  · rintro ⟨q, hq, hsame⟩
    obtain ⟨⟨name, e⟩, he, hmap⟩ := List.mem_filterMap.1 hq
    split at hmap
    next => exact absurd hmap (by simp)
    next hdirty =>
      obtain ⟨r, rfl, rfl⟩ := Option.map_eq_some_iff.1 hmap
      exact ⟨name, ⟨r, SortedMap.mem_entries.1 he, hsame⟩, fun h => hdirty (isCleanAt_iff.2 h)⟩
  · rintro ⟨name, ⟨r, hr, hsame⟩, hdirty⟩
    refine ⟨r.path, List.mem_filterMap.2 ⟨(name, some r), SortedMap.mem_entries.2 hr, ?_⟩, hsame⟩
    rw [if_neg fun h => hdirty (isCleanAt_iff.1 h)]
    rfl

/-- **A current file is stale and is not imported again** exactly when its last module is clean and
another one is dirty. -/
theorem stale_without_import_iff (hf : f ∈ files) :
    (ofFiles snapshot stat files).dirtyBacking.has f = true ∧
        (¬ ∃ d ∈ (ofFiles snapshot stat files).dirtyFiles, d.path = f) ↔
      ∃ last other, IsLastFor snapshot.modules f last ∧
        (finalStates snapshot.modules stat).find? last = some .clean ∧
        IsRecordedFor snapshot.modules f other ∧
        (finalStates snapshot.modules stat).find? other ≠ some .clean := by
  rw [has_dirtyBacking, exists_dirtyFile_iff hf]
  constructor
  · rintro ⟨⟨other, hother, hdirty⟩, hnone⟩
    push Not at hnone
    obtain ⟨last, hlast, hclean⟩ := hnone
    exact ⟨last, other, hlast, hclean, hother, hdirty⟩
  · rintro ⟨last, other, hlast, hclean, hother, hdirty⟩
    exact ⟨⟨other, hother, hdirty⟩, fun hall => hall last hlast hclean⟩

/-- The first name of the shared file is dirty because of the tombstone; the file is not imported. -/
example : (ofFiles sharedSnapshot touchedFiles sharedFiles).dirtyBacking.has ⟨"/x.py"⟩ = true ∧
    (ofFiles sharedSnapshot touchedFiles sharedFiles).dirtyFiles = [⟨⟨"/c.py"⟩, .changed⟩] := by
  decide +kernel

end Assessment

end QmlStubs
