import Mathlib.Data.Set.Finite.Lattice
import Mathlib.Data.Set.Finite.List
import Mathlib.Logic.Function.Iterate
import Mathlib.Order.Lattice.Nat
import QmlStubs.Proofs.RootCauses

/-!
# How many passes are needed

A pass goes over the modules in name order and sees the marks that it has put itself. In a lucky
order one pass carries a change along a whole chain of dependencies, and in an unlucky one each
pass carries it one step. It cannot be worse than that, with circles in the graph or without:

> **the passes are at most one more than the longest of the shortest ways from a module that is
> dirty because of something else to a root** (`passes_bounded`).

After `n` passes all modules that are `n` dependencies or fewer away from a root are dirty
(`IsDirtyWithin.pass`), so the pass after that for the largest distance finds nothing to mark
(`passes_le_of_fixed`). The bound by the number of marked modules is a count: each pass but the last
takes a clean module away (`passes_add_cleanNames_le`).
-/

set_option autoImplicit false

namespace QmlStubs

/-! ## Distances -/

/-- A chain of so many dependencies from one name to another one. -/
inductive Modules.Chain (modules : Modules) : Nat → String → String → Prop where
  | nil (a : String) : Chain modules 0 a a
  | cons {n : Nat} {a b c : String} (h : modules.Needs a b) (rest : Chain modules n b c) :
      Chain modules (n + 1) a c

/-- What is reached is reached over some number of dependencies. -/
theorem Modules.exists_chain_iff {modules : Modules} {a c : String} :
    (∃ n, Chain modules n a c) ↔ Leads modules a c := by
  constructor
  · rintro ⟨n, h⟩
    induction h with
    | nil => exact .refl
    | cons hneeds _ ih => exact .head hneeds ih
  · intro h
    induction h using Relation.ReflTransGen.head_induction_on with
    | refl => exact ⟨0, .nil c⟩
    | head hneeds _ ih =>
      obtain ⟨n, hn⟩ := ih
      exact ⟨n + 1, .cons hneeds hn⟩

namespace Assessment

open Modules

variable {modules : Modules} {stat : Path → Option Binary64} {states : States} {name : String}

/-- The length of a shortest chain from a module to a root. -/
def IsDistance (modules : Modules) (states : States) (name : String) (n : Nat) : Prop :=
  IsLeast {k | ∃ root, Chain modules k name root ∧ IsRoot modules states root} n

/-- The largest distance of a module that is dirty because of something else, 0 if there is none. -/
def IsDepth (modules : Modules) (states : States) (depth : Nat) : Prop :=
  IsGreatest {n | n = 0 ∨
    ∃ name cause, states.find? name = some (.via cause) ∧ IsDistance modules states name n} depth

/-- Whether a module is dirty because of something else. -/
def isViaAt (states : States) (name : String) : Bool :=
  match states.find? name with
  | some (.via _) => true
  | _ => false

/-- The names of the modules that are dirty because of something else. -/
def viaNames (modules : Modules) (states : States) : List String :=
  modules.keys.filter (isViaAt states)

theorem isViaAt_iff :
    isViaAt states name = true ↔ ∃ cause, states.find? name = some (.via cause) := by
  unfold isViaAt
  split
  next cause h => exact ⟨fun _ => ⟨cause, h⟩, fun _ => rfl⟩
  next h => exact ⟨fun hf => absurd hf (by simp), fun ⟨cause, hc⟩ => absurd hc (h cause)⟩

/-- The roots of the final states are the names that are dirty from the start. -/
theorem isRoot_finalStates :
    IsRoot modules (finalStates modules stat) name ↔ IsSource modules stat name :=
  isSource_iff.symm

/-- A module has a distance if it leads to a root. -/
theorem exists_isDistance {root : String} (h : Leads modules name root)
    (hroot : IsRoot modules states root) : ∃ n, IsDistance modules states name n := by
  obtain ⟨k, hk⟩ := exists_chain_iff.2 h
  have hsome : ∃ n, ∃ root, Chain modules n name root ∧ IsRoot modules states root :=
    ⟨k, root, hk, hroot⟩
  classical
  exact ⟨Nat.find hsome, Nat.find_spec hsome, fun _ hn => Nat.find_min' hsome hn⟩

/-! ## What a pass carries on -/

/-- Marks leave dirty modules dirty. -/
theorem foldl_mark_ne_clean (l : List (String × ModuleEntry)) {states : States}
    (h : states.find? name ≠ some .clean) : (l.foldl mark states).find? name ≠ some .clean := by
  induction l generalizing states with
  | nil => exact h
  | cons e l ih =>
    refine ih ?_
    rw [mark_find?_of_ne_clean e h]
    exact h

/-- Passes leave dirty modules dirty. -/
theorem iterate_pass_ne_clean (n : Nat) {states : States}
    (h : states.find? name ≠ some .clean) :
    ((pass modules)^[n] states).find? name ≠ some .clean := by
  induction n generalizing states with
  | zero => exact h
  | succ n ih =>
    rw [Function.iterate_succ_apply]
    exact ih (foldl_mark_ne_clean _ h)

/-- A mark on a module with a dependency that is not clean leaves no clean module. -/
theorem mark_ne_clean {r : ModuleRecord} {dependency : String}
    (hd : dependency ∈ r.dependencies.toList) (h : states.find? dependency ≠ some .clean) :
    (mark states (name, some r)).find? name ≠ some .clean := by
  rcases mark_cases states (name, some r) with hsame | ⟨r', c, -, -, -, hmark⟩
  · -- The mark would have been put, had the module been clean.
    intro hclean
    rw [hsame] at hclean
    have hcause : inheritedCause states r ≠ none := fun hn => h (inheritedCause_eq_none.1 hn _ hd)
    obtain ⟨c, hc⟩ := Option.ne_none_iff_exists'.1 hcause
    have hmark : mark states (name, some r) = states.insert name (.via c) := by
      simp [mark, isCleanAt_iff.2 hclean, hc]
    rw [hmark] at hsame
    rw [← hsame, SortedMap.find?_insert_self] at hclean
    simp at hclean
  · rw [hmark, SortedMap.find?_insert_self]
    simp

/-- **A pass carries dirtiness one dependency on**, whatever the order of the modules is. -/
theorem pass_ne_clean_of_needs {dependency : String} (hneeds : Needs modules name dependency)
    (h : states.find? dependency ≠ some .clean) :
    (pass modules states).find? name ≠ some .clean := by
  obtain ⟨r, hr, hd⟩ := hneeds
  -- the dependency is still dirty when it is the module's turn, and the module stays dirty then
  obtain ⟨before, after, hsplit⟩ := List.append_of_mem (SortedMap.mem_entries.2 hr)
  unfold pass
  rw [hsplit, List.foldl_append, List.foldl_cons]
  exact foldl_mark_ne_clean after (mark_ne_clean hd (foldl_mark_ne_clean before h))

/-- Modules with a source in that many dependencies are dirty. -/
def IsDirtyWithin (modules : Modules) (stat : Path → Option Binary64) (n : Nat)
    (states : States) : Prop :=
  ∀ k name source, k ≤ n → Chain modules k name source → IsSource modules stat source →
    states.find? name ≠ some .clean

theorem isDirtyWithin_seed (modules : Modules) (stat : Path → Option Binary64) :
    IsDirtyWithin modules stat 0 (seed modules stat) := by
  intro k name source hk hchain hsource
  obtain rfl : k = 0 := Nat.le_zero.1 hk
  cases hchain
  rw [find?_seed]
  intro hclean
  obtain ⟨e, he, hown⟩ := Option.map_eq_some_iff.1 hclean
  rw [hsource e he] at hown
  simp at hown

/-- One more pass reaches one more dependency. -/
theorem IsDirtyWithin.pass {n : Nat} (h : IsDirtyWithin modules stat n states) :
    IsDirtyWithin modules stat (n + 1) (pass modules states) := by
  intro k name source hk hchain hsource
  cases hchain with
  | nil => exact foldl_mark_ne_clean _ (h 0 _ _ (Nat.zero_le n) (.nil _) hsource)
  | cons hneeds rest =>
    exact pass_ne_clean_of_needs hneeds (h _ _ _ (Nat.le_of_succ_le_succ hk) rest hsource)

theorem isDirtyWithin_iterate (modules : Modules) (stat : Path → Option Binary64) (n : Nat) :
    IsDirtyWithin modules stat n ((Assessment.pass modules)^[n] (seed modules stat)) := by
  induction n with
  | zero => exact isDirtyWithin_seed modules stat
  | succ n ih =>
    rw [Function.iterate_succ_apply']
    exact ih.pass

/-! ## Counting passes -/

theorem one_le_passes (modules : Modules) (rounds : Nat) (states : States) :
    1 ≤ (settle modules rounds states).2 := by
  unfold settle
  split
  · exact Nat.le_refl 1
  · dsimp only
    split
    · exact Nat.le_refl 1
    · exact Nat.succ_le_succ (Nat.zero_le _)

/-- The final states come from as many passes as are counted. -/
theorem settle_eq_iterate (modules : Modules) (rounds : Nat) (states : States) :
    (settle modules rounds states).1 =
      (pass modules)^[(settle modules rounds states).2] states := by
  induction rounds generalizing states with
  | zero => rfl
  | succ rounds ih =>
    unfold settle
    dsimp only
    split
    · rfl
    · rw [Function.iterate_succ_apply]
      exact ih _

/-- Once passes change nothing, no more than one is counted. -/
theorem passes_le_of_fixed {n rounds : Nat} {states : States}
    (h : pass modules ((pass modules)^[n] states) = (pass modules)^[n] states) :
    (settle modules rounds states).2 ≤ n + 1 := by
  induction n generalizing rounds states with
  | zero =>
    have hfixed : pass modules states = states := h
    cases rounds with
    | zero => exact Nat.le_refl 1
    | succ rounds => simp [settle, hfixed]
  | succ n ih =>
    cases rounds with
    | zero => exact Nat.succ_le_succ (Nat.zero_le _)
    | succ rounds =>
      unfold settle
      dsimp only
      split
      · exact Nat.succ_le_succ (Nat.zero_le _)
      · rw [Function.iterate_succ_apply] at h
        exact Nat.succ_le_succ (ih h)

/-- **Each pass but the last takes a clean module away.** -/
theorem passes_add_cleanNames_le (modules : Modules) (rounds : Nat) (states : States) :
    (settle modules rounds states).2 +
        (cleanNames modules (settle modules rounds states).1).length ≤
      1 + (cleanNames modules states).length := by
  induction rounds generalizing states with
  | zero =>
    have hle : (cleanNames modules (pass modules states)).length ≤
        (cleanNames modules states).length := by
      by_cases hp : pass modules states = states
      · rw [hp]
      · exact Nat.le_of_lt (cleanNames_pass_lt hp)
    exact Nat.add_le_add_left hle 1
  | succ rounds ih =>
    unfold settle
    dsimp only
    split
    next hp => rw [hp]
    next hp =>
      have hlt := cleanNames_pass_lt hp
      have hrest := ih (pass modules states)
      dsimp only
      omega

/-- If only one pass is counted, it changed nothing. -/
theorem pass_eq_of_passes_eq_one {rounds : Nat}
    (hrounds : (cleanNames modules states).length ≤ rounds) (h : (settle modules rounds states).2 = 1) :
    pass modules states = states := by
  cases rounds with
  | zero =>
    by_cases hp : pass modules states = states
    · exact hp
    · have := cleanNames_pass_lt hp
      omega
  | succ rounds =>
    by_cases hp : pass modules states = states
    · exact hp
    · have := one_le_passes modules rounds (pass modules states)
      unfold settle at h
      dsimp only at h
      rw [if_neg hp] at h
      dsimp only at h
      omega

/-! ## The passes of an assessment -/

/-- The passes that settle the states of a snapshot. -/
def passesOf (modules : Modules) (stat : Path → Option Binary64) : Nat :=
  (settle modules modules.size (seed modules stat)).2

theorem finalStates_eq_iterate (modules : Modules) (stat : Path → Option Binary64) :
    finalStates modules stat = (pass modules)^[passesOf modules stat] (seed modules stat) :=
  settle_eq_iterate modules modules.size (seed modules stat)

/-- What is dirty after some of the passes is dirty in the end. -/
theorem finalStates_ne_clean_of_iterate {n : Nat} (hn : n ≤ passesOf modules stat)
    (h : ((pass modules)^[n] (seed modules stat)).find? name ≠ some .clean) :
    (finalStates modules stat).find? name ≠ some .clean := by
  obtain ⟨m, hm⟩ := Nat.exists_eq_add_of_le' hn
  rw [finalStates_eq_iterate, hm, Function.iterate_add_apply]
  exact iterate_pass_ne_clean m h

/-- A module with a dependency that is not clean in the end is not clean itself. -/
theorem exists_source_of_needs {dependency : String} (hneeds : Needs modules name dependency)
    (h : (finalStates modules stat).find? dependency ≠ some .clean) :
    ∃ source, Leads modules name source ∧ IsSource modules stat source := by
  cases hd : (finalStates modules stat).find? dependency with
  | none =>
    have hunknown : modules.contains dependency = false := by
      rw [← contains_finalStates stat]
      exact SortedMap.contains_eq_false.2 hd
    exact ⟨dependency, .single hneeds, isSource_iff.2 (.inr hunknown)⟩
  | some s =>
    have hs : s ≠ .clean := by
      rintro rfl
      exact h hd
    obtain ⟨source, -, hleads, hsource⟩ := leads_source_of_dirty hd hs
    exact ⟨source, .head hneeds hleads, hsource⟩

/-- What was clean by its own file ends as clean, or as dirty because of something else. -/
theorem clean_or_via_of_seed (h : (seed modules stat).find? name = some .clean) :
    (finalStates modules stat).find? name = some .clean ∨
      ∃ cause, (finalStates modules stat).find? name = some (.via cause) := by
  rw [find?_seed] at h
  obtain ⟨e, he, hown⟩ := Option.map_eq_some_iff.1 h
  have hknown : (finalStates modules stat).contains name = true := by
    rw [contains_finalStates]
    exact SortedMap.contains_of_find? he
  obtain ⟨s, hs⟩ := SortedMap.contains_iff.1 hknown
  cases s with
  | clean => exact .inl hs
  | via cause => exact .inr ⟨cause, hs⟩
  | changed =>
    obtain ⟨e', he', hchanged⟩ := finalStates_changed_iff.1 hs
    rw [he, Option.some.injEq] at he'
    rw [← he', hown] at hchanged
    simp at hchanged

/-- A module that is dirty because of something else has a distance. -/
theorem exists_isDistance_of_via {cause : String}
    (h : (finalStates modules stat).find? name = some (.via cause)) :
    ∃ n, IsDistance modules (finalStates modules stat) name n := by
  obtain ⟨source, -, hleads, hsource⟩ := leads_source_of_dirty h (by simp)
  exact exists_isDistance hleads (isRoot_finalStates.2 hsource)

/-- The modules of a snapshot are finitely many, so one of the distances is the largest. -/
theorem exists_isDepth (modules : Modules) (stat : Path → Option Binary64) :
    ∃ depth, IsDepth modules (finalStates modules stat) depth := by
  let distances : Set Nat := {n | n = 0 ∨ ∃ name cause,
    (finalStates modules stat).find? name = some (.via cause) ∧
      IsDistance modules (finalStates modules stat) name n}
  have hfinite : distances.Finite := by
    have hnames : (⋃ name ∈ {name | name ∈ modules.keys},
        {n | IsDistance modules (finalStates modules stat) name n}).Finite := by
      refine (List.finite_toSet modules.keys).biUnion fun name _ => ?_
      exact Set.Subsingleton.finite fun m hm n hn => IsLeast.unique hm hn
    refine ((Set.finite_singleton 0).union hnames).subset ?_
    rintro n (rfl | ⟨name, cause, hvia, hdistance⟩)
    · exact .inl rfl
    · refine .inr (Set.mem_biUnion (x := name) ?_ hdistance)
      have hknown : modules.contains name = true := by
        rw [← contains_finalStates stat]
        exact SortedMap.contains_of_find? hvia
      exact SortedMap.mem_keys.2 hknown
  have hzero : distances.Nonempty := ⟨0, .inl rfl⟩
  exact ⟨sSup distances, Nat.sSup_mem hzero hfinite.bddAbove,
    fun n hn => le_csSup hfinite.bddAbove hn⟩

/-- **No pass is needed beyond the largest distance**, but for the one that finds nothing. -/
theorem passesOf_le_of_isDepth {depth : Nat}
    (h : IsDepth modules (finalStates modules stat) depth) : passesOf modules stat ≤ 1 + depth := by
  by_contra hmore
  have hdepth : depth ≤ passesOf modules stat := by omega
  have hfixed : pass modules ((pass modules)^[depth] (seed modules stat)) =
      (pass modules)^[depth] (seed modules stat) := by
    refine pass_invariant (P := (· = (pass modules)^[depth] (seed modules stat))) ?_ rfl
    rintro _ e he rfl
    rcases mark_cases ((pass modules)^[depth] (seed modules stat)) e with
      hsame | ⟨r, c, hr, hclean, hinherited, -⟩
    · exact hsame
    · -- The marked module leads to a source, and after so many passes it is dirty already.
      exfalso
      obtain ⟨dependency, hdependency, hcause⟩ := exists_of_inheritedCause hinherited
      have hneeds : Needs modules e.1 dependency :=
        ⟨r, by rw [← hr]; exact SortedMap.mem_entries.1 he, hdependency⟩
      have hdirty : ((pass modules)^[depth] (seed modules stat)).find? dependency ≠
          some .clean := by
        intro hd
        simp [causeOf, hd, Dirtiness.causeFor] at hcause
      obtain ⟨source, hleads, hsource⟩ :=
        exists_source_of_needs hneeds (finalStates_ne_clean_of_iterate hdepth hdirty)
      have hseed : (seed modules stat).find? e.1 = some .clean := by
        by_contra hs
        exact iterate_pass_ne_clean depth hs hclean
      obtain ⟨cause, hvia⟩ := (clean_or_via_of_seed hseed).resolve_left fun hfinal =>
        (dirty_iff_leads_source hfinal).2 ⟨source, hleads, hsource⟩ rfl
      obtain ⟨n, hn⟩ := exists_isDistance_of_via hvia
      obtain ⟨root, hchain, hroot⟩ := hn.1
      exact isDirtyWithin_iterate modules stat depth n e.1 root (h.2 (.inr ⟨e.1, cause, hvia, hn⟩))
        hchain (isRoot_finalStates.1 hroot) hclean
  have hle : passesOf modules stat ≤ depth + 1 := passes_le_of_fixed hfixed
  omega

/-- Modules that were clean by their own files end as clean, or as dirty because of something
else. -/
theorem length_cleanNames_seed_le (modules : Modules) (stat : Path → Option Binary64) :
    (cleanNames modules (seed modules stat)).length ≤
      (cleanNames modules (finalStates modules stat)).length +
        (viaNames modules (finalStates modules stat)).length := by
  unfold cleanNames viaNames
  rw [← List.countP_eq_length_filter, ← List.countP_eq_length_filter,
    ← List.countP_eq_length_filter]
  generalize modules.keys = names
  induction names with
  | nil => exact Nat.le_refl 0
  | cons name names ih =>
    rw [List.countP_cons, List.countP_cons, List.countP_cons]
    by_cases hseed : isCleanAt (seed modules stat) name = true
    · rcases clean_or_via_of_seed (isCleanAt_iff.1 hseed) with hclean | hvia
      · rw [if_pos hseed, if_pos (isCleanAt_iff.2 hclean)]
        omega
      · rw [if_pos hseed, if_pos (isViaAt_iff.2 hvia)]
        omega
    · rw [if_neg hseed]
      omega

/-- No pass is needed beyond one for each module that is dirty because of something else, but for
the one that finds nothing. -/
theorem passesOf_le_viaNames (modules : Modules) (stat : Path → Option Binary64) :
    passesOf modules stat ≤ 1 + (viaNames modules (finalStates modules stat)).length := by
  have hpasses : passesOf modules stat +
      (cleanNames modules (finalStates modules stat)).length ≤
        1 + (cleanNames modules (seed modules stat)).length :=
    passes_add_cleanNames_le modules modules.size (seed modules stat)
  have hseed := length_cleanNames_seed_le modules stat
  omega

/-- A single pass is enough when it finds nothing. -/
theorem finalStates_eq_seed_of_passesOf (h : passesOf modules stat = 1) :
    finalStates modules stat = seed modules stat := by
  have hfixed : pass modules (seed modules stat) = seed modules stat := by
    refine pass_eq_of_passes_eq_one ?_ h
    unfold cleanNames
    exact Nat.le_trans (List.length_filter_le _ _) (Nat.le_of_eq (List.length_map _))
  rw [finalStates_eq_iterate, h]
  exact hfixed

/-- **How many passes an assessment makes**, for every snapshot, with circles in it or without, and
every look at the files.

There is at least one pass. Each module that is dirty because of something else has a shortest
chain of dependencies to a changed or unknown name, and the passes are at most one more than the
longest of these (0 if there is no such module). They are at most one more than the number of such
modules, too, and there is just one pass exactly when there are none. -/
theorem passes_bounded (snapshot : Snapshot) (stat : Path → Option Binary64) (files : List Path) :
    let a := ofFiles snapshot stat files
    1 ≤ a.passes ∧
    (∀ name cause, a.states.find? name = some (.via cause) →
      ∃ n, IsDistance snapshot.modules a.states name n) ∧
    (∃ depth, IsDepth snapshot.modules a.states depth ∧ a.passes ≤ 1 + depth) ∧
    a.passes ≤ 1 + (viaNames snapshot.modules a.states).length ∧
    (a.passes = 1 ↔ ∀ name cause, a.states.find? name ≠ some (.via cause)) := by
  intro a
  have hstates : a.states = finalStates snapshot.modules stat := states_ofFiles
  have hpasses : a.passes = passesOf snapshot.modules stat := rfl
  rw [hstates, hpasses]
  have hone : 1 ≤ passesOf snapshot.modules stat := one_le_passes _ _ _
  have hcount := passesOf_le_viaNames snapshot.modules stat
  refine ⟨hone, fun _ _ => exists_isDistance_of_via, ?_, hcount, ?_, ?_⟩
  · obtain ⟨depth, hdepth⟩ := exists_isDepth snapshot.modules stat
    exact ⟨depth, hdepth, passesOf_le_of_isDepth hdepth⟩
  · intro hsingle name cause hvia
    rw [finalStates_eq_seed_of_passesOf hsingle, find?_seed] at hvia
    obtain ⟨e, -, hown⟩ := Option.map_eq_some_iff.1 hvia
    rcases ownState_cases stat e with ho | ho <;> simp [ho] at hown
  · intro hnone
    have hempty : viaNames snapshot.modules (finalStates snapshot.modules stat) = [] := by
      refine List.filter_eq_nil_iff.2 fun name _ hvia => ?_
      obtain ⟨cause, hc⟩ := isViaAt_iff.1 hvia
      exact hnone name cause hc
    rw [hempty] at hcount
    exact Nat.le_antisymm hcount hone

/-- `a` imports `b`, which imports `c`, whose file was touched; and a module that imports itself. -/
def alphabeticalSnapshot : Snapshot := .ofModules <| .ofList
  [("a", sampleRecord "/a.py" ["b"]), ("b", sampleRecord "/b.py" ["c"]),
    ("c", sampleRecord "/c.py" []), ("lone", sampleRecord "/lone.py" ["lone"])]

/-- Names in the order of the imports are the worst case: the change is carried one module on in
each pass, and a last one finds nothing. -/
theorem passes_of_alphabetical :
    let a := ofFiles alphabeticalSnapshot touchedFiles []
    a.states.find? "a" = some (.via "c") ∧
    (∃ n, IsDistance alphabeticalSnapshot.modules a.states "a" n) ∧ a.passes = 3 ∧
    ∃ depth, IsDepth alphabeticalSnapshot.modules a.states depth ∧ 2 ≤ depth := by
  intro a
  obtain ⟨-, hdistance, ⟨depth, hdepth, hle⟩, -⟩ :=
    passes_bounded alphabeticalSnapshot touchedFiles []
  have ha : a.states.find? "a" = some (.via "c") := by decide +kernel
  have hpasses : a.passes = 3 := by decide +kernel
  have hdeep : 2 ≤ depth := by
    have : a.passes ≤ 1 + depth := hle
    omega
  exact ⟨ha, hdistance "a" "c" ha, hpasses, depth, hdepth, hdeep⟩

end Assessment

end QmlStubs
