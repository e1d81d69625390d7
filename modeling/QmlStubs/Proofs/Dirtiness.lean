import Mathlib.Logic.Relation
import QmlStubs.Assessment
import QmlStubs.Proofs.Collections

/-!
# What the passes settle on

`Assessment.settle` repeats passes over the modules of a snapshot until one marks nothing new. A
mark only ever turns a clean module into a dirty one, so the number of clean modules falls with
each pass that does something, and as many repetitions as there are modules are enough
(`pass_settle`). What is left is a fixpoint, and a fixpoint is a statement about the graph:

> **a module is clean exactly when every name it leads to is in the snapshot and is clean by its
> own file** (`settled_clean_iff`).

The three facts about a run of passes that this needs (what is dirty stays as it is, a mark comes
from a dependency, nothing is marked without a cause) are instances of one invariant rule,
`settle_invariant`.
-/

set_option autoImplicit false

namespace QmlStubs

/-! ## The graph of a snapshot -/

namespace Modules

/-- One module was observed to load another one. -/
def Needs (modules : Modules) (a b : String) : Prop :=
  ∃ r, modules.find? a = some (some r) ∧ b ∈ r.dependencies.toList

/-- A name is reached over zero or more dependencies. -/
abbrev Leads (modules : Modules) : String → String → Prop :=
  Relation.ReflTransGen (Needs modules)

/-- Every dependency of a record is a known name. -/
def Closed (modules : Modules) : Prop :=
  ∀ a b, Needs modules a b → modules.contains b = true

theorem needs_erase {modules : Modules} {name a b : String} :
    Needs (modules.erase name) a b ↔ a ≠ name ∧ Needs modules a b := by
  unfold Needs
  rw [SortedMap.find?_erase]
  by_cases h : a = name <;> simp [h]

theorem Closed.contains_of_leads {modules : Modules} (hc : Closed modules) {a b : String}
    (ha : modules.contains a = true) (h : Leads modules a b) : modules.contains b = true := by
  cases h with
  | refl => exact ha
  | tail _ hcb => exact hc _ _ hcb

end Modules

namespace Assessment

open Modules

variable {modules : Modules} {stat : Path → Option Binary64}

/-! ## One mark -/

theorem isCleanAt_iff {states : States} {name : String} :
    isCleanAt states name = true ↔ states.find? name = some .clean := by
  unfold isCleanAt
  exact beq_iff_eq

/-- A mark is put on a clean module whose record has a dependency with a cause, and nowhere else. -/
theorem mark_cases (states : States) (e : String × ModuleEntry) :
    mark states e = states ∨
    ∃ r c, e.2 = some r ∧ states.find? e.1 = some .clean ∧ inheritedCause states r = some c ∧
      mark states e = states.insert e.1 (.via c) := by
  obtain ⟨name, entry⟩ := e
  cases entry with
  | none => exact .inl rfl
  | some r =>
    cases hc : isCleanAt states name with
    | false => exact .inl (by simp [mark, hc])
    | true =>
      cases hi : inheritedCause states r with
      | none => exact .inl (by simp [mark, hi])
      | some c =>
        exact .inr ⟨r, c, rfl, isCleanAt_iff.1 hc, hi, by simp [mark, hc, hi]⟩

theorem contains_mark (states : States) (e : String × ModuleEntry) (j : String) :
    (mark states e).contains j = states.contains j := by
  rcases mark_cases states e with h | ⟨r, c, -, hs, -, h⟩
  · rw [h]
  · rw [h, Bool.eq_iff_iff, SortedMap.contains_insert]
    constructor
    · rintro (rfl | hj)
      · exact SortedMap.contains_of_find? hs
      · exact hj
    · exact Or.inr

/-- What is dirty keeps its state. -/
theorem mark_find?_of_ne_clean {states : States} (e : String × ModuleEntry) {j : String}
    (h : states.find? j ≠ some .clean) : (mark states e).find? j = states.find? j := by
  rcases mark_cases states e with hm | ⟨r, c, -, hs, -, hm⟩
  · rw [hm]
  · rw [hm, SortedMap.find?_insert_of_ne]
    rintro rfl
    exact h hs

/-- The causes of a record: none exactly when all its dependencies are clean. -/
theorem inheritedCause_eq_none {states : States} {r : ModuleRecord} :
    inheritedCause states r = none ↔
      ∀ d ∈ r.dependencies.toList, states.find? d = some .clean := by
  unfold inheritedCause
  rw [List.findSome?_eq_none_iff]
  refine forall₂_congr fun d _ => ?_
  unfold causeOf
  cases states.find? d with
  | none => simp
  | some s => cases s <;> simp [Dirtiness.causeFor]

/-- A cause that is inherited is that of some dependency. -/
theorem exists_of_inheritedCause {states : States} {r : ModuleRecord} {c : String}
    (h : inheritedCause states r = some c) :
    ∃ d ∈ r.dependencies.toList, causeOf states d = some c := by
  unfold inheritedCause at h
  exact List.exists_of_findSome?_eq_some h

/-! ## One pass -/

/-- What holds before a pass and is kept by each mark on a module of the snapshot holds after it. -/
theorem pass_invariant {P : States → Prop} {states : States}
    (hmark : ∀ states e, e ∈ modules.entries → P states → P (mark states e)) (h : P states) :
    P (pass modules states) := by
  unfold pass
  suffices hs : ∀ l : List (String × ModuleEntry), (∀ e ∈ l, e ∈ modules.entries) →
      ∀ states, P states → P (l.foldl mark states) from hs _ (fun _ he => he) states h
  intro l
  induction l with
  | nil => exact fun _ _ hp => hp
  | cons e l ih =>
    intro hl states hp
    rw [List.foldl_cons]
    exact ih (fun e' he' => hl e' (List.mem_cons_of_mem _ he')) _
      (hmark states e (hl e (List.mem_cons_self ..)) hp)

/-- Names of the modules that are still clean. -/
def cleanNames (modules : Modules) (states : States) : List String :=
  modules.keys.filter (isCleanAt states)

theorem isCleanAt_insert_via {states : States} {name cause j : String} :
    isCleanAt (states.insert name (.via cause)) j = true ↔
      j ≠ name ∧ isCleanAt states j = true := by
  rw [isCleanAt_iff, isCleanAt_iff, SortedMap.find?_insert]
  by_cases h : j = name <;> simp [h]

/-- A filter that lets fewer through keeps fewer, and really fewer if it stops a member. -/
theorem length_filter_lt_of_imp {p q : String → Bool} {l : List String} {a : String} (ha : a ∈ l)
    (hp : p a = true) (hq : q a = false) (h : ∀ b, q b = true → p b = true) :
    (l.filter q).length < (l.filter p).length := by
  have hsplit : l.filter q = (l.filter p).filter q := by
    rw [List.filter_filter]
    refine List.filter_congr fun b _ => ?_
    cases hb : q b with
    | false => rfl
    | true => simp [h b hb]
  rw [hsplit, List.length_filter_lt_length_iff_exists]
  exact ⟨a, List.mem_filter.2 ⟨ha, hp⟩, by simp [hq]⟩

/-- **A mark that changes something takes a clean module away.** -/
theorem cleanNames_mark_lt {states : States} {e : String × ModuleEntry} (he : e ∈ modules.entries)
    (h : mark states e ≠ states) :
    (cleanNames modules (mark states e)).length < (cleanNames modules states).length := by
  rcases mark_cases states e with hm | ⟨r, c, -, hs, -, hm⟩
  · exact absurd hm h
  · rw [hm]
    refine length_filter_lt_of_imp (a := e.1) (List.mem_map.2 ⟨e, he, rfl⟩) (isCleanAt_iff.2 hs) ?_
      fun b hb => (isCleanAt_insert_via.1 hb).2
    rw [← Bool.not_eq_true, isCleanAt_insert_via]
    exact fun hne => hne.1 rfl

/-- Either no mark of a row of modules changes anything, or some clean module is lost. -/
theorem foldl_mark_cases (modules : Modules) {l : List (String × ModuleEntry)} (hl : ∀ e ∈ l, e ∈ modules.entries)
    (states : States) :
    (l.foldl mark states = states ∧ ∀ e ∈ l, mark states e = states) ∨
      (cleanNames modules (l.foldl mark states)).length < (cleanNames modules states).length := by
  induction l generalizing states with
  | nil => exact .inl ⟨rfl, by simp⟩
  | cons e l ih =>
    have he := hl e (List.mem_cons_self ..)
    have hl' : ∀ e' ∈ l, e' ∈ modules.entries := fun e' h' => hl e' (List.mem_cons_of_mem _ h')
    rw [List.foldl_cons]
    by_cases hm : mark states e = states
    · rw [hm]
      rcases ih hl' states with ⟨h, hall⟩ | h
      · refine .inl ⟨h, fun e' he' => ?_⟩
        rcases List.mem_cons.1 he' with rfl | he'
        · exact hm
        · exact hall e' he'
      · exact .inr h
    · have hlt := cleanNames_mark_lt he hm
      rcases ih hl' (mark states e) with ⟨h, -⟩ | h
      · rw [h]
        exact .inr hlt
      · exact .inr (Nat.lt_trans h hlt)

/-- A pass that changes something takes a clean module away. -/
theorem cleanNames_pass_lt {states : States} (h : pass modules states ≠ states) :
    (cleanNames modules (pass modules states)).length < (cleanNames modules states).length := by
  rcases foldl_mark_cases modules (fun _ he => he) states with ⟨hp, -⟩ | hp
  · exact absurd hp h
  · exact hp

/-- In a fixpoint no single module can be marked. -/
theorem mark_eq_of_pass_eq {states : States} (h : pass modules states = states)
    {e : String × ModuleEntry} (he : e ∈ modules.entries) : mark states e = states := by
  rcases foldl_mark_cases modules (fun _ he => he) states with ⟨-, hall⟩ | hp
  · exact hall e he
  · have hlt : (cleanNames modules (pass modules states)).length <
        (cleanNames modules states).length := hp
    rw [h] at hlt
    exact absurd hlt (Nat.lt_irrefl _)

/-! ## All passes -/

/-- **The invariant rule**: what each mark keeps, all passes keep. -/
theorem settle_invariant {P : States → Prop}
    (hmark : ∀ states e, e ∈ modules.entries → P states → P (mark states e)) (rounds : Nat)
    {states : States} (h : P states) : P (settle modules rounds states).1 := by
  induction rounds generalizing states with
  | zero => exact pass_invariant hmark h
  | succ rounds ih =>
    have hp : P (pass modules states) := pass_invariant hmark h
    unfold settle
    dsimp only
    split
    · exact hp
    · exact ih hp

/-- **As many repetitions as there are clean modules reach a fixpoint.** -/
theorem pass_settle {rounds : Nat} {states : States}
    (h : (cleanNames modules states).length ≤ rounds) :
    pass modules (settle modules rounds states).1 = (settle modules rounds states).1 := by
  induction rounds generalizing states with
  | zero =>
    have hfix : pass modules states = states := by
      by_cases hp : pass modules states = states
      · exact hp
      · have := cleanNames_pass_lt hp
        omega
    unfold settle
    rw [hfix, hfix]
  | succ rounds ih =>
    unfold settle
    dsimp only
    split
    next hp => rw [hp, hp]
    next hp =>
      have := cleanNames_pass_lt hp
      exact ih (by omega)

/-! ## The final states -/

/-- The states that the passes settle on. -/
def finalStates (modules : Modules) (stat : Path → Option Binary64) : States :=
  (settle modules modules.size (seed modules stat)).1

theorem find?_seed (name : String) :
    (seed modules stat).find? name = (modules.find? name).map (ownState stat) := by
  unfold seed
  rw [SortedMap.find?_mapVal]

theorem pass_finalStates (modules : Modules) (stat : Path → Option Binary64) :
    pass modules (finalStates modules stat) = finalStates modules stat := by
  refine pass_settle ?_
  unfold cleanNames
  refine Nat.le_trans (List.length_filter_le _ _) (Nat.le_of_eq ?_)
  exact List.length_map _

theorem contains_finalStates (stat : Path → Option Binary64) (name : String) :
    (finalStates modules stat).contains name = modules.contains name := by
  refine settle_invariant (P := fun states => states.contains name = modules.contains name)
    (fun states e _ h => (contains_mark states e name).trans h) _ ?_
  unfold SortedMap.contains
  rw [find?_seed, Option.isSome_map]

/-- A state that a module got from its own file is final unless it is clean. -/
theorem finalStates_of_ownState {name : String} {e : ModuleEntry} (h : modules.find? name = some e)
    (hd : ownState stat e ≠ .clean) :
    (finalStates modules stat).find? name = some (ownState stat e) := by
  refine settle_invariant (P := fun states => states.find? name = some (ownState stat e))
    (fun states e' _ hs => ?_) _ ?_
  · rw [mark_find?_of_ne_clean e' (by rw [hs]; simpa using hd), hs]
  · rw [find?_seed, h, Option.map_some]

theorem ownState_cases (stat : Path → Option Binary64) (e : ModuleEntry) :
    ownState stat e = .clean ∨ ownState stat e = .changed := by
  cases e with
  | none => exact .inr rfl
  | some r =>
    cases h : r.isStale (stat r.path) with
    | true => exact .inr (by simp [ownState, h])
    | false => exact .inl (by simp [ownState, h])

/-- What is clean in the end was clean by its own file. -/
theorem ownState_of_finalStates_clean {name : String}
    (h : (finalStates modules stat).find? name = some .clean) :
    ∃ e, modules.find? name = some e ∧ ownState stat e = .clean := by
  have hc : modules.contains name = true := by
    rw [← contains_finalStates stat]
    exact SortedMap.contains_of_find? h
  obtain ⟨e, he⟩ := SortedMap.contains_iff.1 hc
  refine ⟨e, he, ?_⟩
  rcases ownState_cases stat e with ho | ho
  · exact ho
  · have hf := finalStates_of_ownState (e := e) he (by rw [ho]; simp)
    rw [h, ho] at hf
    simp at hf

/-- **The dependencies of what is clean in the end are clean.** -/
theorem finalStates_clean_of_needs {a b : String}
    (h : (finalStates modules stat).find? a = some .clean) (hd : Needs modules a b) :
    (finalStates modules stat).find? b = some .clean := by
  obtain ⟨r, ha, hb⟩ := hd
  have hm := mark_eq_of_pass_eq (pass_finalStates modules stat) (SortedMap.mem_entries.2 ha)
  cases hi : inheritedCause (finalStates modules stat) r with
  | none => exact inheritedCause_eq_none.1 hi b hb
  | some c =>
    -- The mark that this cause calls for would change the fixpoint.
    unfold mark at hm
    dsimp only at hm
    rw [if_pos (isCleanAt_iff.2 h), hi] at hm
    have hv : (finalStates modules stat).find? a = some (.via c) := by
      rw [← hm, SortedMap.find?_insert_self]
    rw [h] at hv
    simp at hv

/-- What a clean module leads to is clean. -/
theorem finalStates_clean_of_leads {a b : String}
    (h : (finalStates modules stat).find? a = some .clean) (hl : Leads modules a b) :
    (finalStates modules stat).find? b = some .clean := by
  induction hl with
  | refl => exact h
  | tail _ hd ih => exact finalStates_clean_of_needs ih hd

/-- The names that are dirty from the start: unknown ones and those that are dirty by their own
file. -/
def IsSource (modules : Modules) (stat : Path → Option Binary64) (name : String) : Prop :=
  ∀ e, modules.find? name = some e → ownState stat e = .changed

/-- Every dirty module leads to a source, and the cause it names is one. -/
theorem leads_source_of_dirty {name : String} {s : Dirtiness}
    (h : (finalStates modules stat).find? name = some s) (hs : s ≠ .clean) :
    ∃ c, s.causeFor name = some c ∧ Leads modules name c ∧ IsSource modules stat c := by
  let P : States → Prop := fun states =>
    (∀ j, states.contains j = modules.contains j) ∧
    ∀ j s, states.find? j = some s → s ≠ .clean →
      ∃ c, s.causeFor j = some c ∧ Leads modules j c ∧ IsSource modules stat c
  have hseed : P (seed modules stat) := by
    refine ⟨fun j => ?_, fun j s hj hs => ?_⟩
    · unfold SortedMap.contains
      rw [find?_seed, Option.isSome_map]
    · rw [find?_seed] at hj
      obtain ⟨e, he, rfl⟩ := Option.map_eq_some_iff.1 hj
      rcases ownState_cases stat e with ho | ho
      · exact absurd ho hs
      · rw [ho]
        refine ⟨j, rfl, .refl, fun e' he' => ?_⟩
        rw [he, Option.some.injEq] at he'
        rw [← he', ho]
  have hmark : ∀ states e, e ∈ modules.entries → P states → P (mark states e) := by
    rintro states e he ⟨hk, hp⟩
    refine ⟨fun j => (contains_mark states e j).trans (hk j), ?_⟩
    rcases mark_cases states e with hm | ⟨r, c, hr, -, hi, hm⟩
    · rw [hm]
      exact hp
    intro j s hj hs
    rw [hm, SortedMap.find?_insert] at hj
    by_cases heq : j = e.1
    · -- The marked module takes the cause of its dependency `d`, which is dirty or unknown.
      rw [if_pos heq, Option.some.injEq] at hj
      subst hj heq
      obtain ⟨d, hd, hcause⟩ := exists_of_inheritedCause hi
      have hedge : Needs modules e.1 d :=
        ⟨r, by rw [← hr]; exact SortedMap.mem_entries.1 he, hd⟩
      refine ⟨c, rfl, ?_⟩
      unfold causeOf at hcause
      cases hfd : states.find? d with
      | none =>
        rw [hfd, Option.some.injEq] at hcause
        subst hcause
        refine ⟨.single hedge, fun e' he' => ?_⟩
        have hcd := SortedMap.contains_of_find? he'
        rw [← hk, SortedMap.contains_iff, hfd] at hcd
        exact absurd hcd (by simp)
      | some sd =>
        rw [hfd] at hcause
        have hcause : sd.causeFor d = some c := hcause
        have hsd : sd ≠ .clean := by
          rintro rfl
          simp [Dirtiness.causeFor] at hcause
        obtain ⟨c', hc', hl, hsrc⟩ := hp d sd hfd hsd
        rw [hcause, Option.some.injEq] at hc'
        subst hc'
        exact ⟨.head hedge hl, hsrc⟩
    · rw [if_neg heq] at hj
      exact hp j s hj hs
  have hfinal : P (finalStates modules stat) := settle_invariant hmark _ hseed
  exact hfinal.2 name s h hs

/-- **The fixpoint as a statement about the graph**: a module is clean exactly when every name it
leads to is known and clean by its own file. -/
theorem settled_clean_iff {name : String} :
    (finalStates modules stat).find? name = some .clean ↔
      ∀ b, Leads modules name b → ∃ e, modules.find? b = some e ∧ ownState stat e = .clean := by
  constructor
  · intro h b hl
    exact ownState_of_finalStates_clean (finalStates_clean_of_leads h hl)
  · intro h
    obtain ⟨e, he, -⟩ := h name .refl
    have hc : (finalStates modules stat).contains name = true := by
      rw [contains_finalStates]
      exact SortedMap.contains_of_find? he
    obtain ⟨s, hs⟩ := SortedMap.contains_iff.1 hc
    by_cases hcl : s = .clean
    · rw [hs, hcl]
    · obtain ⟨c, -, hl, hsrc⟩ := leads_source_of_dirty hs hcl
      obtain ⟨e', he', ho⟩ := h c hl
      rw [hsrc e' he'] at ho
      simp at ho

end Assessment

end QmlStubs
