import QmlStubs.Proofs.Exactness

/-!
# Causes are root causes

A module that is dirty because of something else names a cause, which a mark copies from the first
dirty dependency that it sees. On a circle two modules could name each other that way, or a module
itself. They do not:

> **the cause that a module names is changed itself or unknown, and every module on some chain of
> dependencies from the one to the other names the same cause** (`causes_are_roots`).

What carries this is that a state that is not clean is never overwritten, so a chain that was there
when a mark was put is there in the end (`BlameChain.mark`). One mark puts one module in front of such
a chain (`Justified.mark`), and the passes are nothing but marks.
-/

set_option autoImplicit false

namespace QmlStubs

namespace Assessment

open Modules

variable {modules : Modules} {stat : Path → Option Binary64} {states : States}
  {name cause : String}

/-! ## Chains -/

/-- A name that is dirty for no other reason than itself: it is changed, or it is not known. -/
def IsRoot (modules : Modules) (states : States) (name : String) : Prop :=
  states.find? name = some .changed ∨ modules.contains name = false

/-- A dependency of a module that names the cause. -/
def Blames (modules : Modules) (states : States) (cause a b : String) : Prop :=
  Needs modules a b ∧ states.find? a = some (.via cause)

/-- A chain of one or more dependencies from modules that all name the cause. -/
abbrev BlameChain (modules : Modules) (states : States) (cause : String) :
    String → String → Prop :=
  Relation.TransGen (Blames modules states cause)

/-- A mark leaves every chain as it is. -/
theorem BlameChain.mark {a b : String} (e : String × ModuleEntry)
    (h : BlameChain modules states cause a b) :
    BlameChain modules (mark states e) cause a b := by
  have hstep : ∀ x y, Blames modules states cause x y →
      Blames modules (Assessment.mark states e) cause x y := by
    rintro x y ⟨hneeds, hx⟩
    refine ⟨hneeds, ?_⟩
    rw [mark_find?_of_ne_clean e (by simp [hx]), hx]
  exact Relation.TransGen.mono hstep a b h

theorem IsRoot.mark (e : String × ModuleEntry) (h : IsRoot modules states name) :
    IsRoot modules (mark states e) name := by
  rcases h with hchanged | hunknown
  · left
    rw [mark_find?_of_ne_clean e (by simp [hchanged]), hchanged]
  · exact .inr hunknown

/-! ## The invariant of the marks -/

/-- The modules with a state are those of the snapshot, and each cause that one of them names is a
root at the end of a chain. -/
structure Justified (modules : Modules) (states : States) : Prop where
  known : ∀ name, states.contains name = modules.contains name
  justified : ∀ name cause, states.find? name = some (.via cause) →
    IsRoot modules states cause ∧ BlameChain modules states cause name cause

/-- Before the first pass no module names a cause. -/
theorem justified_seed (modules : Modules) (stat : Path → Option Binary64) :
    Justified modules (seed modules stat) := by
  constructor
  · intro name
    unfold SortedMap.contains
    rw [find?_seed, Option.isSome_map]
  · intro name cause h
    rw [find?_seed] at h
    obtain ⟨e, -, hown⟩ := Option.map_eq_some_iff.1 h
    rcases ownState_cases stat e with ho | ho <;> simp [ho] at hown

/-- The cause that a dependency hands on is a root; the dependency is that root, or names it. -/
theorem Justified.of_causeOf (h : Justified modules states) {dependency : String}
    (hc : causeOf states dependency = some cause) :
    IsRoot modules states cause ∧
      (dependency = cause ∨ BlameChain modules states cause dependency cause) := by
  unfold causeOf at hc
  cases hd : states.find? dependency with
  | none =>
    obtain rfl : dependency = cause := by simpa [hd] using hc
    have hunknown : modules.contains dependency = false := by
      rw [← h.known]
      exact SortedMap.contains_eq_false.2 hd
    exact ⟨.inr hunknown, .inl rfl⟩
  | some s =>
    cases s with
    | clean => exact absurd hc (by simp [hd, Dirtiness.causeFor])
    | changed =>
      obtain rfl : dependency = cause := by simpa [hd, Dirtiness.causeFor] using hc
      exact ⟨.inl hd, .inl rfl⟩
    | via other =>
      obtain rfl : other = cause := by simpa [hd, Dirtiness.causeFor] using hc
      obtain ⟨hroot, hchain⟩ := h.justified dependency other hd
      exact ⟨hroot, .inr hchain⟩

/-- **A mark keeps all causes justified**, and justifies the one that it puts. -/
theorem Justified.mark (h : Justified modules states) {e : String × ModuleEntry}
    (he : e ∈ modules.entries) : Justified modules (mark states e) := by
  constructor
  · intro name
    rw [contains_mark, h.known]
  · intro name cause hname
    have hold : states.find? name = some (.via cause) →
        IsRoot modules (Assessment.mark states e) cause ∧
          BlameChain modules (Assessment.mark states e) cause name cause := by
      intro hvia
      obtain ⟨hroot, hchain⟩ := h.justified name cause hvia
      exact ⟨hroot.mark e, hchain.mark e⟩
    rcases mark_cases states e with hsame | ⟨r, c, hr, -, hinherited, hmark⟩
    · apply hold
      rwa [hsame] at hname
    · by_cases heq : name = e.1
      · -- The marked module stands before the chain of the dependency that it takes the cause from.
        have hstate := hname
        rw [hmark, heq, SortedMap.find?_insert_self, Option.some.injEq,
          Dirtiness.via.injEq] at hstate
        subst hstate
        obtain ⟨dependency, hdependency, hcause⟩ := exists_of_inheritedCause hinherited
        obtain ⟨hroot, hfrom⟩ := h.of_causeOf hcause
        have hneeds : Needs modules name dependency := by
          rw [heq]
          exact ⟨r, by rw [← hr]; exact SortedMap.mem_entries.1 he, hdependency⟩
        have hfirst : Blames modules (Assessment.mark states e) c name dependency := ⟨hneeds, hname⟩
        refine ⟨hroot.mark e, ?_⟩
        rcases hfrom with rfl | hchain
        · exact .single hfirst
        · exact .head hfirst (hchain.mark e)
      · apply hold
        rwa [hmark, SortedMap.find?_insert_of_ne heq] at hname

/-- All passes keep the causes justified. -/
theorem justified_finalStates (modules : Modules) (stat : Path → Option Binary64) :
    Justified modules (finalStates modules stat) :=
  settle_invariant (fun _ _ he h => h.mark he) _ (justified_seed modules stat)

/-! ## The causes -/

/-- **The cause that a module names is a root cause**, for every snapshot, with circles in it or
without, and every look at the files.

It is changed itself, or the snapshot does not have it; so it is another name than that of the
module. One or more dependencies lead from the module to it, and every module on the way, the first
one included, names the same cause. -/
theorem causes_are_roots (snapshot : Snapshot) (stat : Path → Option Binary64)
    (files : List Path) :
    let states := (ofFiles snapshot stat files).states
    ∀ name cause, states.find? name = some (.via cause) →
      (states.find? cause = some .changed ∨
        (snapshot.modules.find? cause = none ∧ states.find? cause = none)) ∧
      cause ≠ name ∧ BlameChain snapshot.modules states cause name cause := by
  intro states name cause h
  have hjustified : Justified snapshot.modules states := justified_finalStates snapshot.modules stat
  obtain ⟨hroot, hchain⟩ := hjustified.justified name cause h
  refine ⟨?_, ?_, hchain⟩
  · rcases hroot with hchanged | hunknown
    · exact .inl hchanged
    · have hstate := hunknown
      rw [← hjustified.known] at hstate
      exact .inr ⟨SortedMap.contains_eq_false.1 hunknown, SortedMap.contains_eq_false.1 hstate⟩
  · rintro rfl
    rcases hroot with hchanged | hunknown
    · rw [h] at hchanged
      exact absurd hchanged (by simp)
    · rw [← hjustified.known, SortedMap.contains_eq_false, h] at hunknown
      exact absurd hunknown (by simp)

/-- Both modules of the circle name the file that was touched, and not each other. The cause of the
module whose import is not known is that import. -/
theorem causes_are_roots_of_circle :
    let states := (ofFiles circularSnapshot touchedFiles []).states
    (states.find? "a" = some (.via "c") ∧
      BlameChain circularSnapshot.modules states "c" "a" "c") ∧
    (states.find? "b" = some (.via "c") ∧
      BlameChain circularSnapshot.modules states "c" "b" "c") ∧
    states.find? "lost" = some (.via "unknown") ∧
    BlameChain circularSnapshot.modules states "unknown" "lost" "unknown" := by
  intro states
  have hcauses := causes_are_roots circularSnapshot touchedFiles []
  have ha : states.find? "a" = some (.via "c") := by decide +kernel
  have hb : states.find? "b" = some (.via "c") := by decide +kernel
  have hlost : states.find? "lost" = some (.via "unknown") := by decide +kernel
  exact ⟨⟨ha, (hcauses "a" "c" ha).2.2⟩, ⟨hb, (hcauses "b" "c" hb).2.2⟩, hlost,
    (hcauses "lost" "unknown" hlost).2.2⟩

end Assessment

end QmlStubs
