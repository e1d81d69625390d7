import QmlStubs.Proofs.Collections
import QmlStubs.Scan

/-!
# Recording what was loaded

`Scan.recordAll` works through a queue of names and stops at names that are known. The edges of a
name are taken out of the trace when they are followed, which is what makes the recursion end, so the
edges that are left say little about the trace. They need not: a name that is looked up was unknown
all the time and has all its edges left (`Extends.of_unknown`), and **an invariant can speak of the
traced edges alone** (`recordAll_traced`).
-/

set_option autoImplicit false

namespace QmlStubs

namespace Scan

variable {recordOf : String → SortedSet String → Option ModuleRecord}

/-! ## The invariant rule -/

/-- The dependencies that are left for a name. -/
abbrev leftOf (edges : SortedMap String (SortedSet String)) (name : String) : SortedSet String :=
  (edges.find? name).getD .empty

/-- The known names after a record was made. -/
def Recorded.add (known : Recorded) (name : String) (r : ModuleRecord) : Recorded :=
  ⟨known.modules.insert name (some r), known.files.add r.path⟩

/-- The known names after a tombstone was made. -/
def Recorded.bury (known : Recorded) (name : String) : Recorded :=
  { known with modules := known.modules.insert name none }

theorem leftOf_of_not_contains {edges : SortedMap String (SortedSet String)} {name : String}
    (h : ¬ edges.contains name = true) : leftOf edges name = .empty := by
  unfold leftOf
  rw [SortedMap.contains_eq_false.1 (by simpa using h)]
  rfl

theorem erase_eq_self {edges : SortedMap String (SortedSet String)} {name : String}
    (h : ¬ edges.contains name = true) : edges.erase name = edges := by
  apply SortedMap.ext_find?
  intro k
  rw [SortedMap.find?_erase]
  split
  next hk =>
    rw [hk]
    exact (SortedMap.contains_eq_false.1 (by simpa using h)).symm
  next => rfl

/-- One step for a name that gets a record, whether it has edges or not. -/
theorem recordAll_record {edges : SortedMap String (SortedSet String)} {name : String}
    {rest : List String} {known : Recorded} {r : ModuleRecord}
    (hn : ¬ known.modules.contains name = true) (hr : recordOf name (leftOf edges name) = some r) :
    recordAll recordOf edges (name :: rest) known =
      recordAll recordOf (edges.erase name) (rest ++ (leftOf edges name).toList)
        (known.add name r) := by
  rw [recordAll, if_neg hn]
  dsimp only
  rw [hr]
  dsimp only
  by_cases he : edges.contains name = true
  · rw [dif_pos he]
    rfl
  · rw [dif_neg he, erase_eq_self he, leftOf_of_not_contains he]
    simp [SortedSet.toList, SortedMap.keys, SortedMap.empty, Recorded.add]

theorem recordAll_bury {edges : SortedMap String (SortedSet String)} {name : String}
    {rest : List String} {known : Recorded} (hn : ¬ known.modules.contains name = true)
    (hr : recordOf name (leftOf edges name) = none) :
    recordAll recordOf edges (name :: rest) known =
      recordAll recordOf edges rest (known.bury name) := by
  rw [recordAll, if_neg hn]
  dsimp only
  rw [hr]
  rfl

/-- **What every step keeps holds when the queue is empty.** -/
theorem recordAll_invariant (recordOf : String → SortedSet String → Option ModuleRecord)
    {P : SortedMap String (SortedSet String) → List String → Recorded → Prop}
    (hknown : ∀ edges name rest known, known.modules.contains name = true →
      P edges (name :: rest) known → P edges rest known)
    (hbury : ∀ edges name rest known, ¬ known.modules.contains name = true →
      recordOf name (leftOf edges name) = none → P edges (name :: rest) known →
      P edges rest (known.bury name))
    (hrecord : ∀ edges name rest known r, ¬ known.modules.contains name = true →
      recordOf name (leftOf edges name) = some r → P edges (name :: rest) known →
      P (edges.erase name) (rest ++ (leftOf edges name).toList) (known.add name r))
    {edges : SortedMap String (SortedSet String)} {queue : List String} {known : Recorded}
    (h : P edges queue known) : ∃ left, P left [] (recordAll recordOf edges queue known) := by
  induction edges, queue, known using recordAll.induct recordOf with
  | case1 edges known =>
    rw [recordAll]
    exact ⟨edges, h⟩
  | case2 edges known name rest hn ih =>
    rw [recordAll, if_pos hn]
    exact ih (hknown _ _ _ _ hn h)
  | case3 edges known name rest hn ds hr ih =>
    rw [recordAll_bury hn hr]
    exact ih (hbury _ _ _ _ hn hr h)
  | case4 edges known name rest hn ds r hr known' he ih =>
    rw [recordAll_record hn hr]
    exact ih (hrecord _ _ _ _ _ hn hr h)
  | case5 edges known name rest hn ds r hr known' he ih =>
    have hstep := hrecord _ _ _ _ _ hn hr h
    have hnil : SortedSet.toList (SortedMap.empty : SortedSet String) = [] := rfl
    rw [recordAll_record hn hr]
    rw [erase_eq_self he, leftOf_of_not_contains he, hnil, List.append_nil] at hstep ⊢
    exact ih hstep

/-- The outcome of a recording that takes so many steps at most. The steps are counted so that it
can be evaluated. -/
def recordWithin (recordOf : String → SortedSet String → Option ModuleRecord) :
    Nat → SortedMap String (SortedSet String) → List String → Recorded → Option Recorded
  | _, _, [], known => some known
  | 0, _, _ :: _, _ => none
  | steps + 1, edges, name :: rest, known =>
    if known.modules.contains name then recordWithin recordOf steps edges rest known
    else
      match recordOf name (leftOf edges name) with
      | none => recordWithin recordOf steps edges rest (known.bury name)
      | some r =>
        recordWithin recordOf steps (edges.erase name) (rest ++ (leftOf edges name).toList)
          (known.add name r)

/-- What is recorded within some steps is what is recorded. -/
theorem recordAll_of_recordWithin {steps : Nat} {edges : SortedMap String (SortedSet String)}
    {queue : List String} {known out : Recorded}
    (h : recordWithin recordOf steps edges queue known = some out) :
    recordAll recordOf edges queue known = out := by
  induction steps generalizing edges queue known with
  | zero =>
    cases queue with
    | nil => rw [recordAll, ← Option.some.injEq, ← h, recordWithin]
    | cons name rest => exact absurd h (by simp [recordWithin])
  | succ steps ih =>
    cases queue with
    | nil => rw [recordAll, ← Option.some.injEq, ← h, recordWithin]
    | cons name rest =>
      rw [recordWithin] at h
      by_cases hn : known.modules.contains name = true
      · rw [if_pos hn] at h
        rw [recordAll, if_pos hn]
        exact ih h
      · rw [if_neg hn] at h
        cases hr : recordOf name (leftOf edges name) with
        | none =>
          rw [hr] at h
          rw [recordAll_bury hn hr]
          exact ih h
        | some r =>
          rw [hr] at h
          rw [recordAll_record hn hr]
          exact ih h

/-! ## The records -/

/-- What holds between the start of a recording and any later point of it: known entries stay,
a name that is still unknown has all its edges, and new entries are made from the traced ones. -/
structure Extends (recordOf : String → SortedSet String → Option ModuleRecord)
    (edges : SortedMap String (SortedSet String)) (known : Modules)
    (left : SortedMap String (SortedSet String)) (now : Modules) : Prop where
  keeps : ∀ n e, known.find? n = some e → now.find? n = some e
  untouched : ∀ n, now.find? n = none → left.find? n = edges.find? n
  made : ∀ n e, now.find? n = some e → known.find? n = some e ∨
    (known.find? n = none ∧ recordOf n (leftOf edges n) = e)

/-- A name that is still unknown was unknown before, and all its edges are left. -/
theorem Extends.of_unknown {edges left : SortedMap String (SortedSet String)} {known now : Modules}
    (h : Extends recordOf edges known left now) {name : String}
    (hn : ¬ now.contains name = true) :
    known.contains name = false ∧ leftOf left name = leftOf edges name := by
  have hnow : now.find? name = none := SortedMap.contains_eq_false.1 (by simpa using hn)
  constructor
  · rw [SortedMap.contains_eq_false]
    cases hk : known.find? name with
    | none => rfl
    | some e =>
      rw [h.keeps name e hk] at hnow
      exact absurd hnow (by simp)
  · unfold leftOf
    rw [h.untouched name hnow]

/-- An entry stays when a name is put in that was not there. -/
theorem find?_insert_of_known {modules : Modules} {name n : String} {e e' : ModuleEntry}
    (hn : ¬ modules.contains name = true) (h : modules.find? n = some e') :
    (modules.insert name e).find? n = some e' := by
  have hne : n ≠ name := by
    rintro rfl
    exact hn (SortedMap.contains_of_find? h)
  rw [SortedMap.find?_insert_of_ne hne, h]

theorem Extends.insert {edges left : SortedMap String (SortedSet String)} {known now : Modules}
    (h : Extends recordOf edges known left now) {name : String} {e : ModuleEntry}
    (hn : ¬ now.contains name = true) (he : recordOf name (leftOf left name) = e)
    {left' : SortedMap String (SortedSet String)}
    (hleft : ∀ n, n ≠ name → left'.find? n = left.find? n) :
    Extends recordOf edges known left' (now.insert name e) := by
  obtain ⟨hnew, hedges⟩ := h.of_unknown hn
  have hknown : known.find? name = none := SortedMap.contains_eq_false.1 hnew
  refine ⟨fun n e' hk => ?_, fun n hnone => ?_, fun n e' hs => ?_⟩
  · exact find?_insert_of_known hn (h.keeps n e' hk)
  · rw [SortedMap.find?_insert] at hnone
    by_cases heq : n = name
    · rw [if_pos heq] at hnone
      exact absurd hnone (by simp)
    · rw [if_neg heq] at hnone
      rw [hleft n heq, h.untouched n hnone]
  · rw [SortedMap.find?_insert] at hs
    by_cases heq : n = name
    · rw [if_pos heq, Option.some.injEq] at hs
      subst heq hs
      exact .inr ⟨hknown, by rw [← hedges, he]⟩
    · rw [if_neg heq] at hs
      exact h.made n e' hs

/-- **The invariant rule with the traced edges**: a name that is looked up was unknown from the start
and has all its traced dependencies left. -/
theorem recordAll_traced (recordOf : String → SortedSet String → Option ModuleRecord)
    (edges : SortedMap String (SortedSet String)) (queue : List String) (known : Recorded)
    {P : SortedMap String (SortedSet String) → List String → Recorded → Prop}
    (hknown : ∀ left name rest now, now.modules.contains name = true →
      P left (name :: rest) now → P left rest now)
    (hbury : ∀ left name rest now, ¬ now.modules.contains name = true →
      known.modules.contains name = false → recordOf name (leftOf edges name) = none →
      P left (name :: rest) now → P left rest (now.bury name))
    (hrecord : ∀ left name rest now r, ¬ now.modules.contains name = true →
      known.modules.contains name = false → leftOf left name = leftOf edges name →
      recordOf name (leftOf edges name) = some r → P left (name :: rest) now →
      P (left.erase name) (rest ++ (leftOf edges name).toList) (now.add name r))
    (h : P edges queue known) :
    ∃ left, Extends recordOf edges known.modules left
        (recordAll recordOf edges queue known).modules ∧
      P left [] (recordAll recordOf edges queue known) := by
  have hstart : Extends recordOf edges known.modules edges known.modules :=
    ⟨fun _ _ h => h, fun _ _ => rfl, fun _ _ h => .inl h⟩
  refine recordAll_invariant recordOf
    (P := fun left queue now => Extends recordOf edges known.modules left now.modules ∧
      P left queue now) ?_ ?_ ?_ ⟨hstart, h⟩
  · rintro left name rest now hn ⟨hext, h⟩
    exact ⟨hext, hknown left name rest now hn h⟩
  · rintro left name rest now hn hr ⟨hext, h⟩
    obtain ⟨hnew, hleft⟩ := hext.of_unknown hn
    exact ⟨hext.insert hn hr fun _ _ => rfl, hbury left name rest now hn hnew (hleft ▸ hr) h⟩
  · rintro left name rest now r hn hr ⟨hext, h⟩
    obtain ⟨hnew, hleft⟩ := hext.of_unknown hn
    refine ⟨hext.insert hn hr fun _ hne => SortedMap.find?_erase_of_ne hne, ?_⟩
    rw [hleft] at hr ⊢
    exact hrecord left name rest now r hn hnew hleft hr h

/-- **What recording adds**: it keeps every entry that was known, and makes each new one from the
traced dependencies of its name. -/
theorem extends_recordAll (recordOf : String → SortedSet String → Option ModuleRecord)
    (edges : SortedMap String (SortedSet String)) (queue : List String)
    (known : Recorded) :
    ∃ left, Extends recordOf edges known.modules left
      (recordAll recordOf edges queue known).modules := by
  obtain ⟨left, hext, -⟩ := recordAll_traced recordOf edges queue known
    (P := fun _ _ _ => True) (fun _ _ _ _ _ h => h) (fun _ _ _ _ _ _ _ h => h)
    (fun _ _ _ _ _ _ _ _ _ h => h) trivial
  exact ⟨left, hext⟩

end Scan

end QmlStubs
