import Mathlib.Algebra.GroupWithZero.Nat
import Mathlib.Algebra.Order.BigOperators.Group.List
import Mathlib.Algebra.Order.Group.Nat
import Mathlib.Logic.Function.Iterate
import QmlStubs.Proofs.FileIndex
import QmlStubs.Proofs.Importing
import QmlStubs.Proofs.Recording

/-!
# Which names a recording adds

`Scan.recordAll` works through a queue that may hold a name many times, over edges that may go round
in circles, and what it has recorded so far decides what it does next. What comes out of it depends on
none of this:

> **a recording adds the least set of unknown names that has the roots in it and, with a name that
> gets a record, the traced dependencies of that name** (`recording_adds_least_set`).

`IsAdded` is this set, as an inductive predicate. The invariant of the queue is `Adds`: the names that
are queued or recorded are in the set, and what has to be in it because of a recorded name is recorded
or queued. From there on it is a matter of look-ups which entry each name has (`find?_recordAll`), that
nothing a record depends on is unknown (`closed_recordAll`), that the order of the roots does not
count, and that roots can be followed one at a time (`agrees_recordEach`). The files that are listed
are those of the new records (`Lists`).

The edges of a name are taken out of the trace when it is recorded, which is what makes the recursion
end. A loop that leaves the trace as it is takes the same names (`iterate_visit`).
-/

set_option autoImplicit false

namespace QmlStubs

namespace Scan

open Modules

variable {recordOf : String → SortedSet String → Option ModuleRecord}
  {edges left : SortedMap String (SortedSet String)} {before now : Modules}
  {roots queue rest : List String} {name : String} {known : Recorded}

/-! ## The least set -/

/-- The names that a recording adds to the known ones. A name without a record leads to no other
one. -/
inductive IsAdded (recordOf : String → SortedSet String → Option ModuleRecord)
    (edges : SortedMap String (SortedSet String)) (before : Modules) (roots : List String) :
    String → Prop where
  | root {name : String} (hroot : name ∈ roots) (hnew : before.contains name = false) :
    IsAdded recordOf edges before roots name
  | dependency {name d : String} {r : ModuleRecord}
    (hname : IsAdded recordOf edges before roots name)
    (hrecord : recordOf name (leftOf edges name) = some r)
    (hd : d ∈ (leftOf edges name).toList) (hnew : before.contains d = false) :
    IsAdded recordOf edges before roots d

theorem IsAdded.isNew (h : IsAdded recordOf edges before roots name) :
    before.contains name = false := by
  cases h with
  | root _ hnew => exact hnew
  | dependency _ _ _ hnew => exact hnew

/-- More roots add more names. -/
theorem IsAdded.mono {roots' : List String} (hroots : ∀ n ∈ roots, n ∈ roots')
    (h : IsAdded recordOf edges before roots name) :
    IsAdded recordOf edges before roots' name := by
  induction h with
  | root hroot hnew => exact .root (hroots _ hroot) hnew
  | dependency _ hrecord hd hnew ih => exact .dependency ih hrecord hd hnew

/-! ## The invariant of the queue -/

/-- What holds at any point of a recording: a name that is queued or recorded is known from before or
is to be added, and what is to be added because of the roots or of a recorded name is recorded or
queued. -/
structure Adds (recordOf : String → SortedSet String → Option ModuleRecord)
    (edges : SortedMap String (SortedSet String)) (before : Modules) (roots queue : List String)
    (now : Modules) : Prop where
  queued : ∀ n ∈ queue, before.contains n = false → IsAdded recordOf edges before roots n
  recorded : ∀ n, now.contains n = true → before.contains n = false →
    IsAdded recordOf edges before roots n
  rooted : ∀ n ∈ roots, now.contains n = true ∨ n ∈ queue
  closed : ∀ n r d, now.contains n = true → before.contains n = false →
    recordOf n (leftOf edges n) = some r → d ∈ (leftOf edges n).toList →
    now.contains d = true ∨ d ∈ queue

/-- A queued name that is known is dropped. -/
theorem Adds.drop (h : Adds recordOf edges before roots (name :: rest) now)
    (hname : now.contains name = true) : Adds recordOf edges before roots rest now := by
  have hleft : ∀ {n : String}, now.contains n = true ∨ n ∈ name :: rest →
      now.contains n = true ∨ n ∈ rest := by
    rintro n (hn | hn)
    · exact .inl hn
    · rcases List.mem_cons.1 hn with rfl | hn
      · exact .inl hname
      · exact .inr hn
  refine ⟨?_, h.recorded, ?_, ?_⟩
  · intro n hn
    exact h.queued n (List.mem_cons_of_mem _ hn)
  · intro n hn
    exact hleft (h.rooted n hn)
  · intro n r d hn hnew hr hd
    exact hleft (h.closed n r d hn hnew hr hd)

/-- **One entry more**: a queued name is recorded, and if it has a record then its dependencies are
queued in its place. -/
theorem Adds.insert (h : Adds recordOf edges before roots (name :: rest) now)
    (hnew : before.contains name = false) {e : ModuleEntry} {more : List String}
    (hmore : ∀ d ∈ more, ∃ r, recordOf name (leftOf edges name) = some r ∧
      d ∈ (leftOf edges name).toList)
    (hall : ∀ r, recordOf name (leftOf edges name) = some r →
      ∀ d ∈ (leftOf edges name).toList, d ∈ more) :
    Adds recordOf edges before roots (rest ++ more) (now.insert name e) := by
  have hname : IsAdded recordOf edges before roots name :=
    h.queued name (List.mem_cons_self ..) hnew
  have hkept : ∀ {n : String}, now.contains n = true ∨ n ∈ name :: rest →
      (now.insert name e).contains n = true ∨ n ∈ rest ++ more := by
    rintro n (hn | hn)
    · exact .inl (SortedMap.contains_insert.2 (.inr hn))
    · rcases List.mem_cons.1 hn with rfl | hn
      · exact .inl (SortedMap.contains_insert.2 (.inl rfl))
      · exact .inr (List.mem_append_left _ hn)
  refine ⟨?_, ?_, ?_, ?_⟩
  · intro n hn hn'
    rcases List.mem_append.1 hn with hn | hn
    · exact h.queued n (List.mem_cons_of_mem _ hn) hn'
    · obtain ⟨r, hr, hd⟩ := hmore n hn
      exact .dependency hname hr hd hn'
  · intro n hn hn'
    rcases SortedMap.contains_insert.1 hn with rfl | hn
    · exact hname
    · exact h.recorded n hn hn'
  · intro n hn
    exact hkept (h.rooted n hn)
  · intro n r d hn hn' hr hd
    rcases SortedMap.contains_insert.1 hn with rfl | hn
    · exact .inr (List.mem_append_right _ (hall r hr d hd))
    · exact hkept (h.closed n r d hn hn' hr hd)

/-- With nothing left in the queue, the names to be added are recorded. -/
theorem Adds.contains_of_isAdded (h : Adds recordOf edges before roots [] now)
    (hname : IsAdded recordOf edges before roots name) : now.contains name = true := by
  induction hname with
  | root hroot _ => exact (h.rooted _ hroot).resolve_right List.not_mem_nil
  | dependency hname hrecord hd _ ih =>
    exact (h.closed _ _ _ ih hname.isNew hrecord hd).resolve_right List.not_mem_nil

/-- **The names that are known after a recording** were known before or are added. -/
theorem contains_recordAll_iff (recordOf : String → SortedSet String → Option ModuleRecord)
    (edges : SortedMap String (SortedSet String)) (roots : List String) (known : Recorded) :
    (recordAll recordOf edges roots known).modules.contains name = true ↔
      known.modules.contains name = true ∨ IsAdded recordOf edges known.modules roots name := by
  have hstart : Adds recordOf edges known.modules roots roots known.modules := by
    refine ⟨fun n hn hnew => .root hn hnew, ?_, fun n hn => .inr hn, ?_⟩
    · intro n hn hnew
      exact absurd (hn.symm.trans hnew) (by simp)
    · intro n r d hn hnew
      exact absurd (hn.symm.trans hnew) (by simp)
  obtain ⟨left, hext, hfinal⟩ := recordAll_traced recordOf edges roots known
    (P := fun _ queue now => Adds recordOf edges known.modules roots queue now.modules)
    (fun _ _ _ _ hn h => h.drop hn)
    (fun _ name rest now _ hnew hr h => by
      have hinsert : Adds recordOf edges known.modules roots (rest ++ [])
          (now.modules.insert name none) :=
        h.insert hnew (fun d hd => absurd hd List.not_mem_nil)
          (fun r hr' => absurd (hr.symm.trans hr') (by simp))
      rwa [List.append_nil] at hinsert)
    (fun _ _ _ _ r _ hnew _ hr h =>
      h.insert hnew (fun d hd => ⟨r, hr, hd⟩) fun _ _ _ hd => hd)
    hstart
  constructor
  · intro hname
    cases hnew : known.modules.contains name with
    | true => exact .inl rfl
    | false => exact .inr (hfinal.recorded name hname hnew)
  · rintro (hold | hadded)
    · obtain ⟨e, he⟩ := SortedMap.contains_iff.1 hold
      exact SortedMap.contains_of_find? (hext.keeps name e he)
    · exact hfinal.contains_of_isAdded hadded

/-- **The entries after a recording**: those that were known, and for each added name what its traced
dependencies make of it. -/
theorem find?_recordAll (recordOf : String → SortedSet String → Option ModuleRecord)
    (edges : SortedMap String (SortedSet String)) (roots : List String) (known : Recorded)
    {e : ModuleEntry} :
    (recordAll recordOf edges roots known).modules.find? name = some e ↔
      known.modules.find? name = some e ∨
        (IsAdded recordOf edges known.modules roots name ∧
          recordOf name (leftOf edges name) = e) := by
  obtain ⟨left, hext⟩ := extends_recordAll recordOf edges roots known
  constructor
  · intro he
    rcases hext.made name e he with hold | ⟨hnew, hmade⟩
    · exact .inl hold
    · have hnot : ¬ known.modules.contains name = true := by
        simp [SortedMap.contains_eq_false.2 hnew]
      have hadded := (contains_recordAll_iff recordOf edges roots known).1
        (SortedMap.contains_of_find? he)
      exact .inr ⟨hadded.resolve_left hnot, hmade⟩
  · rintro (hold | ⟨hadded, hmade⟩)
    · exact hext.keeps name e hold
    · obtain ⟨e', he'⟩ := SortedMap.contains_iff.1
        ((contains_recordAll_iff recordOf edges roots known).2 (.inr hadded))
      rcases hext.made name e' he' with hold | ⟨-, hmade'⟩
      · have hnew := hadded.isNew
        rw [SortedMap.contains_of_find? hold] at hnew
        exact absurd hnew (by simp)
      · rw [he', ← hmade, hmade']

/-- The records keep the dependencies that they are made with. -/
def KeepsDependencies (recordOf : String → SortedSet String → Option ModuleRecord) : Prop :=
  ∀ name ds r, recordOf name ds = some r → r.dependencies = ds

/-- **A recording on top of closed modules is closed.** -/
theorem closed_recordAll (hrec : KeepsDependencies recordOf)
    (edges : SortedMap String (SortedSet String)) (roots : List String)
    (hclosed : Closed known.modules) :
    Closed (recordAll recordOf edges roots known).modules := by
  rintro a b ⟨r, hr, hb⟩
  rw [contains_recordAll_iff]
  cases hnew : known.modules.contains b with
  | true => exact .inl rfl
  | false =>
    rcases (find?_recordAll recordOf edges roots known).1 hr with hold | ⟨hadded, hmade⟩
    · rw [hclosed a b ⟨r, hold, hb⟩] at hnew
      exact absurd hnew (by simp)
    · rw [hrec _ _ _ hmade] at hb
      exact .inr (.dependency hadded hmade hb hnew)

/-! ## The recorded files -/

/-- The files at some point of a recording are those that were listed before and the paths of the
records that were made. -/
structure Lists (start now : Recorded) : Prop where
  keeps : ∀ cs, start.files.contains cs = true → now.files.contains cs = true
  made : ∀ n r, start.modules.contains n = false → now.modules.find? n = some (some r) →
    now.files.has r.path = true
  only : ∀ cs p, now.files.find? cs = some p → start.files.find? cs = some p ∨
    ∃ n r, start.modules.contains n = false ∧ now.modules.find? n = some (some r) ∧
      r.path = p ∧ p.components = cs

/-- A tombstone lists no file. -/
theorem Lists.bury {start now : Recorded} (h : Lists start now)
    (hn : ¬ now.modules.contains name = true) : Lists start (now.bury name) := by
  refine ⟨h.keeps, ?_, ?_⟩
  · intro n r hnew hr
    have hfind : (now.modules.insert name none).find? n = some (some r) := hr
    rw [SortedMap.find?_insert] at hfind
    by_cases heq : n = name
    · rw [if_pos heq] at hfind
      exact absurd hfind (by simp)
    · rw [if_neg heq] at hfind
      exact h.made n r hnew hfind
  · intro cs p hp
    rcases h.only cs p hp with hstart | ⟨n, r, hnew, hr, hpath⟩
    · exact .inl hstart
    · exact .inr ⟨n, r, hnew, find?_insert_of_known hn hr, hpath⟩

/-- A new record lists its path. -/
theorem Lists.add {start now : Recorded} (h : Lists start now)
    (hn : ¬ now.modules.contains name = true) (hnew : start.modules.contains name = false)
    (r : ModuleRecord) : Lists start (now.add name r) := by
  refine ⟨?_, ?_, ?_⟩
  · intro cs hcs
    exact PathSet.contains_add.2 (.inr (h.keeps cs hcs))
  · intro n r' hn' hr'
    have hfind : (now.modules.insert name (some r)).find? n = some (some r') := hr'
    rw [SortedMap.find?_insert] at hfind
    by_cases heq : n = name
    · rw [if_pos heq, Option.some.injEq, Option.some.injEq] at hfind
      rw [← hfind]
      exact PathSet.contains_add.2 (.inl rfl)
    · rw [if_neg heq] at hfind
      exact PathSet.contains_add.2 (.inr (h.made n r' hn' hfind))
  · intro cs p hp
    rcases PathSet.find?_add hp with hp | ⟨rfl, hcs⟩
    · rcases h.only cs p hp with hstart | ⟨n, r', hn', hr', hpath⟩
      · exact .inl hstart
      · exact .inr ⟨n, r', hn', find?_insert_of_known hn hr', hpath⟩
    · exact .inr ⟨name, r, hnew, SortedMap.find?_insert_self, rfl, hcs⟩

/-- **A recording lists the paths of the records that it makes.** -/
theorem lists_recordAll (recordOf : String → SortedSet String → Option ModuleRecord)
    (edges : SortedMap String (SortedSet String)) (roots : List String) (known : Recorded) :
    Lists known (recordAll recordOf edges roots known) := by
  have hstart : Lists known known := by
    refine ⟨fun _ h => h, ?_, fun _ _ h => .inl h⟩
    intro n r hnew hr
    rw [SortedMap.contains_of_find? hr] at hnew
    exact absurd hnew (by simp)
  obtain ⟨left, -, hlists⟩ := recordAll_traced recordOf edges roots known
    (P := fun _ _ now => Lists known now)
    (fun _ _ _ _ _ h => h)
    (fun _ _ _ _ hn _ _ h => h.bury hn)
    (fun _ _ _ _ r hn hnew _ _ h => h.add hn hnew r)
    hstart
  exact hlists

/-- A file is listed after a recording when it was listed before or is the file of an added name. -/
theorem has_files_recordAll (recordOf : String → SortedSet String → Option ModuleRecord)
    (edges : SortedMap String (SortedSet String)) (roots : List String) (known : Recorded)
    {p : Path} :
    (recordAll recordOf edges roots known).files.has p = true ↔ known.files.has p = true ∨
      ∃ n r, IsAdded recordOf edges known.modules roots n ∧
        recordOf n (leftOf edges n) = some r ∧ r.path.same p = true := by
  have hlists := lists_recordAll recordOf edges roots known
  constructor
  · intro hp
    obtain ⟨q, hq⟩ := SortedMap.contains_iff.1 hp
    rcases hlists.only _ q hq with hstart | ⟨n, r, hnew, hr, rfl, hcs⟩
    · exact .inl (SortedMap.contains_of_find? hstart)
    · rcases (find?_recordAll recordOf edges roots known).1 hr with hold | ⟨hadded, hmade⟩
      · rw [SortedMap.contains_of_find? hold] at hnew
        exact absurd hnew (by simp)
      · exact .inr ⟨n, r, hadded, hmade, beq_iff_eq.2 hcs⟩
  · rintro (hold | ⟨n, r, hadded, hmade, hsame⟩)
    · exact hlists.keeps _ hold
    · have hr := (find?_recordAll recordOf edges roots known).2 (.inr ⟨hadded, hmade⟩)
      have hhas := hlists.made n r hadded.isNew hr
      unfold PathSet.has at hhas ⊢
      rwa [← eq_of_beq hsame]

/-! ## The order of the roots -/

/-- The same modules and the same files. As everywhere, paths are told apart by their components. -/
structure Recorded.Agrees (a b : Recorded) : Prop where
  modules : a.modules = b.modules
  files : ∀ p, a.files.has p = b.files.has p

theorem Recorded.Agrees.trans {a b c : Recorded} (h : a.Agrees b) (h' : b.Agrees c) :
    a.Agrees c :=
  ⟨h.modules.trans h'.modules, fun p => (h.files p).trans (h'.files p)⟩

/-- **The order of the roots does not count**, nor how often one is named. -/
theorem agrees_of_mem (recordOf : String → SortedSet String → Option ModuleRecord)
    (edges : SortedMap String (SortedSet String)) (known : Recorded) {others : List String}
    (h : ∀ n, n ∈ others ↔ n ∈ roots) :
    (recordAll recordOf edges others known).Agrees (recordAll recordOf edges roots known) := by
  have hadded : ∀ n, IsAdded recordOf edges known.modules others n ↔
      IsAdded recordOf edges known.modules roots n := by
    intro n
    exact ⟨.mono fun m hm => (h m).1 hm, .mono fun m hm => (h m).2 hm⟩
  constructor
  · apply SortedMap.ext_find?
    intro n
    apply Option.ext
    intro e
    rw [find?_recordAll, find?_recordAll, hadded]
  · intro p
    rw [Bool.eq_iff_iff, has_files_recordAll, has_files_recordAll]
    simp only [hadded]

/-- What more roots add is added by the first ones, or by the others to what these have left. -/
theorem isAdded_append (recordOf : String → SortedSet String → Option ModuleRecord)
    (edges : SortedMap String (SortedSet String)) (known : Recorded) (first more : List String) :
    IsAdded recordOf edges known.modules (first ++ more) name ↔
      IsAdded recordOf edges known.modules first name ∨
        IsAdded recordOf edges (recordAll recordOf edges first known).modules more name := by
  -- A name that was not known is known after the first roots when they add it.
  have hafter : ∀ {n : String}, known.modules.contains n = false →
      IsAdded recordOf edges known.modules first n ∨
        (recordAll recordOf edges first known).modules.contains n = false := by
    intro n hnew
    cases hc : (recordAll recordOf edges first known).modules.contains n with
    | false => exact .inr rfl
    | true =>
      have hnot : ¬ known.modules.contains n = true := by simp [hnew]
      exact .inl (((contains_recordAll_iff recordOf edges first known).1 hc).resolve_left hnot)
  have hbefore : ∀ {n : String},
      (recordAll recordOf edges first known).modules.contains n = false →
        known.modules.contains n = false := by
    intro n hn
    rw [← Bool.not_eq_true] at hn ⊢
    exact fun hold => hn ((contains_recordAll_iff recordOf edges first known).2 (.inl hold))
  constructor
  · intro h
    induction h with
    | root hroot hnew =>
      rcases hafter hnew with hadded | hleft
      · exact .inl hadded
      · rcases List.mem_append.1 hroot with hroot | hroot
        · exact .inl (.root hroot hnew)
        · exact .inr (.root hroot hleft)
    | dependency _ hrecord hd hnew ih =>
      rcases ih with ih | ih
      · exact .inl (.dependency ih hrecord hd hnew)
      · rcases hafter hnew with hadded | hleft
        · exact .inl hadded
        · exact .inr (.dependency ih hrecord hd hleft)
  · rintro (h | h)
    · exact h.mono fun n hn => List.mem_append_left _ hn
    · induction h with
      | root hroot hnew => exact .root (List.mem_append_right _ hroot) (hbefore hnew)
      | dependency _ hrecord hd hnew ih => exact .dependency ih hrecord hd (hbefore hnew)

/-- Roots can be followed in two parts. -/
theorem agrees_append (recordOf : String → SortedSet String → Option ModuleRecord)
    (edges : SortedMap String (SortedSet String)) (known : Recorded) (first more : List String) :
    (recordAll recordOf edges more (recordAll recordOf edges first known)).Agrees
      (recordAll recordOf edges (first ++ more) known) := by
  constructor
  · apply SortedMap.ext_find?
    intro n
    apply Option.ext
    intro e
    rw [find?_recordAll, find?_recordAll, find?_recordAll, isAdded_append, or_and_right, or_assoc]
  · intro p
    rw [Bool.eq_iff_iff, has_files_recordAll, has_files_recordAll, has_files_recordAll]
    simp only [isAdded_append, or_and_right, exists_or, or_assoc]

/-- Follow the roots one after another, each with all that it leads to. -/
def recordEach (recordOf : String → SortedSet String → Option ModuleRecord)
    (edges : SortedMap String (SortedSet String)) (roots : List String) (known : Recorded) :
    Recorded :=
  roots.foldl (fun known root => recordAll recordOf edges [root] known) known

/-- **Roots can be followed one at a time.** -/
theorem agrees_recordEach (recordOf : String → SortedSet String → Option ModuleRecord)
    (edges : SortedMap String (SortedSet String)) (roots : List String) (known : Recorded) :
    (recordEach recordOf edges roots known).Agrees (recordAll recordOf edges roots known) := by
  induction roots generalizing known with
  | nil =>
    rw [recordAll]
    exact ⟨rfl, fun _ => rfl⟩
  | cons root rest ih =>
    show (recordEach recordOf edges rest (recordAll recordOf edges [root] known)).Agrees _
    exact (ih _).trans (agrees_append recordOf edges known [root] rest)

/-! ## The loop -/

/-- The names of a queue that are not known. -/
def unknownIn (modules : Modules) (queue : List String) : List String :=
  queue.filter fun n => !modules.contains n

/-- Look at the first name of a queue. The edges stay as they are, and dependencies that are known
are not queued. -/
def visit (recordOf : String → SortedSet String → Option ModuleRecord)
    (edges : SortedMap String (SortedSet String)) : List String × Recorded → List String × Recorded
  | ([], known) => ([], known)
  | (name :: rest, known) =>
    if known.modules.contains name then (rest, known)
    else
      match recordOf name (leftOf edges name) with
      | none => (rest, known.bury name)
      | some r => (rest ++ unknownIn known.modules (leftOf edges name).toList, known.add name r)

/-- Number of all edges. -/
def edgeCount (edges : SortedMap String (SortedSet String)) : Nat :=
  (edges.values.map SortedMap.size).sum

/-- With a name its edges go. -/
theorem edgeCount_erase (edges : SortedMap String (SortedSet String)) (name : String) :
    (leftOf edges name).toList.length + edgeCount (edges.erase name) ≤ edgeCount edges := by
  have hlength : (leftOf edges name).toList.length = (leftOf edges name).size := List.length_map _
  rw [hlength]
  unfold leftOf SortedMap.find? edgeCount SortedMap.values SortedMap.erase SortedMap.filter
  dsimp only
  induction edges.entries with
  | nil => simp [SortedMap.findEntry, SortedMap.size, SortedMap.empty]
  | cons e l ih =>
    by_cases hname : name = e.1
    · have hless : ((l.filter fun e => compare name e.1 != .eq).map (·.2.size)).sum ≤
          (l.map (·.2.size)).sum :=
        List.Sublist.sum_le_sum (List.filter_sublist.map _) (by simp)
      simpa [SortedMap.findEntry, hname, Function.comp_def] using hless
    · simp [SortedMap.findEntry, hname, Function.comp_def] at ih ⊢
      omega

/-- What is unknown with one entry more was unknown without it. -/
theorem unknownIn_insert (modules : Modules) (name : String) (e : ModuleEntry)
    (queue : List String) :
    unknownIn (modules.insert name e) (unknownIn modules queue) =
      unknownIn (modules.insert name e) queue := by
  unfold unknownIn
  rw [List.filter_filter]
  apply List.filter_congr
  intro n _
  cases hn : modules.contains n with
  | false => simp
  | true => simp [SortedMap.contains_insert.2 (.inr hn)]

/-- Known names are passed over. -/
theorem iterate_visit_known {skipped : List String}
    (h : ∀ n ∈ skipped, known.modules.contains n = true) :
    (visit recordOf edges)^[skipped.length] (skipped ++ rest, known) = (rest, known) := by
  induction skipped with
  | nil => rfl
  | cons n skipped ih =>
    have hstep : visit recordOf edges (n :: skipped ++ rest, known) = (skipped ++ rest, known) := by
      simp [visit, h n (List.mem_cons_self ..)]
    rw [List.length_cons, Function.iterate_succ_apply, hstep]
    exact ih fun m hm => h m (List.mem_cons_of_mem _ hm)

/-- The loop has come as far as a recording, in no more steps than there were names in the queue and
edges to follow. Its own queue has the same unknown names. -/
def HasVisited (recordOf : String → SortedSet String → Option ModuleRecord)
    (edges : SortedMap String (SortedSet String)) (start : List String × Recorded)
    (left : SortedMap String (SortedSet String)) (queue : List String) (now : Recorded) : Prop :=
  ∃ steps own, steps + own.length + edgeCount left ≤ start.1.length + edgeCount edges ∧
    (visit recordOf edges)^[steps] start = (own, now) ∧
    unknownIn now.modules own = unknownIn now.modules queue

/-- The loop comes to the next unknown name. -/
theorem HasVisited.next {start : List String × Recorded} {now : Recorded}
    (h : HasVisited recordOf edges start left (name :: rest) now)
    (hn : ¬ now.modules.contains name = true) :
    ∃ steps own, steps + 1 + own.length + edgeCount left ≤ start.1.length + edgeCount edges ∧
      (visit recordOf edges)^[steps] start = (name :: own, now) ∧
      unknownIn now.modules own = unknownIn now.modules rest := by
  obtain ⟨steps, own, hbound, hsteps, hsame⟩ := h
  unfold unknownIn at hsame
  rw [List.filter_cons_of_pos (by simpa using hn), List.filter_eq_cons_iff] at hsame
  obtain ⟨skipped, more, rfl, hskipped, -, hmore⟩ := hsame
  refine ⟨skipped.length + steps, more, ?_, ?_, hmore⟩
  · simp only [List.length_append, List.length_cons] at hbound
    omega
  · rw [Function.iterate_add_apply, hsteps]
    exact iterate_visit_known fun n hn => by simpa using hskipped n hn

theorem HasVisited.bury {start : List String × Recorded} {now : Recorded}
    (h : HasVisited recordOf edges start left (name :: rest) now)
    (hn : ¬ now.modules.contains name = true) (hr : recordOf name (leftOf edges name) = none) :
    HasVisited recordOf edges start left rest (now.bury name) := by
  obtain ⟨steps, own, hbound, hsteps, hsame⟩ := h.next hn
  refine ⟨steps + 1, own, hbound, ?_, ?_⟩
  · rw [Function.iterate_succ_apply', hsteps]
    simp [visit, hn, hr]
  · show unknownIn (now.modules.insert name none) own = unknownIn (now.modules.insert name none) rest
    rw [← unknownIn_insert, hsame, unknownIn_insert]

/-- **A record costs no more steps than the edges it uses up.** -/
theorem HasVisited.add {start : List String × Recorded} {now : Recorded} {r : ModuleRecord}
    (h : HasVisited recordOf edges start left (name :: rest) now)
    (hn : ¬ now.modules.contains name = true) (hleft : leftOf left name = leftOf edges name)
    (hr : recordOf name (leftOf edges name) = some r) :
    HasVisited recordOf edges start (left.erase name) (rest ++ (leftOf edges name).toList)
      (now.add name r) := by
  obtain ⟨steps, own, hbound, hsteps, hsame⟩ := h.next hn
  refine ⟨steps + 1, own ++ unknownIn now.modules (leftOf edges name).toList, ?_, ?_, ?_⟩
  · have hcount := edgeCount_erase left name
    have hfewer : (unknownIn now.modules (leftOf edges name).toList).length ≤
        (leftOf edges name).toList.length := List.length_filter_le _ _
    rw [hleft] at hcount
    rw [List.length_append]
    omega
  · rw [Function.iterate_succ_apply', hsteps]
    simp [visit, hn, hr]
  · show unknownIn (now.modules.insert name (some r)) _ =
      unknownIn (now.modules.insert name (some r)) _
    have hown : unknownIn (now.modules.insert name (some r)) own =
        unknownIn (now.modules.insert name (some r)) rest := by
      rw [← unknownIn_insert, hsame, unknownIn_insert]
    have happend : ∀ modules (xs ys : List String),
        unknownIn modules (xs ++ ys) = unknownIn modules xs ++ unknownIn modules ys :=
      fun _ _ _ => List.filter_append ..
    rw [happend, happend, hown, unknownIn_insert]

/-- **The loop ends**, however the edges run, and what is known then is what is recorded. It takes one
step at most for each name that is queued at first and for each edge. -/
theorem iterate_visit (recordOf : String → SortedSet String → Option ModuleRecord)
    (edges : SortedMap String (SortedSet String)) (queue : List String) (known : Recorded) :
    ∃ steps ≤ queue.length + edgeCount edges,
      (visit recordOf edges)^[steps] (queue, known) =
        ([], recordAll recordOf edges queue known) := by
  have hstart : HasVisited recordOf edges (queue, known) edges queue known :=
    ⟨0, queue, by simp, rfl, rfl⟩
  obtain ⟨left, -, steps, own, hbound, hsteps, hsame⟩ := recordAll_traced recordOf edges queue known
    (P := HasVisited recordOf edges (queue, known))
    (fun _ name rest now hn ⟨steps, own, hbound, hsteps, hsame⟩ => by
      refine ⟨steps, own, hbound, hsteps, hsame.trans ?_⟩
      exact List.filter_cons_of_neg (by simpa using hn))
    (fun _ _ _ _ hn _ hr h => h.bury hn hr)
    (fun _ _ _ _ _ hn _ hleft hr h => h.add hn hleft hr)
    hstart
  -- What the loop still has in its queue is known.
  have hrest : ∀ n ∈ own,
      (recordAll recordOf edges queue known).modules.contains n = true := by
    unfold unknownIn at hsame
    rw [List.filter_nil, List.filter_eq_nil_iff] at hsame
    intro n hn
    simpa using hsame n hn
  refine ⟨own.length + steps, by dsimp only at hbound; omega, ?_⟩
  have hlast : (visit recordOf edges)^[own.length]
      (own ++ [], recordAll recordOf edges queue known) =
        ([], recordAll recordOf edges queue known) := iterate_visit_known hrest
  rw [List.append_nil] at hlast
  rw [Function.iterate_add_apply, hsteps]
  exact hlast

/-! ## What is recorded of loaded modules -/

section Loaded

variable {σ : Type} {imp : Importer σ} {s : σ} {t : FileTree}

/-- A record that is made of a loaded module has the time of its file. -/
theorem recordOf?_eq_some {name : String} {ds : SortedSet String} {r : ModuleRecord}
    (h : recordOf? imp s t name ds = some r) :
    t.modified? r.path = some r.modified ∧ r.dependencies = ds := by
  unfold recordOf? at h
  simp only [Option.bind_eq_bind, Option.bind_eq_some_iff, Option.pure_def,
    Option.some.injEq] at h
  obtain ⟨_, -, _, -, _, htime, rfl⟩ := h
  exact ⟨htime, rfl⟩

theorem keepsDependencies_recordOf? : KeepsDependencies (recordOf? imp s t) :=
  fun _ _ _ h => (recordOf?_eq_some h).2

/-- **A name has a record** when it is loaded from a file that is there and has a time. The record has
the path of the file without links, its time, and the given dependencies. -/
theorem recordOf?_eq_some_iff {ds : SortedSet String} {r : ModuleRecord} :
    recordOf? imp s t name ds = some r ↔ ∃ p, imp.IsLoadedFrom s name p ∧
      t.canonical? p = .ok r.path ∧ t.modified? r.path = some r.modified ∧ r.dependencies = ds := by
  constructor
  · intro h
    obtain ⟨p, hp, hpath⟩ := exists_isLoadedFrom_of_record h
    obtain ⟨htime, hdependencies⟩ := recordOf?_eq_some h
    refine ⟨p, hp, ?_, htime, hdependencies⟩
    unfold FileTree.canonicalOr at hpath
    cases hcanonical : t.canonical? p with
    | ok q =>
      rw [hcanonical] at hpath
      rw [hpath]
    | error e =>
      -- A path that leads nowhere stands for itself, and has no time.
      rw [hcanonical] at hpath
      have hnowhere : t.place? p = .error e := by
        unfold FileTree.canonical? at hcanonical
        cases hplace : t.place? p with
        | ok q =>
          rw [hplace] at hcanonical
          exact absurd hcanonical (by simp [Except.map])
        | error e' =>
          rw [hplace] at hcanonical
          exact congrArg Except.error (Except.error.inj hcanonical)
      rw [hpath] at htime
      unfold FileTree.modified? at htime
      rw [hnowhere] at htime
      exact absurd htime (by simp)
  · rintro ⟨p, ⟨m, hm, hfile⟩, hcanonical, htime, rfl⟩
    have hpath : t.canonicalOr p = r.path := by
      unfold FileTree.canonicalOr
      rw [hcanonical]
    unfold recordOf?
    simp [hm, hfile, hpath, htime]

/-- **A recording adds the least set of names**, for all known entries, roots, traced edges and
importers.

The loop over a queue ends, however the edges run. Known entries stay as they are. The names that
are added are those of `IsAdded`, and each of them has a record if it is loaded from a file that is
there and has a time, with the path of that file without links, its time, and the traced dependencies
of the name; otherwise it is a tombstone. The recorded files are the paths of the new records. Neither
the order of the roots counts, nor how often one is named, nor whether they are followed together or
one after another. -/
theorem recording_adds_least_set {σ : Type} (imp : Importer σ) (s : σ) (t : FileTree)
    (trace : Trace) (before : Modules) (roots : List String) :
    let recordOf := recordOf? imp s t
    let after := recordAll recordOf trace.edges roots ⟨before, .empty⟩
    (∀ queue known, ∃ steps ≤ queue.length + edgeCount trace.edges,
      (visit recordOf trace.edges)^[steps] (queue, known) =
        ([], recordAll recordOf trace.edges queue known)) ∧
    (∀ name e, before.find? name = some e → after.modules.find? name = some e) ∧
    (∀ name, before.contains name = false ∧ after.modules.contains name = true ↔
      IsAdded recordOf trace.edges before roots name) ∧
    (∀ name e, before.contains name = false → after.modules.find? name = some e →
      ∀ record, e = some record ↔ ∃ p, imp.IsLoadedFrom s name p ∧
        t.canonical? p = .ok record.path ∧ t.modified? record.path = some record.modified ∧
        record.dependencies = trace.dependenciesOf name) ∧
    ((∀ p ∈ after.files.toList, ∃ name record, before.contains name = false ∧
        after.modules.find? name = some (some record) ∧ record.path = p) ∧
      ∀ name record, before.contains name = false →
        after.modules.find? name = some (some record) → after.files.has record.path = true) ∧
    ∀ others, (∀ name, name ∈ others ↔ name ∈ roots) →
      (recordAll recordOf trace.edges others ⟨before, .empty⟩).Agrees after ∧
      (recordEach recordOf trace.edges others ⟨before, .empty⟩).Agrees after := by
  intro recordOf after
  have hlists : Lists ⟨before, .empty⟩ after := lists_recordAll recordOf trace.edges roots _
  refine ⟨iterate_visit recordOf trace.edges, ?_, ?_, ?_, ⟨?_, hlists.made⟩, ?_⟩
  · intro name e he
    exact (find?_recordAll recordOf trace.edges roots ⟨before, .empty⟩).2 (.inl he)
  · intro name
    have hcontains : after.modules.contains name = true ↔
        before.contains name = true ∨ IsAdded recordOf trace.edges before roots name :=
      contains_recordAll_iff recordOf trace.edges roots ⟨before, .empty⟩
    constructor
    · rintro ⟨hnew, hname⟩
      exact (hcontains.1 hname).resolve_left (by simp [hnew])
    · intro hadded
      exact ⟨hadded.isNew, hcontains.2 (.inr hadded)⟩
  · intro name e hnew he record
    rcases (find?_recordAll recordOf trace.edges roots ⟨before, .empty⟩).1 he with
      hold | ⟨-, hmade⟩
    · exact absurd ((SortedMap.contains_of_find? hold).symm.trans hnew) (by simp)
    · rw [← hmade]
      exact recordOf?_eq_some_iff
  · intro p hp
    obtain ⟨cs, hcs⟩ := SortedMap.mem_values.1 hp
    rcases hlists.only cs p hcs with hstart | ⟨name, record, hnew, hr, hpath, -⟩
    · exact absurd hstart (by simp)
    · exact ⟨name, record, hnew, hr, hpath⟩
  · intro others hsame
    have hagrees : (recordAll recordOf trace.edges others ⟨before, .empty⟩).Agrees after :=
      agrees_of_mem recordOf trace.edges ⟨before, .empty⟩ hsame
    exact ⟨hagrees, (agrees_recordEach recordOf trace.edges others _).trans hagrees⟩

end Loaded

/-- Two modules that import each other, and one without a file. -/
def mutualTable : ModuleTable := .ofList
  [("a", ⟨some ⟨"/a.py"⟩, [], none, []⟩), ("b", ⟨some ⟨"/b.py"⟩, [], none, []⟩),
    ("native", ⟨none, [], none, []⟩)]

/-- Their files. -/
def mutualTree : FileTree where
  entries := .ofList [(["a.py"], .file .empty ⟨100, 0⟩ false),
    (["b.py"], .file .empty ⟨101, 0⟩ false)]
  current := []
  clock := ⟨200, 0⟩

/-- What they were seen to import; `native` and `known` have edges that are not followed. -/
def mutualTrace : Trace where
  edges := .ofList [("a", .ofList ["b", "native"]), ("b", .ofList ["a", "known"]),
    ("native", .ofList ["hidden"]), ("known", .ofList ["other"])]
  isOpen := false

/-- The entry that is there before. -/
def mutualBefore : Modules := .ofList [("known", none)]

/-- All three are loaded. -/
def mutualState : TableImporter.State := ⟨.ofList ["a", "b", "native"], [], []⟩

/-- From the first module the second one and the one without a file are recorded. -/
theorem recording_adds_least_set_of_mutual_imports :
    let recordOf := recordOf? (TableImporter.ofTable mutualTable) mutualState mutualTree
    let after := recordAll recordOf mutualTrace.edges ["a"] ⟨mutualBefore, .empty⟩
    after.modules.find? "known" = some none ∧ after.modules.find? "native" = some none ∧
    (∃ record, after.modules.find? "b" = some (some record) ∧ record.path = ⟨"/b.py"⟩ ∧
      record.dependencies = mutualTrace.dependenciesOf "b" ∧ after.files.has ⟨"/b.py"⟩ = true) ∧
    (recordEach recordOf mutualTrace.edges ["a", "a"] ⟨mutualBefore, .empty⟩).Agrees after := by
  intro recordOf after
  obtain ⟨-, hkeeps, hadds, hentries, ⟨-, hfiles⟩, horder⟩ := recording_adds_least_set
    (TableImporter.ofTable mutualTable) mutualState mutualTree mutualTrace mutualBefore ["a"]
  obtain ⟨record, hrecord⟩ : ∃ record, recordOf "a" (leftOf mutualTrace.edges "a") = some record :=
    Option.isSome_iff_exists.1 (by decide +kernel)
  have ha : IsAdded recordOf mutualTrace.edges mutualBefore ["a"] "a" := .root (by simp) (by decide)
  have hb := (hadds "b").2 (.dependency ha hrecord (by decide +kernel) (by decide))
  have hnative := (hadds "native").2 (.dependency ha hrecord (by decide +kernel) (by decide))
  refine ⟨hkeeps "known" none (by decide), ?_, ?_, ?_⟩
  · obtain ⟨e, he⟩ := SortedMap.contains_iff.1 hnative.2
    cases e with
    | none => exact he
    | some record =>
      obtain ⟨p, hp, -⟩ := (hentries "native" _ hnative.1 he record).1 rfl
      have hfile : TableImporter.fileOf? mutualTable "native" = none := by decide
      exact absurd (hfile.symm.trans (TableImporter.isLoadedFrom_iff.1 hp).2) (by simp)
  · obtain ⟨e, he⟩ := SortedMap.contains_iff.1 hb.2
    obtain ⟨time, htime⟩ : ∃ time, mutualTree.modified? ⟨"/b.py"⟩ = some time :=
      Option.isSome_iff_exists.1 (by decide +kernel)
    have hcanonical : mutualTree.canonical? ⟨"/b.py"⟩ = .ok ⟨"/b.py"⟩ :=
      ok_of_toOption (by decide +kernel)
    have hentry := (hentries "b" e hb.1 he ⟨time, ⟨"/b.py"⟩, mutualTrace.dependenciesOf "b"⟩).2
      ⟨⟨"/b.py"⟩, TableImporter.isLoadedFrom_iff.2 ⟨by decide, by decide⟩,
        hcanonical, htime, rfl⟩
    rw [hentry] at he
    exact ⟨_, he, rfl, rfl, hfiles "b" _ hb.1 he⟩
  · exact (horder ["a", "a"] (by simp)).2

end Scan

end QmlStubs
