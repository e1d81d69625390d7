import QmlStubs.Proofs.Changes
import QmlStubs.Proofs.Globbing
import QmlStubs.Program

/-!
# What does not look into files

Paths, searches and the start of a program depend on which entries there are, on links and on what
may be run, but not on what is in a file. `FileTree.blank` empties every file, and each function
that does not look into files gives the same answer on the blank tree (`place?_blank`,
`pathsBelow?_blank`, `startError?_blank`). So two trees with the same blank tree cannot be told
apart by any of them.

An edit looks for a place first and changes the entry there. The place is found without looking into
files too, and **an edit is the place that it finds, and one `put` or `cut`** (`written?_eq`,
`withoutFile?_eq`, `withDirectory?_eq`).
-/

set_option autoImplicit false

namespace QmlStubs

/-- The entry without the content of a file. -/
def Entry.blank : Entry → Entry
  | .directory modified => .directory modified
  | .file _ modified executable => .file .empty modified executable
  | .link target => .link target

namespace FileTree

/-- The tree with nothing in its files. -/
def blank (t : FileTree) : FileTree := { t with entries := t.entries.mapVal fun _ e => e.blank }

variable {t u : FileTree} {p : Path} {q : Place}

/-! ## Entries -/

@[simp] theorem current_blank (t : FileTree) : t.blank.current = t.current := rfl

@[simp] theorem clock_blank (t : FileTree) : t.blank.clock = t.clock := rfl

theorem at?_blank (t : FileTree) (q : Place) : t.blank.at? q = (t.at? q).map Entry.blank := by
  unfold at? blank
  split
  · rfl
  · exact SortedMap.find?_mapVal ..

@[simp] theorem isDirectoryAt_blank (t : FileTree) (q : Place) :
    t.blank.isDirectoryAt q = t.isDirectoryAt q := by
  unfold isDirectoryAt
  rw [at?_blank]
  cases t.at? q with
  | none => rfl
  | some e => cases e <;> rfl

@[simp] theorem isSome_at?_blank (t : FileTree) (q : Place) :
    (t.blank.at? q).isSome = (t.at? q).isSome := by
  rw [at?_blank, Option.isSome_map]

@[simp] theorem namesIn_blank (t : FileTree) (q : Place) : t.blank.namesIn q = t.namesIn q := by
  unfold namesIn SortedMap.keys blank SortedMap.mapVal
  rw [List.map_map]
  rfl

theorem blank_put (t : FileTree) (q : Place) (e : Entry) :
    (t.put q e).blank = t.blank.put q e.blank := by
  unfold put blank
  congr 1
  refine SortedMap.ext_find? fun r => ?_
  rw [SortedMap.find?_mapVal, SortedMap.find?_insert, SortedMap.find?_insert,
    SortedMap.find?_mapVal]
  split <;> rfl

theorem blank_cut (t : FileTree) (q : Place) : (t.cut q).blank = t.blank.cut q := by
  unfold cut blank
  congr 1
  refine SortedMap.ext_find? fun r => ?_
  rw [SortedMap.find?_mapVal, SortedMap.find?_filter, SortedMap.find?_filter,
    SortedMap.find?_mapVal]
  cases t.entries.find? r with
  | none => rfl
  | some e =>
    simp only [Option.filter_some, Option.map_some]
    split <;> rfl

/-! ## Paths -/

@[simp] theorem advance_blank (t : FileTree) (q : Place) (steps : List Step) :
    t.blank.advance q steps = t.advance q steps := by
  induction steps generalizing q with
  | nil => rfl
  | cons step rest ih =>
    unfold advance
    rw [isDirectoryAt_blank]
    cases step with
    | stay => simp only [ih]
    | up => simp only [ih]
    | down name =>
      dsimp only
      rw [at?_blank]
      cases t.at? (q ++ [name]) with
      | none => rfl
      | some e => cases e <;> simp only [Option.map_some, Entry.blank, ih]

@[simp] theorem followSteps_blank (t : FileTree) (links : Nat) (q : Place) (steps : List Step) :
    t.blank.followSteps links q steps = t.followSteps links q steps := by
  induction links generalizing q steps with
  | zero => unfold followSteps; rw [advance_blank]
  | succ links ih =>
    unfold followSteps
    rw [advance_blank]
    simp only [ih]

@[simp] theorem follow?_blank (t : FileTree) (p : Path) : t.blank.follow? p = t.follow? p := by
  unfold follow? startOf
  simp only [followSteps_blank, current_blank]

@[simp] theorem place?_blank (t : FileTree) (p : Path) : t.blank.place? p = t.place? p := by
  unfold place?
  rw [follow?_blank]

@[simp] theorem followParent?_blank (t : FileTree) (p : Path) :
    t.blank.followParent? p = t.followParent? p := by
  unfold followParent? startOf
  simp only [followSteps_blank, current_blank, isDirectoryAt_blank, isSome_at?_blank]

@[simp] theorem isPresent_blank (t : FileTree) (p : Path) : t.blank.isPresent p = t.isPresent p := by
  unfold isPresent
  rw [place?_blank]

@[simp] theorem isDirectory_blank (t : FileTree) (p : Path) :
    t.blank.isDirectory p = t.isDirectory p := by
  unfold isDirectory
  simp only [place?_blank, isDirectoryAt_blank]

@[simp] theorem canonicalOr_blank (t : FileTree) (p : Path) :
    t.blank.canonicalOr p = t.canonicalOr p := by
  unfold canonicalOr canonical?
  rw [place?_blank]

@[simp] theorem list?_blank (t : FileTree) (p : Path) : t.blank.list? p = t.list? p := by
  unfold list?
  simp only [place?_blank, isDirectoryAt_blank, namesIn_blank]

/-! ## Edits -/

/-- The place that a file is written to, and whether the file can be run. -/
def writeTarget? (p : Path) (t : FileTree) : Except FileError (Place × Bool) := do
  if endsInSlash p then
    let _ ← t.followParent? (trimSlashes p)
    throw .isADirectory
  match ← t.follow? p with
  | .free place => return (place, false)
  | .found place =>
    match t.at? place with
    | some (.file _ _ executable) => return (place, executable)
    | _ => throw .isADirectory

/-- **Writing a file looks for a place and puts the file there.** -/
theorem written?_eq (content : ByteArray) (p : Path) (t : FileTree) :
    written? content p t =
      (writeTarget? p t).map fun target => t.put target.1 (.file content t.clock target.2) := by
  unfold written? writeTarget?
  by_cases hslash : endsInSlash p = true
  · rw [if_pos hslash, if_pos hslash]
    cases t.followParent? (trimSlashes p) <;> rfl
  rw [if_neg hslash, if_neg hslash]
  cases t.follow? p with
  | error e => rfl
  | ok r =>
    cases r with
    | free q => rfl
    | found q =>
      simp only [pure, Except.pure, bind, Except.bind]
      cases t.at? q with
      | none => rfl
      | some e => cases e <;> rfl

@[simp] theorem writeTarget?_blank (t : FileTree) (p : Path) :
    writeTarget? p t.blank = writeTarget? p t := by
  unfold writeTarget?
  simp only [followParent?_blank, follow?_blank]
  have hfile (q : Place) : (match t.blank.at? q with
      | some (.file _ _ executable) => pure (q, executable)
      | _ => throw .isADirectory : Except FileError (Place × Bool)) =
      match t.at? q with
      | some (.file _ _ executable) => pure (q, executable)
      | _ => throw .isADirectory := by
    rw [at?_blank]
    cases t.at? q with
    | none => rfl
    | some e => cases e <;> rfl
  simp only [hfile]

/-- What is found to write to is free, or a file. -/
theorem writeTarget?_ok {x : Bool} (h : writeTarget? p t = .ok (q, x)) :
    t.follow? p = .ok (.free q) ∨
      t.follow? p = .ok (.found q) ∧ ∃ content time, t.at? q = some (.file content time x) := by
  unfold writeTarget? at h
  by_cases hslash : endsInSlash p = true
  · rw [if_pos hslash] at h
    cases hr : t.followParent? (trimSlashes p) <;> rw [hr] at h <;> cases h
  rw [if_neg hslash] at h
  cases hr : t.follow? p with
  | error e => rw [hr] at h; cases h
  | ok r =>
    rw [hr] at h
    cases r with
    | free r => cases h; exact .inl rfl
    | found r =>
      dsimp only [pure, Except.pure, bind, Except.bind] at h
      split at h
      next he => cases h; exact .inr ⟨rfl, _, _, he⟩
      next => cases h

theorem ne_nil_of_writeTarget? {x : Bool} (h : writeTarget? p t = .ok (q, x)) : q ≠ [] := by
  rcases writeTarget?_ok h with hr | ⟨-, content, time, he⟩
  · unfold follow? at hr
    split at hr
    · cases hr
    · obtain ⟨-, -, c, n, -, -, -, rfl, -⟩ := followSteps_eq_free.1 hr
      simp
  · exact ne_nil_of_isDirectoryAt (by unfold isDirectoryAt; rw [he])

/-- The place that a file or link is removed from. -/
def removeTarget? (p : Path) (t : FileTree) : Except FileError Place := do
  match ← t.followParent? p with
  | .free _ => throw .notFound
  | .found place => if t.isDirectoryAt place then throw .isADirectory else return place

theorem withoutFile?_eq (p : Path) (t : FileTree) :
    withoutFile? p t = (removeTarget? p t).map t.cut := by
  unfold withoutFile? removeTarget?
  cases t.followParent? p with
  | error e => rfl
  | ok r =>
    cases r with
    | free q => rfl
    | found q =>
      simp only [bind, Except.bind]
      split <;> rfl

@[simp] theorem removeTarget?_blank (t : FileTree) (p : Path) :
    removeTarget? p t.blank = removeTarget? p t := by
  unfold removeTarget?
  simp only [followParent?_blank, isDirectoryAt_blank]

/-- What is found to be removed is no directory. -/
theorem removeTarget?_ok (h : removeTarget? p t = .ok q) :
    t.followParent? p = .ok (.found q) ∧ t.isDirectoryAt q = false := by
  unfold removeTarget? at h
  cases hr : t.followParent? p with
  | error e => rw [hr] at h; cases h
  | ok r =>
    rw [hr] at h
    cases r with
    | free r => cases h
    | found r =>
      dsimp only [bind, Except.bind] at h
      split at h
      next => cases h
      next hdir => cases h; exact ⟨rfl, by simpa using hdir⟩

/-- The place that a removal is for, unless nothing is there. -/
def presentTarget? (p : Path) (t : FileTree) : Except FileError (Option Place) :=
  match removeTarget? p t with
  | .error .notFound => .ok none
  | .error e => .error e
  | .ok q => .ok (some q)

/-- The tree without a file that may be missing. -/
def withoutFileIfPresent? (p : Path) (t : FileTree) : Except FileError FileTree :=
  match withoutFile? p t with
  | .error .notFound => .ok t
  | r => r

theorem withoutFileIfPresent?_eq (p : Path) (t : FileTree) :
    withoutFileIfPresent? p t = (presentTarget? p t).map fun q => q.elim t t.cut := by
  unfold withoutFileIfPresent? presentTarget?
  rw [withoutFile?_eq]
  cases removeTarget? p t with
  | ok q => rfl
  | error e => cases e <;> rfl

@[simp] theorem presentTarget?_blank (t : FileTree) (p : Path) :
    presentTarget? p t.blank = presentTarget? p t := by
  unfold presentTarget?
  rw [removeTarget?_blank]

theorem presentTarget?_eq_some (h : presentTarget? p t = .ok (some q)) :
    removeTarget? p t = .ok q := by
  unfold presentTarget? at h
  split at h
  next => exact absurd h (by simp)
  next => exact absurd h (by simp)
  next r hr =>
    rw [hr, Option.some.inj (Except.ok.inj h)]

/-- The place that a directory is made at. -/
def makeTarget? (p : Path) (t : FileTree) : Except FileError Place := do
  match ← t.followParent? (trimSlashes p) with
  | .found _ => throw .alreadyExists
  | .free place => return place

theorem withDirectory?_eq (p : Path) (t : FileTree) :
    withDirectory? p t = (makeTarget? p t).map fun q => t.put q (.directory t.clock) := by
  unfold withDirectory? makeTarget?
  cases t.followParent? (trimSlashes p) with
  | error e => rfl
  | ok r => cases r <;> rfl

/-- What is made is a name in a directory. -/
theorem makeTarget?_ok (h : makeTarget? p t = .ok q) : q ≠ [] := by
  unfold makeTarget? at h
  cases hr : t.followParent? (trimSlashes p) with
  | error e => rw [hr] at h; cases h
  | ok r =>
    rw [hr] at h
    cases r with
    | found r => cases h
    | free r =>
      cases h
      obtain ⟨-, name, d, -, -, rfl, -⟩ := exists_of_followParent?_free hr
      simp

@[simp] theorem makeTarget?_blank (t : FileTree) (p : Path) :
    makeTarget? p t.blank = makeTarget? p t := by
  unfold makeTarget?
  simp only [followParent?_blank]

end FileTree

open FileTree

/-! ## Searches -/

namespace Glob

@[simp] theorem children_blank (t : FileTree) (p : Path) : children t.blank p = children t p := by
  unfold children
  rw [list?_blank]

@[simp] theorem descendants_blank (t : FileTree) (depth : Nat) (p : Path) :
    descendants t.blank depth p = descendants t depth p := by
  induction depth generalizing p with
  | zero => rfl
  | succ depth ih =>
    unfold descendants
    simp only [children_blank, isDirectory_blank, ih]

@[simp] theorem dots_blank (t : FileTree) (ts : List Token) (p : Path) :
    dots t.blank ts p = dots t ts p := by
  unfold dots
  rw [isDirectory_blank]

@[simp] theorem leadsOn_blank (t : FileTree) (p : Path) (name : String) :
    leadsOn t.blank p name = leadsOn t p name := by
  unfold leadsOn
  rw [isDirectory_blank, isPresent_blank]

/-- The cases are those of the search, which goes on with the parts that are left from many paths. -/
@[simp] theorem search_blank (t : FileTree) (b : Bool) :
    ∀ (parts : List Part) (p : Path), search t.blank b parts p = search t b parts p
  | [], p => by simp [search]
  | .literal name :: rest, p => by simp [search, search_blank t b rest]
  | .names ts :: rest, p => by simp [search, funext (search_blank t b rest)]
  | [.anyDepth], p => by simp [search, funext (isDirectory_blank t)]
  | .anyDepth :: part :: rest, p => by simp [search, funext (search_blank t b rest)]

@[simp] theorem pathsBelow?_blank (t : FileTree) (p : Path) (pattern : List Char) :
    pathsBelow? t.blank p pattern = pathsBelow? t p pattern := by
  unfold pathsBelow? Pattern.paths
  simp only [search_blank]

end Glob

/-! ## Programs -/

namespace Launch

@[simp] theorem runError?_blank (t : FileTree) (p : Path) : runError? t.blank p = runError? t p := by
  unfold runError?
  rw [place?_blank]
  cases t.place? p with
  | error e => rfl
  | ok q =>
    dsimp only
    rw [at?_blank]
    cases t.at? q with
    | none => rfl
    | some e =>
      rcases e with time | ⟨content, time, executable⟩ | target
      · rfl
      · cases executable <;> rfl
      · rfl

theorem startError?_blank (l : Launch) (t : FileTree) (searchPath : List Path) :
    l.startError? t.blank searchPath = l.startError? t searchPath := by
  have hcurrent (q : Place) : { t.blank with current := q } = { t with current := q }.blank := rfl
  unfold startError? startPlace? searchError?
  simp only [place?_blank, isDirectoryAt_blank, current_blank, hcurrent, runError?_blank]

end Launch

end QmlStubs
