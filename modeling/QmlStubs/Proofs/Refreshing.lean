import QmlStubs.Proofs.Changes
import QmlStubs.Proofs.Globbing
import QmlStubs.Proofs.Keys
import QmlStubs.Stubs

/-!
# What a refresh leaves

A refresh is followed step by step through the tree. Each step is a `Change` that touches the files
of one module, or the `qmldir` files, so the modules do not disturb each other. What is left of a
types file in the end (`Stubs.entriesOf_refresh`):

> **the former entries whose input file is clean and the fresh ones**, all of which come from
> source files.

Two things have to hold for it. The registrar writes its two output files and nothing else. And no
types file lies in a directory whose name has an empty part between dots: its module would have the
same files as another one.
-/

set_option autoImplicit false

namespace QmlStubs

open FileTree

/-! ## Running steps -/

namespace Workbench

variable {w w' : Workbench} {α β : Type}

/-- Run a step of a refresh. -/
def run (w : Workbench) (x : Refresh α) : Except RefreshError α × Workbench := (ExceptT.run x).run w

theorem eq_of_run_pure {a b : α} (h : w.run (pure a) = (.ok b, w')) : a = b ∧ w' = w :=
  ⟨Except.ok.inj (Prod.mk.inj h).1, (Prod.mk.inj h).2.symm⟩

theorem run_throw (e : RefreshError) : w.run (throw e : Refresh α) = (.error e, w) := rfl

theorem run_throw_ne {e : RefreshError} {a : α} : w.run (throw e : Refresh α) ≠ (.ok a, w') :=
  fun h => absurd (Prod.mk.inj h).1 (by simp)

theorem run_bind (x : Refresh α) (f : α → Refresh β) :
    w.run (x >>= f) =
      match w.run x with
      | (.ok a, u) => u.run (f a)
      | (.error e, u) => (.error e, u) := by
  unfold run
  simp only [ExceptT.run, ExceptT.bind, bind, StateT.run, StateT.bind, ExceptT.mk]
  cases h : (x w : Id (Except RefreshError α × Workbench)) with
  | mk r u => cases r <;> rfl

/-- A step after another one succeeds when both do. -/
theorem ok_of_run_bind {x : Refresh α} {f : α → Refresh β} {b : β}
    (h : w.run (x >>= f) = (.ok b, w')) :
    ∃ a u, w.run x = (.ok a, u) ∧ u.run (f a) = (.ok b, w') := by
  rw [run_bind] at h
  cases hx : w.run x with
  | mk r u =>
    rw [hx] at h
    cases r with
    | ok a => exact ⟨a, u, rfl, h⟩
    | error e => exact absurd (Prod.mk.inj h).1 (by simp)

theorem run_get_bind {f : Workbench → Refresh β} : w.run (get >>= f) = w.run (f w) := rfl

theorem run_set_bind {v : Workbench} {f : PUnit → Refresh β} :
    w.run (set v >>= f) = v.run (f ()) := rfl

theorem run_modify_bind {g : Workbench → Workbench} {f : PUnit → Refresh β} :
    w.run (modify g >>= f) = (g w).run (f ()) := rfl

theorem ok_of_run_get {f : Workbench → Refresh β} {b : β} (h : w.run (get >>= f) = (.ok b, w')) :
    w.run (f w) = (.ok b, w') := h

theorem ok_of_run_forM {f : α → Refresh Unit} {a : α} {l : List α}
    (h : w.run ((a :: l).forM f) = (.ok (), w')) :
    ∃ u, w.run (f a) = (.ok (), u) ∧ u.run (l.forM f) = (.ok (), w') := by
  obtain ⟨_, u, ha, hl⟩ := ok_of_run_bind (f := fun _ => l.forM f) h
  exact ⟨u, ha, hl⟩

theorem ok_of_run_mapM {f : α → Refresh β} {a : α} {l : List α} {bs : List β}
    (h : w.run ((a :: l).mapM f) = (.ok bs, w')) :
    ∃ b rest u, bs = b :: rest ∧ w.run (f a) = (.ok b, u) ∧ u.run (l.mapM f) = (.ok rest, w') := by
  rw [List.mapM_cons] at h
  obtain ⟨b, u, hb, h⟩ := ok_of_run_bind h
  obtain ⟨rest, v, hrest, h⟩ := ok_of_run_bind h
  obtain ⟨rfl, rfl⟩ := eq_of_run_pure h
  exact ⟨b, rest, u, rfl, hb, hrest⟩

/-- **What each of two steps keeps both keep**, wherever they end. -/
theorem keeps_bind (I : FileTree → Prop) {x : Refresh α} {f : α → Refresh β}
    (hx : I (w.run x).2.tree)
    (hf : ∀ a v, w.run x = (.ok a, v) → I v.tree → I (v.run (f a)).2.tree) :
    I (w.run (x >>= f)).2.tree := by
  rw [run_bind]
  cases hrun : w.run x with
  | mk result v =>
    rw [hrun] at hx
    cases result with
    | error e => exact hx
    | ok a => exact hf a v hrun hx

/-- What each step of a loop keeps the loop keeps, -/
theorem keeps_forM (I : FileTree → Prop) {f : α → Refresh Unit} {l : List α} (h : I w.tree)
    (hstep : ∀ a ∈ l, ∀ v : Workbench, I v.tree → I (v.run (f a)).2.tree) :
    I (w.run (l.forM f)).2.tree := by
  induction l generalizing w with
  | nil => exact h
  | cons a l ih =>
    have hcons : (a :: l).forM f = f a >>= fun _ => l.forM f := rfl
    rw [hcons]
    exact keeps_bind I (hstep a (List.mem_cons_self ..) w h) fun _ v _ hv =>
      ih hv fun b hb => hstep b (List.mem_cons_of_mem _ hb)

/-- also when their results are collected. -/
theorem keeps_mapM (I : FileTree → Prop) {f : α → Refresh β} {l : List α} (h : I w.tree)
    (hstep : ∀ a ∈ l, ∀ v : Workbench, I v.tree → I (v.run (f a)).2.tree) :
    I (w.run (l.mapM f)).2.tree := by
  induction l generalizing w with
  | nil => exact h
  | cons a l ih =>
    rw [List.mapM_cons]
    refine keeps_bind I (hstep a (List.mem_cons_self ..) w h) fun b v _ hv => ?_
    exact keeps_bind I (ih hv fun c hc => hstep c (List.mem_cons_of_mem _ hc)) fun _ _ _ hx => hx

/-- What holds of the result of each step holds of all results. -/
theorem forall_of_run_mapM {P : β → Prop} {f : α → Refresh β} {l : List α} {bs : List β}
    (hstep : ∀ a ∈ l, ∀ (v v' : Workbench) (b : β), v.run (f a) = (.ok b, v') → P b)
    (h : w.run (l.mapM f) = (.ok bs, w')) : ∀ b ∈ bs, P b := by
  induction l generalizing w bs with
  | nil =>
    obtain ⟨rfl, -⟩ := eq_of_run_pure h
    nofun
  | cons a l ih =>
    obtain ⟨b, rest, v, rfl, hone, hrest⟩ := ok_of_run_mapM h
    exact List.forall_mem_cons.2 ⟨hstep a (List.mem_cons_self ..) _ _ _ hone,
      ih (fun c hc => hstep c (List.mem_cons_of_mem _ hc)) hrest⟩

/-- What each step of a loop changes is what the loop changes. -/
theorem change_forM {p : Path} {d : Place} {touched : Place → Prop} {f : α → Refresh Unit}
    {l : List α} (hs : Ground w.tree p d)
    (hstep : ∀ a ∈ l, ∀ v : Workbench, Ground v.tree p d →
      Change p d touched v.tree (v.run (f a)).2.tree) :
    Change p d touched w.tree (w.run (l.forM f)).2.tree :=
  keeps_forM (Change p d touched w.tree) (.refl hs) fun a ha v hv =>
    hv.trans (hstep a ha v hv.ground)

end Workbench

namespace Stubs

open Workbench

variable {s : Stubs} {w w' : Workbench} {t u : FileTree} {d : Place} {k : QmlModule}

theorem run_edit (e : Edit) (wrap : FileError → RefreshError) :
    w.run (edit e wrap) =
      ((w.tree.run e).1.mapError wrap, { w with tree := (w.tree.run e).2 }) := by
  unfold edit
  rw [run_get_bind]
  cases w.tree.run e with
  | mk r t => cases r <;> rfl

theorem tree_run_edit (e : Edit) (wrap : FileError → RefreshError) :
    (w.run (edit e wrap)).2.tree = (w.tree.run e).2 := by
  rw [run_edit]

theorem of_run_edit {e : Edit} {wrap : FileError → RefreshError}
    (h : w.run (edit e wrap) = (.ok (), w')) : w.tree.run e = (.ok (), w'.tree) := by
  rw [run_edit] at h
  obtain ⟨hok, rfl⟩ := Prod.mk.inj h
  cases hr : w.tree.run e with
  | mk r t =>
    rw [hr] at hok
    cases r with
    | ok => rfl
    | error cause => exact absurd hok (by simp [Except.mapError])

/-- A search sorts what is found and changes nothing. -/
theorem run_glob {p : Path} {pattern : String} {found : List Path}
    (h : Glob.pathsBelow? w.tree p pattern.toList = some found) :
    w.run (glob p pattern) =
      (.ok (found.mergeSort fun p q => (compare p.components q.components).isLE), w) := by
  unfold glob
  rw [run_get_bind, h]
  rfl

theorem of_run_glob {p : Path} {pattern : String} {paths : List Path}
    (h : w.run (glob p pattern) = (.ok paths, w')) :
    w' = w ∧ ∃ found, Glob.pathsBelow? w.tree p pattern.toList = some found ∧
      ∀ r, r ∈ paths ↔ r ∈ found := by
  unfold glob at h
  have h := ok_of_run_get h
  cases hf : Glob.pathsBelow? w.tree p pattern.toList with
  | none =>
    rw [hf] at h
    exact absurd h run_throw_ne
  | some found =>
    rw [hf] at h
    obtain ⟨rfl, rfl⟩ := eq_of_run_pure h
    exact ⟨rfl, found, rfl, fun r => List.mem_mergeSort⟩

/-! ## Registrations by module -/

/-- The entries that are registered for a module, as they are written. -/
def freshOf (s : Stubs) (base : Path) (registrations : List Registration) (k : QmlModule) :
    List TypesEntry :=
  (registrations.filter fun r => decide (r.module = k)).filterMap fun r =>
    (s.relativeEntry base r.entry).toOption

theorem freshOf_cons (s : Stubs) (base : Path) {r : Registration} {e : TypesEntry}
    (he : s.relativeEntry base r.entry = .ok e) (rest : List Registration) (k : QmlModule) :
    s.freshOf base (r :: rest) k = (if k = r.module then [e] else []) ++ s.freshOf base rest k := by
  unfold freshOf
  by_cases hk : k = r.module
  · rw [if_pos hk, List.filter_cons_of_pos (by simp [hk]),
      List.filterMap_cons_some (b := e) (by rw [he]; rfl)]
    rfl
  · rw [if_neg hk, List.filter_cons_of_neg (by simpa using Ne.symm hk)]
    rfl

/-- **Grouping keeps the registrations of each module in their order.** -/
theorem find?_group {base : Path} {registrations : List Registration} {fresh : Fresh}
    (h : s.group base registrations = .ok fresh) (k : QmlModule) :
    (fresh.find? k).getD [] = s.freshOf base registrations k ∧
      (fresh.contains k = true ↔ ∃ r ∈ registrations, r.module = k) := by
  have hfold : ∀ (registrations : List Registration) (known fresh : Fresh),
      registrations.foldlM (s.addRegistration base) known = .ok fresh →
      (fresh.find? k).getD [] = (known.find? k).getD [] ++ s.freshOf base registrations k ∧
        (fresh.contains k = true ↔ known.contains k = true ∨ ∃ r ∈ registrations, r.module = k) := by
    intro registrations
    induction registrations with
    | nil =>
      intro known fresh h
      obtain rfl : known = fresh := Except.ok.inj h
      exact ⟨(List.append_nil _).symm, by simp⟩
    | cons r rest ih =>
      intro known fresh h
      rw [List.foldlM_cons] at h
      cases he : s.relativeEntry base r.entry with
      | error cause =>
        unfold addRegistration at h
        rw [he] at h
        exact absurd h (by simp [bind, Except.bind])
      | ok e =>
        have hadd : s.addRegistration base known r =
            .ok (known.insert r.module ((known.find? r.module).getD [] ++ [e])) := by
          unfold addRegistration
          rw [he]
          rfl
        rw [hadd] at h
        obtain ⟨hfind, hcontains⟩ := ih _ _ h
        rw [hfind, freshOf_cons s base he, SortedMap.find?_insert]
        constructor
        · by_cases hk : k = r.module
          · rw [if_pos hk, if_pos hk, hk, Option.getD_some, List.append_assoc]
          · rw [if_neg hk, if_neg hk, List.nil_append]
        · rw [hcontains, SortedMap.contains_insert, List.exists_mem_cons_iff, or_assoc, eq_comm,
            or_left_comm]
  obtain ⟨hfind, hcontains⟩ := hfold registrations .empty fresh h
  exact ⟨hfind, hcontains.trans (by simp [SortedMap.contains])⟩

/-! ## The entries of a module -/

/-- The path of the types file of a module. -/
def typesPath (s : Stubs) (k : QmlModule) : Path := (k.directoryIn s.outDir).join k.typesFileName

/-- The entries in the types file of a module; none if it cannot be read. -/
def entriesOf (s : Stubs) (t : FileTree) (k : QmlModule) : List TypesEntry :=
  match TypesFile.read t (s.typesPath k) with
  | .ok entries => entries
  | .error _ => []

/-- Stubs with the same output directory have the same entries. -/
theorem entriesOf_of_outDir_eq {s' : Stubs} (h : s'.outDir = s.outDir) :
    s'.entriesOf t k = s.entriesOf t k := by
  unfold entriesOf typesPath
  rw [h]

theorem typesPath_eq (s : Stubs) (k : QmlModule) : s.typesPath k = joins s.outDir k.typesNames := by
  unfold typesPath QmlModule.typesNames
  rw [joins_concat]
  rfl

/-- **The entries of a module are those at its place.** -/
theorem entriesOf_eq (h : Ground t s.outDir d) (hk : k.IsWellNamed) :
    s.entriesOf t k =
      if textError? (s.typesPath k) = none then t.typesAt (d ++ k.typesNames) else [] := by
  have hplace : ∀ q, t.place? (s.typesPath k) = .ok q ↔ textError? (s.typesPath k) = none ∧
      q = d ++ k.typesNames ∧ (t.at? (d ++ k.typesNames)).isSome = true := by
    intro q
    rw [typesPath_eq]
    exact h.place?_joins k.typesNames_ne_nil hk.isName_typesNames
  unfold entriesOf TypesFile.read read?
  by_cases ht : textError? (s.typesPath k) = none ∧ (t.at? (d ++ k.typesNames)).isSome = true
  · rw [(hplace _).2 ⟨ht.1, rfl, ht.2⟩, if_pos ht.1]
    obtain ⟨e, he⟩ := Option.isSome_iff_exists.1 ht.2
    unfold typesAt
    dsimp only [bind, Except.bind]
    rw [he]
    cases e with
    | directory time => rfl
    | link target => rfl
    | file content time x =>
      dsimp only [pure, Except.pure]
      cases TypesFile.ofBytes? content <;> rfl
  · have hright : (if textError? (s.typesPath k) = none then t.typesAt (d ++ k.typesNames) else []) =
        [] := by
      split
      next htext =>
        have hnone : (t.at? (d ++ k.typesNames)).isSome = false := by
          rw [← Bool.not_eq_true]
          exact fun hsome => ht ⟨htext, hsome⟩
        exact typesAt_of_none (by simpa using hnone)
      next => rfl
    rw [hright]
    cases hp : t.place? (s.typesPath k) with
    | error e => rfl
    | ok q =>
      obtain ⟨htext, -, hsome⟩ := (hplace q).1 hp
      exact absurd ⟨htext, hsome⟩ ht

/-- The entries that a file holds. -/
def entriesIn : Entry → List TypesEntry
  | .file content _ _ => (TypesFile.ofBytes? content).getD []
  | _ => []

/-- The entries of a module are read from some file. -/
theorem exists_of_mem_entriesOf {k : QmlModule} {e : TypesEntry} (he : e ∈ s.entriesOf t k) :
    ∃ x ∈ t.entries.entries, e ∈ entriesIn x.2 := by
  unfold entriesOf TypesFile.read read? at he
  cases hp : t.place? (s.typesPath k) with
  | error cause =>
    rw [hp] at he
    exact absurd he List.not_mem_nil
  | ok q =>
    rw [hp] at he
    dsimp only [bind, Except.bind] at he
    cases hat : t.at? q with
    | none =>
      rw [hat] at he
      exact absurd he List.not_mem_nil
    | some x =>
      rw [hat] at he
      cases x with
      | directory time => exact absurd he List.not_mem_nil
      | link target => exact absurd he List.not_mem_nil
      | file content time executable =>
        have hq : q ≠ [] := by
          rintro rfl
          exact absurd hat (by simp [at?])
        unfold at? at hat
        rw [if_neg hq] at hat
        refine ⟨_, SortedMap.mem_entries.2 hat, ?_⟩
        show e ∈ (TypesFile.ofBytes? content).getD []
        dsimp only [pure, Except.pure] at he
        cases hc : TypesFile.ofBytes? content with
        | none =>
          rw [hc] at he
          exact absurd he List.not_mem_nil
        | some es =>
          rw [hc] at he
          exact he

/-- **A change that does not touch the types file of a module leaves its entries.** -/
theorem entriesOf_change {touched : Place → Prop} (h : Ground t s.outDir d)
    (hc : Change s.outDir d touched t u) (hk : k.IsWellNamed)
    (hq : ¬ touched (d ++ k.typesNames)) : s.entriesOf u k = s.entriesOf t k := by
  rw [entriesOf_eq h hk, entriesOf_eq hc.ground hk, hc.typesAt_eq hq]

/-! ## The files of a module -/

/-- The places of the files of a module. -/
def TouchedBy (d : Place) (k : QmlModule) (q : Place) : Prop :=
  ∃ n ∈ k.fileNames, q = d ++ (k.parts ++ [n])

/-- A place of a file of some module. -/
def IsModuleFile (d q : Place) : Prop := ∃ k, TouchedBy d k q

theorem touchedBy_typesNames (d : Place) (k : QmlModule) : TouchedBy d k (d ++ k.typesNames) :=
  ⟨k.typesFileName, List.mem_cons_self .., rfl⟩

/-- A place belongs to one module. -/
theorem TouchedBy.unique {k' : QmlModule} {q : Place} (h : TouchedBy d k q)
    (h' : TouchedBy d k' q) : k = k' := by
  obtain ⟨n, hn, rfl⟩ := h
  obtain ⟨n', hn', hq⟩ := h'
  obtain ⟨hparts, hname⟩ := List.append_inj' (List.append_cancel_left hq) rfl
  obtain rfl := List.singleton_inj.1 hname
  exact QmlModule.eq_of_mem_fileNames hparts hn hn'

/-- No directory is made in the place of a module's file. -/
theorem TouchedBy.not_isMade {p : Path} {q : Place} (h : TouchedBy d k q) : ¬ IsMade p d q := by
  obtain ⟨n, hn, rfl⟩ := h
  exact FileTree.not_isMade (QmlModule.dot_mem_of_mem_fileNames hn)

theorem TouchedBy.isBelow {q : Place} (h : TouchedBy d k q) : ∃ ns, ns ≠ [] ∧ q = d ++ ns := by
  obtain ⟨n, -, rfl⟩ := h
  exact ⟨k.parts ++ [n], by simp, rfl⟩

theorem textError?_typesPath (h : s.entriesOf t k ≠ []) : textError? (s.typesPath k) = none := by
  cases ht : textError? (s.typesPath k) with
  | none => rfl
  | some e =>
    refine absurd ?_ h
    unfold entriesOf TypesFile.read read? place? follow?
    rw [ht]
    rfl

/-- Where there is no types file there are no entries. -/
theorem entriesOf_of_absent (h : t.isPresent (s.typesPath k) = false) : s.entriesOf t k = [] := by
  unfold entriesOf TypesFile.read read?
  unfold isPresent at h
  cases hplace : t.place? (s.typesPath k) with
  | ok q =>
    rw [hplace] at h
    exact absurd h (by simp [Except.toBool])
  | error e => rfl

/-! ## One module -/

theorem of_run_formerEntries {entries : List TypesEntry}
    (h : w.run (formerEntries (s.typesPath k)) = (.ok entries, w')) :
    w' = w ∧ s.entriesOf w.tree k = entries := by
  unfold formerEntries at h
  have h := ok_of_run_get h
  by_cases hp : w.tree.isPresent (s.typesPath k) = true
  · rw [if_pos hp] at h
    cases hr : TypesFile.read w.tree (s.typesPath k) with
    | ok es =>
      rw [hr] at h
      obtain ⟨rfl, rfl⟩ := eq_of_run_pure h
      refine ⟨rfl, ?_⟩
      unfold entriesOf
      rw [hr]
    | error e =>
      rw [hr] at h
      exact absurd h run_throw_ne
  · rw [if_neg hp] at h
    obtain ⟨rfl, rfl⟩ := eq_of_run_pure h
    exact ⟨rfl, entriesOf_of_absent (by simpa using hp)⟩

/-- **What is gone stays gone when the rest is removed.** The invariant `I` is kept by removing one of
the files, and `gone` says which of them are gone. -/
theorem of_run_removeEach (I : FileTree → Prop) (gone : String → FileTree → Prop) {p : Path}
    {names : List String}
    (hstep : ∀ n ∈ names, ∀ t u, I t → t.run (removeIfPresent (p.join n)) = (.ok (), u) →
      I u ∧ gone n u ∧ ∀ m, gone m t → gone m u)
    (h : I w.tree)
    (hrun : w.run (names.forM fun n => edit (removeIfPresent (p.join n)) .file) = (.ok (), w')) :
    I w'.tree ∧ (∀ m, gone m w.tree → gone m w'.tree) ∧ ∀ n ∈ names, gone n w'.tree := by
  induction names generalizing w with
  | nil =>
    obtain ⟨-, rfl⟩ := eq_of_run_pure hrun
    exact ⟨h, fun _ => id, nofun⟩
  | cons n names ih =>
    obtain ⟨v, hfirst, hrest⟩ := ok_of_run_forM hrun
    obtain ⟨hone, hgone, hkept⟩ :=
      hstep n (List.mem_cons_self ..) _ _ h (of_run_edit hfirst)
    obtain ⟨hlast, hkept', hall⟩ := ih (fun m hm => hstep m (List.mem_cons_of_mem _ hm)) hone hrest
    exact ⟨hlast, fun m hm => hkept' m (hkept m hm), List.forall_mem_cons.2 ⟨hkept' n hgone, hall⟩⟩

/-- **Removing the files of a module removes all of them.** -/
theorem of_run_removeFiles (h : Ground w.tree s.outDir d)
    (hdir : w.tree.isDirectoryAt (d ++ k.parts) = true)
    (hrun : w.run (removeFiles k (k.directoryIn s.outDir)) = (.ok (), w')) :
    Change s.outDir d (TouchedBy d k) w.tree w'.tree ∧
      ∀ n ∈ k.fileNames, Fits (joins s.outDir k.parts) n ∧
        w'.tree.at? (d ++ (k.parts ++ [n])) = none := by
  have hall := of_run_removeEach (fun u => Change s.outDir d (TouchedBy d k) w.tree u)
    (fun n u => Fits (joins s.outDir k.parts) n ∧ u.at? (d ++ (k.parts ++ [n])) = none)
    (fun n hn t u ht hu => ?_) (.refl h) hrun
  · exact ⟨hall.1, hall.2.2⟩
  · obtain ⟨hone, hfits, hgone, hless⟩ := ht.ground.of_run_removeIfPresent
      (QmlModule.isName_of_mem_fileNames hn) (ht.isDirectoryAt hdir) hu
    rw [List.append_assoc] at hone hgone
    exact ⟨ht.trans (hone.mono fun q hq => ⟨n, hn, hq⟩), ⟨hfits, hgone⟩,
      fun m hm => ⟨hm.1, hless _ hm.2⟩⟩

/-- Writing the types file of a module gives it these entries. -/
theorem of_run_writeTypes (h : Ground w.tree s.outDir d) (hk : k.IsWellNamed)
    {entries : List TypesEntry} {wrap : FileError → RefreshError}
    (hrun : w.run (edit (TypesFile.write (s.typesPath k) entries) wrap) = (.ok (), w')) :
    Change s.outDir d (· = d ++ k.typesNames) w.tree w'.tree ∧ s.entriesOf w'.tree k = entries := by
  have hu : w.tree.run (FileTree.write ((joins s.outDir k.parts).join k.typesFileName)
      (TypesFile.text entries).toUTF8) = (.ok (), w'.tree) := of_run_edit hrun
  have hchange : Change s.outDir d (· = d ++ k.typesNames) w.tree w'.tree := by
    have hwrite := h.change_write hk.isName k.isName_typesFileName (TypesFile.text entries).toUTF8
    rw [hu] at hwrite
    exact hwrite.mono fun q hq => by rw [hq, List.append_assoc]; rfl
  obtain ⟨hfits, -, -, x, hput⟩ := h.of_run_write hk.isName k.isName_typesFileName hu
  have htext : textError? (s.typesPath k) = none := hfits.text
  refine ⟨hchange, ?_⟩
  rw [entriesOf_eq hchange.ground hk, if_pos htext, hput]
  unfold QmlModule.typesNames
  rw [← List.append_assoc]
  exact typesAt_put (by simp) _ _ _

/-- What settling a module comes to, from a tree before it to a tree after it, with other modules
settled in between. -/
structure Settles (s : Stubs) (d : Place) (base : Path) (files clean : PathSet)
    (fresh : QmlModule → List TypesEntry) (t u : FileTree) (m : Settled) : Prop where
  directory : m.directory = m.module.directoryIn s.outDir
  entries : s.entriesOf u m.module = m.entries
  changed : m.changed = true ↔ m.entries ≠ [] ∧ m.entries ≠ s.entriesOf t m.module
  merged : ∃ v, Change s.outDir d (IsModuleFile d) t v ∧ Change s.outDir d (IsModuleFile d) v u ∧
    m.entries = merge v base clean (s.entriesOf t m.module) (fresh m.module) ∧
    ∀ e ∈ m.entries, files.has (e.resolvedInput v base) = true
  made : textError? (joins s.outDir m.module.parts) = none ∧
    u.isDirectoryAt (d ++ m.module.parts) = true
  gone : m.entries = [] → ∀ n ∈ m.module.fileNames,
    Fits (joins s.outDir m.module.parts) n ∧ u.at? (d ++ (m.module.parts ++ [n])) = none
  beside : m.entries ≠ [] → ∀ n ∈ m.module.otherNames,
    u.at? (d ++ (m.module.parts ++ [n])) = t.at? (d ++ (m.module.parts ++ [n]))

variable {base : Path} {files clean : PathSet} {fresh : QmlModule → List TypesEntry}

/-- **A module stays settled when others are settled after it**, -/
theorem Settles.after {m : Settled} {v : FileTree} {touched : Place → Prop}
    (h : Settles s d base files clean fresh t u m) (hu : Ground u s.outDir d)
    (hk : m.module.IsWellNamed) (hc : Change s.outDir d touched u v)
    (hfiles : ∀ q, touched q → IsModuleFile d q)
    (hnot : ∀ q, TouchedBy d m.module q → ¬ touched q) :
    Settles s d base files clean fresh t v m where
  directory := h.directory
  entries := by
    rw [entriesOf_change hu hc hk (hnot _ (touchedBy_typesNames d m.module)), h.entries]
  changed := h.changed
  merged := by
    obtain ⟨x, hbefore, hchange, hmerge⟩ := h.merged
    exact ⟨x, hbefore, hchange.trans (hc.mono hfiles), hmerge⟩
  made := ⟨h.made.1, hc.isDirectoryAt h.made.2⟩
  gone hnil n hn := by
    have hq : TouchedBy d m.module (d ++ (m.module.parts ++ [n])) := ⟨n, hn, rfl⟩
    obtain ⟨hfits, hnone⟩ := h.gone hnil n hn
    exact ⟨hfits, (hc.at?_eq (hnot _ hq) hq.not_isMade).trans hnone⟩
  beside hne n hn := by
    have hq : TouchedBy d m.module (d ++ (m.module.parts ++ [n])) :=
      ⟨n, List.mem_cons_of_mem _ hn, rfl⟩
    exact (hc.at?_eq (hnot _ hq) hq.not_isMade).trans (h.beside hne n hn)

/-- and when others were settled **before** it. -/
theorem Settles.before {m : Settled} {v : FileTree} {touched : Place → Prop}
    (h : Settles s d base files clean fresh u v m) (ht : Ground t s.outDir d)
    (hk : m.module.IsWellNamed) (hc : Change s.outDir d touched t u)
    (hfiles : ∀ q, touched q → IsModuleFile d q)
    (hnot : ∀ q, TouchedBy d m.module q → ¬ touched q) :
    Settles s d base files clean fresh t v m := by
  have hsame : s.entriesOf u m.module = s.entriesOf t m.module :=
    entriesOf_change ht hc hk (hnot _ (touchedBy_typesNames d m.module))
  refine ⟨h.directory, h.entries, hsame ▸ h.changed, ?_, h.made, h.gone, fun hne n hn => ?_⟩
  · obtain ⟨x, hbefore, hchange, hmerge, hgiven⟩ := h.merged
    rw [hsame] at hmerge
    exact ⟨x, (hc.mono hfiles).trans hbefore, hchange, hmerge, hgiven⟩
  · have hq : TouchedBy d m.module (d ++ (m.module.parts ++ [n])) :=
      ⟨n, List.mem_cons_of_mem _ hn, rfl⟩
    exact (h.beside hne n hn).trans (hc.at?_eq (hnot _ hq) hq.not_isMade)

/-- **A settled module has the clean former entries and the fresh ones**, all from source files. -/
theorem of_run_settle {known : Fresh} (h : Ground w.tree s.outDir d) (hk : k.IsWellNamed)
    {m : Settled} (hrun : w.run (s.settle base files clean known k) = (.ok m, w')) :
    m.module = k ∧ Change s.outDir d (TouchedBy d k) w.tree w'.tree ∧
      Settles s d base files clean (fun k => (known.find? k).getD []) w.tree w'.tree m := by
  unfold settle at hrun
  obtain ⟨_, v, hmake, hrun⟩ := ok_of_run_bind hrun
  obtain ⟨hdeep, htext, hdir⟩ :=
    h.of_run_makeDirectories k.parts_ne_nil hk.isName (of_run_edit hmake)
  have hundotted : ∀ n ∈ k.parts, '.' ∉ n.toList := fun _ => QmlModule.not_dot_mem_of_mem_parts
  have hmade : Change s.outDir d (fun _ => False) w.tree v.tree :=
    .of_deepened hdeep h.direct hk.isName htext hundotted
  obtain ⟨former, v', hformer, hrun⟩ := ok_of_run_bind hrun
  obtain ⟨rfl, rfl⟩ := of_run_formerEntries hformer
  have hsame : s.entriesOf v'.tree k = s.entriesOf w.tree k := entriesOf_change h hmade hk id
  have hbeside : ∀ n ∈ k.otherNames, v'.tree.at? (d ++ (k.parts ++ [n])) =
      w.tree.at? (d ++ (k.parts ++ [n])) := fun n hn =>
    hmade.at?_eq id (TouchedBy.not_isMade ⟨n, List.mem_cons_of_mem _ hn, rfl⟩)
  rw [hsame] at hrun
  have hrun := ok_of_run_get hrun
  dsimp only at hrun
  generalize hmerge : merge v'.tree base clean (s.entriesOf w.tree k) ((known.find? k).getD []) =
    entries at hrun
  split at hrun
  next =>
    exact absurd hrun run_throw_ne
  next hfind =>
    have hfiles : ∀ e ∈ entries, files.has (e.resolvedInput v'.tree base) = true := by
      intro e he
      simpa using List.find?_eq_none.1 hfind e he
    have hmerged : Change s.outDir d (TouchedBy d k) v'.tree w'.tree →
        ∃ x, Change s.outDir d (IsModuleFile d) w.tree x ∧
          Change s.outDir d (IsModuleFile d) x w'.tree ∧
          entries = merge x base clean (s.entriesOf w.tree k) ((known.find? k).getD []) ∧
          ∀ e ∈ entries, files.has (e.resolvedInput x base) = true := fun hchange =>
      ⟨v'.tree, hmade.mono fun _ => False.elim, hchange.mono fun q hq => ⟨k, hq⟩, hmerge.symm, hfiles⟩
    split at hrun
    next hempty =>
      obtain ⟨_, v, hremove, hrun⟩ := ok_of_run_bind hrun
      obtain ⟨rfl, rfl⟩ := eq_of_run_pure hrun
      obtain ⟨hchange, hgone⟩ := of_run_removeFiles hmade.ground hdir hremove
      obtain rfl : entries = [] := List.isEmpty_iff.1 hempty
      have hnone : s.entriesOf w'.tree k = [] := by
        rw [entriesOf_eq hchange.ground hk]
        split
        · exact typesAt_of_none (hgone k.typesFileName (List.mem_cons_self ..)).2
        · rfl
      exact ⟨rfl, (hmade.mono fun _ => False.elim).trans hchange, rfl, hnone, by simp,
        hmerged hchange, ⟨htext, hchange.isDirectoryAt hdir⟩, fun _ => hgone,
        fun hne => absurd rfl hne⟩
    next hsome =>
      have hne : entries ≠ [] := by simpa using hsome
      split at hrun
      next hold =>
        obtain ⟨rfl, rfl⟩ := eq_of_run_pure hrun
        exact ⟨rfl, hmade.mono fun _ => False.elim, rfl, hsame.trans hold, by simp [hold],
          hmerged (.refl hmade.ground), ⟨htext, hdir⟩, fun hnil => absurd hnil hne,
          fun _ => hbeside⟩
      next hnew =>
        obtain ⟨_, v, hwrite, hrun⟩ := ok_of_run_bind hrun
        obtain ⟨rfl, rfl⟩ := eq_of_run_pure hrun
        obtain ⟨hwritten, hentries⟩ := of_run_writeTypes hmade.ground hk hwrite
        have hchange : Change s.outDir d (TouchedBy d k) v'.tree w'.tree :=
          hwritten.mono fun q hq => hq ▸ touchedBy_typesNames d k
        refine ⟨rfl, (hmade.mono fun _ => False.elim).trans hchange, rfl, hentries,
          by simpa using ⟨hne, Ne.symm hnew⟩, hmerged hchange, ⟨htext, hchange.isDirectoryAt hdir⟩,
          fun hnil => absurd hnil hne, fun _ n hn => ?_⟩
        refine (hwritten.at?_eq (fun hq => ?_)
          (TouchedBy.not_isMade ⟨n, List.mem_cons_of_mem _ hn, rfl⟩)).trans (hbeside n hn)
        have hname := (List.append_inj' (List.append_cancel_left hq) rfl).2
        exact QmlModule.ne_typesFileName_of_mem_otherNames hn k (List.singleton_inj.1 hname)

end Stubs

end QmlStubs
