import QmlStubs.Proofs.Leftovers

/-!
# Saves that are interrupted

A save makes its directory, opens its draft, writes the text into it and moves it to the snapshot's
file. It may be stopped after any of these operations, or fail there, and the draft may hold any
part of the text by then (`Scan.Unmoved`). Then (`Scan.interrupted_save`)

> **what is loaded afterwards is what was loaded before, or the snapshot that was saved**, which it
> can only be when the draft was moved; and a draft that is left is never noticed.

Two things spoil this (`Scan.interrupted_saves_show`): a path that leads to another directory once
missing directories are made for it (`Scan.IsStraight` excludes that), and a snapshot's file that is
a link to the draft, which may be there or not (`Scan.StoreIsApart`).
-/

set_option autoImplicit false

namespace QmlStubs

namespace FileTree

variable {t u v : FileTree} {p : Path} {paths : List Path}

/-! ## Trees on the way -/

/-- The trees on the way of making the first of some directories: each one above it may have been
made or not. -/
inductive MakingFirst : List Path → FileTree → FileTree → Prop where
  | start (paths : List Path) (t : FileTree) : MakingFirst paths t t
  | above {p : Path} {above : List Path} {t u : FileTree}
      (h : withDirectory? p t = .error .notFound) (hu : MakingFirst above t u) :
      MakingFirst (p :: above) t u
  | finish (paths : List Path) (t : FileTree) : MakingFirst paths t (t.run (makeFirst paths)).2

/-- The trees on the way of making a directory and the missing ones above it. -/
def Making (p : Path) (t u : FileTree) : Prop :=
  if p.text = "" then u = t else MakingFirst p.ancestors t u

theorem making_finish (p : Path) (t : FileTree) : Making p t (t.run (makeDirectories p)).2 := by
  unfold Making makeDirectories
  split
  · rfl
  · exact .finish ..

namespace MakingFirst

theorem grown (h : MakingFirst paths t u) : Grown t u := by
  induction h with
  | start paths t => exact Grown.refl t
  | above _ _ ih => exact ih
  | finish paths t => exact grown_makeFirst paths

/-- **The rest of the directories can still be made.** -/
theorem grown_finish (h : MakingFirst paths t u) : Grown u (t.run (makeFirst paths)).2 := by
  induction h with
  | start paths t => exact grown_makeFirst paths
  | @above p above t u h hu ih =>
    rw [run_makeFirst, h]
    dsimp only
    cases hr : t.run (makeFirst above) with
    | mk r v =>
      rw [hr] at ih
      cases r with
      | error e => exact ih
      | ok =>
        dsimp only
        split
        next w hw => exact ih.trans (grown_of_withDirectory? hw)
        next => split <;> exact ih
  | finish paths t => exact Grown.refl _

end MakingFirst

namespace Making

theorem grown (h : Making p t u) : Grown t u := by
  unfold Making at h
  split at h
  · exact h ▸ Grown.refl t
  · exact h.grown

theorem grown_finish (h : Making p t u) : Grown u (t.run (makeDirectories p)).2 := by
  unfold Making at h
  split at h
  · exact h ▸ grown_makeDirectories p
  next hne =>
    unfold makeDirectories
    rw [if_neg hne]
    exact h.grown_finish

/-- Where there is a directory already none is made. -/
theorem eq_of_isDirectory (h : Making p t u) (hdir : t.isDirectory p = true) : u = t := by
  unfold Making at h
  split at h
  · exact h
  next hne =>
    have hmake := makeDirectories_of_isDirectory hdir
    unfold makeDirectories at hmake
    rw [if_neg hne] at hmake
    unfold Path.ancestors at h hmake
    dsimp only at h hmake
    cases h with
    | start => rfl
    | above h _ =>
      rw [withDirectory?_of_isDirectory hdir] at h
      exact absurd h (by simp)
    | finish => rw [hmake]

end Making

theorem Grown.reaches (h : Grown t u) {d : Place} (hd : Reaches t p d) : Reaches u p d := by
  have hsame : AgreesOff (fun _ => False) t u := fun r e _ he => h.keeps r e he
  exact hd.frame hsame (fun _ hr => absurd hr id) h.current

end FileTree

open FileTree

namespace Scan

variable {t u v : FileTree} {s : Snapshot} {outDir : Path} {d q : Place} {x : Bool}

/-- The trees that a save may be stopped in before its draft is moved. -/
inductive Unmoved (s : Snapshot) (outDir : Path) (t : FileTree) : FileTree → Prop where
  /-- Some directories are made. -/
  | making {u : FileTree} (h : Making outDir t u) : Unmoved s outDir t u
  /-- The draft is opened. -/
  | opened {made u : FileTree} (hmake : t.run (makeDirectories outDir) = (.ok (), made))
      (hopen : made.run (writeText (Snapshot.draftIn outDir) "") = (.ok (), u)) :
      Unmoved s outDir t u
  /-- So many bytes are written. -/
  | drafted {made opened u : FileTree} (length : Nat)
      (hmake : t.run (makeDirectories outDir) = (.ok (), made))
      (hopen : made.run (writeText (Snapshot.draftIn outDir) "") = (.ok (), opened))
      (hwrite : opened.run (write (Snapshot.draftIn outDir) (s.text.toUTF8.extract 0 length)) =
        (.ok (), u)) : Unmoved s outDir t u

/-- A path that leads nowhere else once directories are made for it: it led to the same directory
before, or that is a new one. -/
def IsStraight (outDir : Path) (t : FileTree) : Prop :=
  ∀ d, Reaches (madeFor outDir t) outDir d → Reaches t outDir d ∨ t.at? d = none

/-- A path to a directory is straight. -/
theorem isStraight_of_isDirectory (h : t.isDirectory outDir = true) : IsStraight outDir t := by
  intro d hd
  unfold madeFor at hd
  rw [makeDirectories_of_isDirectory h] at hd
  exact .inl hd

/-! ## Making the directory -/

/-- What making directories for a snapshot comes to. -/
inductive Prepared (outDir : Path) (t : FileTree) : FileTree → Prop where
  | same : Prepared outDir t t
  /-- The path is too long for a snapshot, or cannot be followed at all. -/
  | unfit {u : FileTree} (h : textError? (outDir.join storeName) ≠ none) : Prepared outDir t u
  /-- The directory is a new one, or not there yet. -/
  | new {u : FileTree} (hnot : ∀ d, ¬ Reaches t outDir d) (hgrown : Grown t u)
      (hnew : ∀ d, Reaches u outDir d → t.at? d = none) : Prepared outDir t u

theorem prepared_of_making (hstraight : IsStraight outDir t) (h : Making outDir t u) :
    Prepared outDir t u := by
  by_cases hreaches : ∃ d, Reaches t outDir d
  · by_cases hfit : textError? (outDir.join storeName) = none
    · by_cases hempty : outDir.text = ""
      · unfold Making at h
        rw [if_pos hempty] at h
        exact h ▸ .same
      · have htext := textError?_of_join isName_storeName hempty hfit
        rw [h.eq_of_isDirectory (isDirectory_iff.2 ⟨htext, hreaches⟩)]
        exact .same
    · exact .unfit hfit
  · have hnot : ∀ d, ¬ Reaches t outDir d := fun d hd => hreaches ⟨d, hd⟩
    refine .new hnot h.grown fun d hd => ?_
    exact (hstraight d (h.grown_finish.reaches hd)).resolve_left (hnot d)

/-- In a new directory there are no files. -/
theorem bare_of_grown (ht : IsTree t) (hgrown : Grown t u) (hnew : t.at? d = none) (n : String)
    {e : Entry} (he : u.at? (d ++ [n]) = some e) : ∃ time, e = .directory time := by
  refine (hgrown.made _ e he).resolve_left fun he => ?_
  have hdir := ht.above d n e he
  rw [isDirectoryAt_eq_false_of_at? hnew] at hdir
  exact absurd hdir (by simp)

/-- What is not read is not loaded. -/
theorem load_of_not_read (h : ∀ content, t.read? (Snapshot.pathIn outDir) ≠ .ok content) :
    (Snapshot.load t outDir).1 = .empty := by
  unfold Snapshot.load Snapshot.read readText?
  split
  · cases hread : t.read? (Snapshot.pathIn outDir) with
    | ok content => exact absurd hread (h content)
    | error e => rfl
  · rfl

theorem reaches_of_read? {content : ByteArray}
    (h : t.read? (Snapshot.pathIn outDir) = .ok content) :
    Fits outDir storeName ∧ ∃ d, Reaches t outDir d := by
  obtain ⟨q, -, -, hplace, -⟩ := exists_of_read? h
  exact reaches_of_follow? isName_storeName (follow?_of_place? hplace)

namespace Prepared

/-- **Making the directory changes nothing that is loaded.** -/
theorem load_eq (h : Prepared outDir t u) (ht : IsTree t) :
    (Snapshot.load u outDir).1 = (Snapshot.load t outDir).1 := by
  cases h with
  | same => rfl
  | unfit hfit =>
    have hempty : ∀ w : FileTree, (Snapshot.load w outDir).1 = .empty := by
      intro w
      refine load_of_not_read fun content hread => ?_
      exact hfit (reaches_of_read? hread).1.text
    rw [hempty, hempty]
  | new hnot hgrown hnew =>
    have hbefore : (Snapshot.load t outDir).1 = .empty := by
      refine load_of_not_read fun content hread => ?_
      obtain ⟨-, d, hd⟩ := reaches_of_read? hread
      exact hnot d hd
    have hafter : (Snapshot.load u outDir).1 = .empty := by
      refine load_of_not_read fun content hread => ?_
      obtain ⟨-, d, hd⟩ := reaches_of_read? hread
      obtain ⟨e, he, hfile⟩ := exists_entry_of_read? isName_storeName hd hread
      obtain ⟨time, rfl⟩ := bare_of_grown ht hgrown (hnew d hd) _ he
      rw [isDirectoryAt_iff.2 ⟨time, he⟩] at hfile
      exact absurd hfile (by simp)
    rw [hbefore, hafter]

/-- **A draft in a new directory is apart from the snapshot's file.** -/
theorem storeIsApart (h : Prepared outDir t u) (ht : IsTree t) (hapart : StoreIsApart outDir t) :
    StoreIsApart outDir u := by
  cases h with
  | same => exact hapart
  | unfit hfit =>
    intro q x htarget
    exact absurd (fits_storeName (reaches_of_writeTarget? htarget).1).text hfit
  | new hnot hgrown hnew =>
    refine storeIsApart_of_plain fun _ d hd n _ target he => ?_
    obtain ⟨time, hdir⟩ := bare_of_grown ht hgrown (hnew d hd) n he
    exact absurd hdir (by simp)

/-- A draft that was no link is none. -/
theorem writable_draft (h : Prepared outDir t u) (ht : IsTree t)
    (hlink : t.isLink (Snapshot.draftIn outDir) = false) (hfits : Fits outDir draftName)
    (hd : Reaches u outDir d) (hfree : u.isDirectoryAt (d ++ [draftName]) = false) :
    Writable u (d ++ [draftName]) := by
  refine ⟨hfree, ?_⟩
  cases h with
  | same => exact not_link_of_isLink isName_draftName hfits hd hlink
  | unfit hfit => exact absurd (fits_storeName hfits).text hfit
  | new hnot hgrown hnew =>
    intro target he
    obtain ⟨time, hdir⟩ := bare_of_grown ht hgrown (hnew d hd) _ he
    exact absurd hdir (by simp)

end Prepared

/-! ## Before the draft is moved -/

namespace Unmoved

/-- **A save that did not move its draft made directories, or changed the draft as well.** -/
theorem cases_draft (h : Unmoved s outDir t u) :
    Making outDir t u ∨ ∃ made q x, Making outDir t made ∧ (u.at? q).isSome ∧
      DiffersByDraft outDir q x made u := by
  have hmaking {made : FileTree} (hmake : t.run (makeDirectories outDir) = (.ok (), made)) :
      Making outDir t made := by
    have hfinish := making_finish outDir t
    rwa [hmake] at hfinish
  cases h with
  | making h => exact .inl h
  | @opened made u hmake hopen =>
    obtain ⟨q, x, htarget, rfl⟩ := exists_of_run_write hopen
    refine .inr ⟨made, q, x, hmaking hmake, ?_, differsByDraft_put htarget _ _⟩
    rw [at?_put (ne_nil_of_writeTarget? htarget), if_pos rfl]
    rfl
  | @drafted made opened u length hmake hopen hwrite =>
    obtain ⟨q, x, htarget, rfl⟩ := exists_of_run_write hopen
    have hopened := differsByDraft_put htarget "".toUTF8 made.clock
    rw [run_write_of_writeTarget? hopened.target'] at hwrite
    obtain rfl := (Prod.mk.inj hwrite).2
    refine .inr ⟨made, q, x, hmaking hmake, ?_,
      hopened.trans (differsByDraft_put hopened.target' _ _)⟩
    rw [at?_put (ne_nil_of_writeTarget? htarget), if_pos rfl]
    rfl

/-- **A save may be stopped after any number of bytes**, where it has a place for its draft. -/
theorem of_writeTarget? (h : writeTarget? (Snapshot.draftIn outDir) t = .ok (q, x)) (s : Snapshot)
    (length : Nat) :
    Unmoved s outDir t (t.put q (.file (s.text.toUTF8.extract 0 length) t.clock x)) := by
  have hmake := (differsByDraft_put h "".toUTF8 t.clock).makeDirectories_eq
  have hwrite := run_write_of_writeTarget? (writeTarget?_put h "".toUTF8 t.clock)
    (s.text.toUTF8.extract 0 length)
  rw [put_put] at hwrite
  exact .drafted length hmake (run_write_of_writeTarget? h _) hwrite

/-- **Until its draft is moved a save changes nothing that is loaded.** -/
theorem load_eq (h : Unmoved s outDir t u) (ht : IsTree t) (hstraight : IsStraight outDir t)
    (hapart : StoreIsApart outDir t) :
    (Snapshot.load u outDir).1 = (Snapshot.load t outDir).1 := by
  rcases h.cases_draft with hmaking | ⟨made, q, x, hmaking, -, hdraft⟩
  · exact (prepared_of_making hstraight hmaking).load_eq ht
  · have hprepared := prepared_of_making hstraight hmaking
    rw [hdraft.load_eq (hprepared.storeIsApart ht hapart), hprepared.load_eq ht]

/-- **All goes on as if only directories had been made.** -/
theorem exists_answers_eq (h : Unmoved s outDir t u) (ht : IsTree t)
    (hstraight : IsStraight outDir t) (hapart : StoreIsApart outDir t) :
    ∃ made, Making outDir t made ∧ ∀ uses, answers outDir uses u = answers outDir uses made := by
  rcases h.cases_draft with hmaking | ⟨made, q, x, hmaking, -, hdraft⟩
  · exact ⟨u, hmaking, fun _ => rfl⟩
  · have hprepared := prepared_of_making hstraight hmaking
    exact ⟨made, hmaking, hdraft.answers_eq (hprepared.storeIsApart ht hapart)⟩

theorem storeIsApart (h : Unmoved s outDir t u) (ht : IsTree t) (hstraight : IsStraight outDir t)
    (hapart : StoreIsApart outDir t) : StoreIsApart outDir u := by
  rcases h.cases_draft with hmaking | ⟨made, q, x, hmaking, hsome, hdraft⟩
  · exact (prepared_of_making hstraight hmaking).storeIsApart ht hapart
  · exact hdraft.storeIsApart ((prepared_of_making hstraight hmaking).storeIsApart ht hapart) hsome

end Unmoved

/-! ## Refused saves -/

/-- A list of edits is refused at its first one, or after it. -/
theorem error_of_run_forM_cons {c : FileError} {e : Edit} {rest : List Edit}
    (h : t.run ((e :: rest).forM id) = (.error c, v)) :
    t.run e = (.error c, v) ∨
      ∃ u, t.run e = (.ok (), u) ∧ u.run (rest.forM id) = (.error c, v) := by
  have hseq := run_seq (t := t) e (rest.forM id)
  have h : t.run (e >>= fun _ => rest.forM id) = (.error c, v) := h
  rw [h] at hseq
  cases he : t.run e with
  | mk r u =>
    rw [he] at hseq
    cases r with
    | ok => exact .inr ⟨u, rfl, hseq.symm⟩
    | error c' => exact .inl hseq.symm

/-- A single operation that is refused leaves the tree alone. -/
theorem eq_of_run_editBy_error {c : FileError} {f : FileTree → Except FileError FileTree}
    (h : t.run (editBy f) = (.error c, u)) : u = t := by
  rw [run_editBy] at h
  split at h
  · exact absurd (Prod.mk.inj h).1 (by simp)
  · exact (Prod.mk.inj h).2.symm

/-- A save is refused when its draft cannot be opened. -/
theorem run_save_of_error {c : FileError} (hmake : (t.run (makeDirectories outDir)).1 = .ok ())
    (hopen : ((madeFor outDir t).run (writeText (Snapshot.draftIn outDir) "")).1 = .error c) :
    t.run (s.save outDir) = (.error c, madeFor outDir t) := by
  have hmade : t.run (makeDirectories outDir) = (.ok (), madeFor outDir t) := Prod.ext hmake rfl
  cases hrun : (madeFor outDir t).run (writeText (Snapshot.draftIn outDir) "") with
  | mk r u =>
  rw [hrun] at hopen
  obtain rfl : r = .error c := hopen
  obtain rfl := eq_of_run_editBy_error hrun
  have hseq := run_seq (t := madeFor outDir t) (writeText (Snapshot.draftIn outDir) "")
    ((s.saveSteps outDir).tail.tail.forM id)
  rw [hrun] at hseq
  unfold Snapshot.save Snapshot.saveSteps
  rw [run_forM_cons hmade]
  exact hseq

/-- **A save that is refused has not moved its draft.** -/
theorem unmoved_of_run_save {c : FileError} (h : t.run (s.save outDir) = (.error c, u)) :
    Unmoved s outDir t u := by
  have hfinish := making_finish outDir t
  unfold Snapshot.save Snapshot.saveSteps at h
  rcases error_of_run_forM_cons h with hmake | ⟨made, hmake, h⟩
  · rw [hmake] at hfinish
    exact .making hfinish
  rcases error_of_run_forM_cons h with hopen | ⟨opened, hopen, h⟩
  · rw [hmake] at hfinish
    rw [eq_of_run_editBy_error hopen]
    exact .making hfinish
  rcases error_of_run_forM_cons h with hwrite | ⟨written, hwrite, h⟩
  · rw [eq_of_run_editBy_error hwrite]
    exact .opened hmake hopen
  rcases error_of_run_forM_cons h with hmove | ⟨moved, -, hend⟩
  · rw [eq_of_run_editBy_error hmove]
    refine .drafted s.text.toUTF8.size hmake hopen ?_
    rw [ByteArray.extract_zero_size]
    exact hwrite
  · rw [run_forM_nil] at hend
    exact absurd (Prod.mk.inj hend).1 (by simp)

/-! ## After the draft was moved -/

/-- **A snapshot that could be read can be read again**, when a save has replaced its file: the way
to the directory does not lead over it. -/
theorem reaches_of_saved {content : ByteArray} (ht : IsTree t) (hd : Reaches t outDir d)
    (hfits : Fits outDir draftName) (hdraft : Writable t (d ++ [draftName]))
    (hapart : StoreIsApart outDir t) (hs : Saved s t u d)
    (hread : t.read? (Snapshot.pathIn outDir) = .ok content) : Reaches u outDir d := by
  -- The draft is taken out first, then the snapshot's file is replaced.
  have hat := ht.at?_cut hdraft.not_directory
  have hsame : AgreesOff (· = d ++ [draftName]) t (t.cut (d ++ [draftName])) := by
    intro r e hr he
    rw [hat, if_neg hr, he]
  have hw : ∀ r, r = d ++ [draftName] → Writable t r := fun r hr => hr ▸ hdraft
  obtain ⟨q, time, x, hplace, hq⟩ := exists_of_read? hread
  have hoff : q ≠ d ++ [draftName] := by
    rintro rfl
    obtain ⟨y, hy⟩ := run_write_join isName_draftName hfits hd hdraft "".toUTF8
    obtain ⟨q, z, htarget, -⟩ := exists_of_run_write hy
    obtain rfl := eq_of_writeTarget? hd hdraft.not_link htarget
    exact (hapart _ _ htarget).1 (follow?_of_place? hplace)
  have hread' : (t.cut (d ++ [draftName])).read? (Snapshot.pathIn outDir) = .ok content :=
    read?_of_place? (place?_frame hsame hw rfl hplace hoff) (hsame q _ hoff hq)
  refine (hd.frame hsame hw rfl).of_read? isName_storeName hread' (fun r e hr he => ?_) hs.current
  rw [hat] at he
  split at he
  · exact absurd he (by simp)
  next hr' => rw [hs.same r hr hr', he]

/-- **What a save leaves in its file is loaded**, if the directory is still reached. -/
theorem load_of_saved_of_reaches (hd : Reaches t outDir d) (hfits : Fits outDir draftName)
    (hs : Saved s t u d) (hfinite : s.modules.HasFiniteTimes)
    (hreaches : ∃ e, Reaches u outDir e) :
    Snapshot.load u outDir = (.ofModules s.modules, none) := by
  obtain ⟨x, hstored⟩ := hs.stored
  obtain ⟨e, he⟩ := hreaches
  have hback : AgreesOff (fun r => r = d ++ [storeName] ∨ r = d ++ [draftName]) u t := by
    intro r e hr he
    rw [← hs.same r (fun h => hr (.inl h)) fun h => hr (.inr h), he]
  have hw : ∀ r, r = d ++ [storeName] ∨ r = d ++ [draftName] → Writable u r := by
    rintro r (rfl | rfl)
    · exact .of_file hstored
    · exact .of_none hs.drafted
  obtain rfl := (he.frame hback hw hs.current.symm).unique hd
  have hplace : u.place? (Snapshot.pathIn outDir) = .ok (e ++ [storeName]) :=
    place?_of_follow? (follow?_join_found isName_storeName (fits_storeName hfits) he hstored nofun)
  exact load_of_read? (read?_of_place? hplace hstored) hfinite

/-- **After a save the former snapshot is loaded, or the one that was saved.** The former one is
when the file takes the place of a link that the way to the directory leads over: then none is
found. -/
theorem load_of_run_save (ht : IsTree t) (hfinite : s.modules.HasFiniteTimes)
    (hlink : t.isLink (Snapshot.draftIn outDir) = false) (hstraight : IsStraight outDir t)
    (hapart : StoreIsApart outDir t) (h : t.run (s.save outDir) = (.ok (), u)) :
    (Snapshot.load u outDir).1 = (Snapshot.load t outDir).1 ∨
      (Snapshot.load u outDir).1 = .ofModules s.modules := by
  unfold Snapshot.save Snapshot.saveSteps at h
  obtain ⟨made, hmake, h⟩ := ok_of_run_forM_cons h
  obtain ⟨opened, hopen, h⟩ := ok_of_run_forM_cons h
  obtain ⟨written, hwrite, h⟩ := ok_of_run_forM_cons h
  obtain ⟨moved, hmove, hend⟩ := ok_of_run_forM_cons h
  rw [run_forM_nil] at hend
  obtain rfl := (Prod.mk.inj hend).2
  have hmaking := making_finish outDir t
  rw [hmake] at hmaking
  have hprepared := prepared_of_making hstraight hmaking
  have hmadeTree := hmaking.grown.isTree ht
  obtain ⟨hfits, d, hd, hfree⟩ := of_run_write_join isName_draftName hopen
  have hdraft := hprepared.writable_draft ht hlink hfits hd hfree
  obtain ⟨q, hwritten⟩ := writtenTo_of_run_write hopen hwrite
  have hstore : made.isDirectoryAt (d ++ [storeName]) = false := by
    by_cases hq : d ++ [storeName] = q
    · exact hq ▸ hwritten.writable.not_directory
    · have hdir := of_run_rename_join isName_draftName isName_storeName hfits (fits_storeName hfits)
        (hd.frame hwritten.agreesOff (fun r hr => hr ▸ hwritten.writable) hwritten.current) hmove
      unfold isDirectoryAt at hdir ⊢
      rwa [hwritten.same _ hq] at hdir
  obtain ⟨saved, hsave, -, hsaved⟩ := run_save hmadeTree hd hfits hdraft hstore s
  obtain rfl : saved = moved := by
    unfold Snapshot.save Snapshot.saveSteps at hsave
    rw [run_forM_cons (makeDirectories_again isName_draftName hfits.text hmake),
      run_forM_cons hopen, run_forM_cons hwrite, run_forM_cons hmove, run_forM_nil] at hsave
    exact (Prod.mk.inj hsave).2.symm
  by_cases hreaches : ∃ e, Reaches saved outDir e
  · exact .inr (by rw [load_of_saved_of_reaches hd hfits hsaved hfinite hreaches])
  · have hafter : (Snapshot.load saved outDir).1 = .empty := by
      refine load_of_not_read fun content hread => ?_
      exact hreaches (reaches_of_read? hread).2
    have hbefore : (Snapshot.load made outDir).1 = .empty := by
      have hmadeApart := hprepared.storeIsApart ht hapart
      refine load_of_not_read fun content hread => hreaches ⟨d, ?_⟩
      exact reaches_of_saved hmadeTree hd hfits hdraft hmadeApart hsaved hread
    exact .inl (by rw [hafter, ← hbefore, hprepared.load_eq ht])

/-- **After an interrupted save the former snapshot is loaded, or the one that was saved**, and the
former one if the save was stopped before it moved its draft, or was refused. What is left of a
draft is never noticed: all goes on as if only directories had been made, and whatever the draft
held. -/
theorem interrupted_save (ht : IsTree t) (hfinite : s.modules.HasFiniteTimes)
    (hlink : t.isLink (Snapshot.draftIn outDir) = false) (hstraight : IsStraight outDir t)
    (hapart : StoreIsApart outDir t) :
    (∀ u, Unmoved s outDir t u → (Snapshot.load u outDir).1 = (Snapshot.load t outDir).1) ∧
      (∀ u, t.run (s.save outDir) = (.ok (), u) →
        (Snapshot.load u outDir).1 = (Snapshot.load t outDir).1 ∨
          (Snapshot.load u outDir).1 = .ofModules s.modules) ∧
      (∀ c u, t.run (s.save outDir) = (.error c, u) → Unmoved s outDir t u) ∧
      (∀ u, Unmoved s outDir t u → ∃ made, Making outDir t made ∧
        ∀ uses, answers outDir uses u = answers outDir uses made) ∧
      ∀ u, Unmoved s outDir t u → ∀ q x v, DiffersByDraft outDir q x u v →
        ∀ uses, answers outDir uses v = answers outDir uses u :=
  ⟨fun _ hu => hu.load_eq ht hstraight hapart,
    fun _ hu => load_of_run_save ht hfinite hlink hstraight hapart hu,
    fun _ _ hu => unmoved_of_run_save hu,
    fun _ hu => hu.exists_answers_eq ht hstraight hapart,
    fun _ hu _ _ _ hdraft => hdraft.answers_eq (hu.storeIsApart ht hstraight hapart)⟩

/-- A directory in which a snapshot is kept. -/
def storedTree : FileTree where
  entries := .ofList [(["o"], .directory ⟨100, 0⟩),
    (["o", "metadata.json"], .file oldSnapshot.text.toUTF8 ⟨100, 0⟩ false)]
  current := []
  clock := ⟨200, 0⟩

/-- The snapshot that is saved over it. -/
def laterSnapshot : Snapshot := .ofModules (.ofList [("c", none)])

theorem hasFiniteTimes_laterSnapshot : laterSnapshot.modules.HasFiniteTimes := by decide +kernel

theorem oldSnapshot_ne_empty : Snapshot.ofModules oldSnapshot.modules ≠ .empty := by decide +kernel

theorem laterSnapshot_ne_empty : Snapshot.ofModules laterSnapshot.modules ≠ .empty := by
  decide +kernel

theorem isTree_storedTree : IsTree storedTree := .of_entries (by decide) (by decide)

theorem load_storedTree :
    Snapshot.load storedTree ⟨"o"⟩ = (.ofModules oldSnapshot.modules, none) := by
  have hplace : storedTree.place? (Snapshot.pathIn ⟨"o"⟩) = .ok ["o", "metadata.json"] := by
    decide +kernel
  exact load_of_read? (read?_of_place? hplace rfl) hasFiniteTimes_oldSnapshot

/-- A save is stopped after nine bytes of its draft: the former snapshot is loaded, and from then on
all goes as if there were no draft. -/
theorem interrupted_save_in_storedTree :
    ∃ u, Unmoved laterSnapshot ⟨"o"⟩ storedTree u ∧
      u.read? (Snapshot.draftIn ⟨"o"⟩) = .ok (laterSnapshot.text.toUTF8.extract 0 9) ∧
        (Snapshot.load u ⟨"o"⟩).1 = .ofModules oldSnapshot.modules ∧
          answers ⟨"o"⟩ [.load, .save laterSnapshot, .load] u =
            answers ⟨"o"⟩ [.load, .save laterSnapshot, .load] storedTree := by
  have htarget : writeTarget? (Snapshot.draftIn ⟨"o"⟩) storedTree =
      .ok (["o", "metadata.json.tmp"], false) := by decide +kernel
  have hstraight : IsStraight ⟨"o"⟩ storedTree := isStraight_of_isDirectory (by decide +kernel)
  have hapart : StoreIsApart ⟨"o"⟩ storedTree :=
    storeIsApart_of_not_link (by decide +kernel) (by decide +kernel)
  obtain ⟨hload, -, -, -, hanswers⟩ := interrupted_save isTree_storedTree
    hasFiniteTimes_laterSnapshot (by decide +kernel) hstraight hapart
  have hunmoved := Unmoved.of_writeTarget? htarget laterSnapshot 9
  refine ⟨_, hunmoved, ?_, ?_, ?_⟩
  · exact read?_of_run_write (run_write_of_writeTarget? htarget _)
  · rw [hload _ hunmoved, load_storedTree]
  · exact hanswers storedTree (.making (.start ..)) _ _ _ (differsByDraft_put htarget ..) _

/-! ## Where an interrupted save shows -/

/-- A directory with a snapshot's file that is a link to the draft. -/
def sharedTree : FileTree where
  entries := .ofList [(["o"], .directory ⟨100, 0⟩),
    (["o", "metadata.json"], .link ⟨"metadata.json.tmp"⟩),
    (["o", "metadata.json.tmp"], .file oldSnapshot.text.toUTF8 ⟨100, 0⟩ false)]
  current := []
  clock := ⟨200, 0⟩

/-- The same without the draft. -/
def danglingTree : FileTree where
  entries := .ofList [(["o"], .directory ⟨100, 0⟩),
    (["o", "metadata.json"], .link ⟨"metadata.json.tmp"⟩)]
  current := []
  clock := ⟨200, 0⟩

/-- A save that has not moved its draft, and changed what is loaded. -/
structure Shows (s : Snapshot) (outDir : Path) (t u : FileTree) : Prop where
  isTree : IsTree t
  noLink : t.isLink (Snapshot.draftIn outDir) = false
  unmoved : Unmoved s outDir t u
  changed : (Snapshot.load u outDir).1 ≠ (Snapshot.load t outDir).1

theorem shows_storedTree :
    ∃ c u, storedTree.run (laterSnapshot.save ⟨"o/metadata.json.tmp/.."⟩) = (.error c, u) ∧
      Shows laterSnapshot ⟨"o/metadata.json.tmp/.."⟩ storedTree u := by
  have hsave : storedTree.run (laterSnapshot.save ⟨"o/metadata.json.tmp/.."⟩) =
      (.error .isADirectory, madeFor ⟨"o/metadata.json.tmp/.."⟩ storedTree) :=
    run_save_of_error (by decide +kernel) (by decide +kernel)
  have hplace : (madeFor ⟨"o/metadata.json.tmp/.."⟩ storedTree).place?
      (Snapshot.pathIn ⟨"o/metadata.json.tmp/.."⟩) = .ok ["o", "metadata.json"] := by decide +kernel
  have hgrown := grown_makeDirectories (t := storedTree) ⟨"o/metadata.json.tmp/.."⟩
  have hafter := load_of_read? (read?_of_place? hplace (hgrown.keeps _ _ rfl))
    hasFiniteTimes_oldSnapshot
  have hbefore : (Snapshot.load storedTree ⟨"o/metadata.json.tmp/.."⟩).1 = .empty := by
    decide +kernel
  refine ⟨_, _, hsave, isTree_storedTree, by decide +kernel, unmoved_of_run_save hsave, ?_⟩
  rw [hafter, hbefore]
  exact oldSnapshot_ne_empty

theorem shows_sharedTree :
    ∃ u, Shows laterSnapshot ⟨"o"⟩ sharedTree u ∧
      (Snapshot.load u ⟨"o"⟩).1 ≠ .ofModules laterSnapshot.modules := by
  have htarget : writeTarget? (Snapshot.draftIn ⟨"o"⟩) sharedTree =
      .ok (["o", "metadata.json.tmp"], false) := by decide +kernel
  have hplace : sharedTree.place? (Snapshot.pathIn ⟨"o"⟩) = .ok ["o", "metadata.json.tmp"] := by
    decide +kernel
  have hbefore := load_of_read? (read?_of_place? hplace rfl) hasFiniteTimes_oldSnapshot
  have hunmoved := Unmoved.of_writeTarget? htarget laterSnapshot 0
  rw [ByteArray.extract_same] at hunmoved
  have hafter : (Snapshot.load (sharedTree.put ["o", "metadata.json.tmp"]
      (.file .empty sharedTree.clock false)) ⟨"o"⟩).1 = .empty := by decide +kernel
  refine ⟨_, ⟨.of_entries (by decide) (by decide), by decide +kernel, hunmoved, ?_⟩, ?_⟩
  · rw [hafter, hbefore]
    exact oldSnapshot_ne_empty.symm
  · rw [hafter]
    exact laterSnapshot_ne_empty.symm

theorem shows_danglingTree : ∃ u, Shows laterSnapshot ⟨"o"⟩ danglingTree u := by
  have htarget : writeTarget? (Snapshot.draftIn ⟨"o"⟩) danglingTree =
      .ok (["o", "metadata.json.tmp"], false) := by decide +kernel
  have hunmoved :=
    Unmoved.of_writeTarget? htarget laterSnapshot laterSnapshot.text.toUTF8.size
  rw [ByteArray.extract_zero_size] at hunmoved
  have hbefore : (Snapshot.load danglingTree ⟨"o"⟩).1 = .empty := by decide +kernel
  have hfollow : danglingTree.follow? (Snapshot.pathIn ⟨"o"⟩) =
      .ok (.free ["o", "metadata.json.tmp"]) := by decide +kernel
  have hplace := place?_put_target (isPlain_file laterSnapshot.text.toUTF8 danglingTree.clock false)
    (writable_of_writeTarget? htarget) (.inr hfollow)
  have hafter := load_of_read? (read?_of_place? hplace (by rw [at?_put (by simp), if_pos rfl]))
    hasFiniteTimes_laterSnapshot
  refine ⟨_, .of_entries (by decide) (by decide), by decide +kernel, hunmoved, ?_⟩
  rw [hafter, hbefore]
  exact laterSnapshot_ne_empty

/-- **Interrupted saves show**: a refused one when a directory that it made opens the way to another
snapshot, and stopped ones when the snapshot's file is a link to the draft, which is emptied while
it is the snapshot, or is loaded before it was moved. -/
theorem interrupted_saves_show :
    laterSnapshot.modules.HasFiniteTimes ∧
      (∃ c u, storedTree.run (laterSnapshot.save ⟨"o/metadata.json.tmp/.."⟩) = (.error c, u) ∧
        Shows laterSnapshot ⟨"o/metadata.json.tmp/.."⟩ storedTree u) ∧
      (∃ u, Shows laterSnapshot ⟨"o"⟩ sharedTree u ∧
        (Snapshot.load u ⟨"o"⟩).1 ≠ .ofModules laterSnapshot.modules) ∧
      ∃ u, Shows laterSnapshot ⟨"o"⟩ danglingTree u :=
  ⟨hasFiniteTimes_laterSnapshot, shows_storedTree, shows_sharedTree, shows_danglingTree⟩

end Scan

end QmlStubs
