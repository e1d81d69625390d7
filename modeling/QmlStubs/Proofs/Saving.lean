import QmlStubs.Proofs.Edits
import QmlStubs.Proofs.SnapshotRoundTrip
import QmlStubs.Scan

/-!
# Saving a snapshot and loading it again

A snapshot is written beside its file and moved there. This file follows the four steps of a save
through the tree (`Scan.keep_of_storable`), and proves that **what was saved is what the next run
loads** (`Scan.load_of_saved`), provided that neither of the two files is a symbolic link: a draft
that is a link to the snapshot's own file would be moved onto itself, and an output directory that
is reached through a link of that name would be cut off.
-/

set_option autoImplicit false

namespace QmlStubs

/-- A text is read back from its bytes. -/
theorem Text.fromUTF8?_toUTF8 (s : String) : String.fromUTF8? s.toUTF8 = some s := by
  unfold String.fromUTF8?
  rw [dif_pos (s.toUTF8_eq_toByteArray ▸ s.isValidUTF8)]
  rfl

namespace FileTree

variable {t : FileTree}

/-- Whether there is a link under a path itself. -/
def isLink (t : FileTree) (p : Path) : Bool :=
  match t.followParent? p with
  | .ok (.found place) =>
    match t.at? place with
    | some (.link _) => true
    | _ => false
  | _ => false

theorem not_link_of_isLink {p : Path} {n : String} (hn : IsName n) (hfits : Fits p n) {d : Place}
    (h : Reaches t p d) (hlink : t.isLink (p.join n) = false) (target : Path) :
    t.at? (d ++ [n]) ≠ some (.link target) := by
  intro he
  unfold isLink at hlink
  rw [followParent?_join hn hfits h, he] at hlink
  dsimp only [Option.isSome] at hlink
  rw [if_pos rfl] at hlink
  dsimp only at hlink
  rw [he] at hlink
  exact absurd hlink (by simp)

/-- Making directories again changes nothing, if names fit behind the path. -/
theorem makeDirectories_again {u : FileTree} {p : Path} {n : String} (hn : IsName n)
    (ht : textError? (p.join n) = none) (h : t.run (makeDirectories p) = (.ok (), u)) :
    u.run (makeDirectories p) = (.ok (), u) := by
  by_cases hp : p.text = ""
  · unfold makeDirectories
    rw [if_pos hp]
    exact run_pure
  · exact makeDirectories_of_isDirectory
      (isDirectory_of_makeDirectories (textError?_of_join hn hp ht) h)

/-- A directory that names are looked up in does not have to be made. -/
theorem makeDirectories_of_reaches {p : Path} {n : String} (hn : IsName n) {d : Place}
    (ht : textError? (p.join n) = none) (h : Reaches t p d) :
    t.run (makeDirectories p) = (.ok (), t) := by
  by_cases hp : p.text = ""
  · unfold makeDirectories
    rw [if_pos hp]
    exact run_pure
  · exact makeDirectories_of_isDirectory (isDirectory_iff.2 ⟨textError?_of_join hn hp ht, d, h⟩)

end FileTree

open FileTree

namespace Scan

variable {t u : FileTree} {s : Snapshot} {outDir : Path} {d : Place}

/-- The name of the file that a snapshot is kept in. -/
def storeName : String := "metadata.json"

/-- The name of the file that a snapshot is written to first. -/
def draftName : String := "metadata.json.tmp"

theorem isName_storeName : IsName storeName := by decide

theorem isName_draftName : IsName draftName := by decide

theorem draftName_ne_storeName : draftName ≠ storeName := by decide

theorem pathIn_eq : Snapshot.pathIn outDir = outDir.join storeName := rfl

theorem draftIn_eq : Snapshot.draftIn outDir = outDir.join draftName := rfl

/-- A tree in which a snapshot can be saved in the directory at a place. -/
structure Storable (t : FileTree) (outDir : Path) (d : Place) : Prop where
  isTree : IsTree t
  reaches : Reaches t outDir d
  fits : Fits outDir draftName
  draft : Writable t (d ++ [draftName])
  store : Writable t (d ++ [storeName])

/-- What a save leaves: the text of the snapshot in its file, and nothing else that is new. -/
structure Saved (s : Snapshot) (t u : FileTree) (d : Place) : Prop where
  stored : ∃ executable, u.at? (d ++ [storeName]) = some (.file s.text.toUTF8 t.clock executable)
  drafted : u.at? (d ++ [draftName]) = none
  same : ∀ q, q ≠ d ++ [storeName] → q ≠ d ++ [draftName] → u.at? q = t.at? q
  current : u.current = t.current
  clock : u.clock = t.clock

/-- The name of the snapshot's file is the shorter one. -/
theorem fits_storeName (h : Fits outDir draftName) : Fits outDir storeName := by
  have hlonger : (outDir.join draftName).text.toList =
      (outDir.join storeName).text.toList ++ ".tmp".toList :=
    toList_join_append isName_storeName ".tmp"
  exact ⟨textError?_of_append hlonger (text_join_ne_empty isName_storeName) h.text,
    by unfold IsShort; decide⟩

/-! ## Saving -/

/-- The steps of keeping a snapshot, none of which is refused. -/
structure Steps (s : Snapshot) (outDir : Path) (t u : FileTree) where
  made : FileTree
  again : FileTree
  opened : FileTree
  written : FileTree
  make : t.run (makeDirectories outDir) = (.ok (), made)
  makeAgain : made.run (makeDirectories outDir) = (.ok (), again)
  openDraft : again.run (writeText (outDir.join draftName) "") = (.ok (), opened)
  writeDraft : opened.run (writeText (outDir.join draftName) s.text) = (.ok (), written)
  move : written.run (rename (outDir.join draftName) (outDir.join storeName)) = (.ok (), u)

theorem Steps.keep_eq (h : Steps s outDir t u) : keep s outDir t = (.ok (), u) := by
  have hsave : h.made.run (s.save outDir) = (.ok (), u) := by
    unfold Snapshot.save Snapshot.saveSteps
    rw [run_forM_cons h.makeAgain, draftIn_eq, pathIn_eq, run_forM_cons h.openDraft,
      run_forM_cons h.writeDraft, run_forM_cons h.move, run_forM_nil]
  unfold keep
  rw [h.make]
  dsimp only
  rw [hsave]

theorem nonempty_steps (h : keep s outDir t = (.ok (), u)) : Nonempty (Steps s outDir t u) := by
  unfold keep at h
  cases hmake : t.run (makeDirectories outDir) with
  | mk r made =>
    rw [hmake] at h
    cases r with
    | error e => exact absurd (Prod.mk.inj h).1 (by simp)
    | ok =>
      dsimp only at h
      cases hsave : made.run (s.save outDir) with
      | mk r v =>
        rw [hsave] at h
        cases r with
        | error e => exact absurd (Prod.mk.inj h).1 (by simp)
        | ok =>
          obtain rfl : v = u := (Prod.mk.inj h).2
          obtain ⟨again, hagain, hsave⟩ := ok_of_run_forM_cons hsave
          obtain ⟨opened, hopen, hsave⟩ := ok_of_run_forM_cons hsave
          obtain ⟨written, hwrite, hsave⟩ := ok_of_run_forM_cons hsave
          obtain ⟨v, hmove, hend⟩ := ok_of_run_forM_cons hsave
          rw [run_forM_nil] at hend
          obtain rfl := (Prod.mk.inj hend).2
          exact ⟨⟨made, again, opened, written, hmake, hagain, hopen, hwrite, hmove⟩⟩

/-- A snapshot is kept below a path whose text can be followed. -/
theorem textError?_of_keep (hne : outDir.text ≠ "") (h : keep s outDir t = (.ok (), u)) :
    textError? outDir = none := by
  obtain ⟨steps⟩ := nonempty_steps h
  obtain ⟨hfits, -⟩ := of_run_write_join isName_draftName steps.openDraft
  exact textError?_of_join isName_draftName hne hfits.text

/-- The draft and the snapshot's file are two places. -/
theorem draft_ne_store : d ++ [draftName] ≠ d ++ [storeName] := by
  intro h
  exact draftName_ne_storeName (by simpa using h)

/-- **Where a draft can be written a snapshot can be saved**, and only its own file is changed,
whatever file or link was there. -/
theorem run_save (ht : IsTree t) (hd : Reaches t outDir d) (hfits : Fits outDir draftName)
    (hdraft : Writable t (d ++ [draftName]))
    (hstore : t.isDirectoryAt (d ++ [storeName]) = false) (s : Snapshot) :
    ∃ u, t.run (s.save outDir) = (.ok (), u) ∧ IsTree u ∧ Saved s t u d := by
  have hne : d ++ [draftName] ≠ [] := by simp
  have hne' : d ++ [storeName] ≠ [] := by simp
  have hdirs : t.run (makeDirectories outDir) = (.ok (), t) :=
    makeDirectories_of_reaches isName_draftName hfits.text hd
  obtain ⟨x, hx⟩ := run_write_join isName_draftName hfits hd hdraft "".toUTF8
  have hd₁ := hd.put hne hdraft (.file "".toUTF8 t.clock x)
  have hdraft₁ := writable_put (t := t) hne "".toUTF8 t.clock x
  have ht₁ := ht.of_run_write hx
  generalize hu₁ : t.put (d ++ [draftName]) (.file "".toUTF8 t.clock x) = t₁ at hx hd₁ hdraft₁ ht₁
  obtain ⟨y, hy⟩ := run_write_join isName_draftName hfits hd₁ hdraft₁ s.text.toUTF8
  have hd₂ := hd₁.put hne hdraft₁ (.file s.text.toUTF8 t₁.clock y)
  have hdraft₂ := writable_put (t := t₁) hne s.text.toUTF8 t₁.clock y
  have ht₂ := ht₁.of_run_write hy
  generalize hu₂ : t₁.put (d ++ [draftName]) (.file s.text.toUTF8 t₁.clock y) = t₂
    at hy hd₂ hdraft₂ ht₂
  have hclock : t₁.clock = t.clock := by
    rw [← hu₁]
    rfl
  have hsame : ∀ q, q ≠ d ++ [draftName] → t₂.at? q = t.at? q := by
    intro q hq
    rw [← hu₂, at?_put hne, if_neg hq, ← hu₁, at?_put hne, if_neg hq]
  have hdrafted : t₂.at? (d ++ [draftName]) = some (.file s.text.toUTF8 t₁.clock y) := by
    rw [← hu₂, at?_put hne, if_pos rfl]
  have hstore₂ : t₂.isDirectoryAt (d ++ [storeName]) = false := by
    unfold isDirectoryAt at hstore ⊢
    rwa [hsame _ draft_ne_store.symm]
  have hrename := run_rename_join isName_draftName isName_storeName hfits (fits_storeName hfits) hd₂
    hdrafted hdraft₂.not_directory hstore₂
  have hcut : ∀ q, (t₂.cut (d ++ [draftName])).at? q =
      if q = d ++ [draftName] then none else t₂.at? q := ht₂.at?_cut hdraft₂.not_directory
  refine ⟨(t₂.cut (d ++ [draftName])).put (d ++ [storeName])
    (.file s.text.toUTF8 t₁.clock y), ?_,
    ht₂.moved hd₂.isDirectory hdraft₂.not_directory hstore₂, ⟨y, ?_⟩, ?_,
    fun q hq hq' => ?_, ?_, ?_⟩
  · have hopen : t.run (writeText (outDir.join draftName) "") = (.ok (), t₁) := hx
    have hwrite : t₁.run (writeText (outDir.join draftName) s.text) = (.ok (), t₂) := hy
    unfold Snapshot.save Snapshot.saveSteps
    rw [run_forM_cons hdirs, draftIn_eq, pathIn_eq, run_forM_cons hopen, run_forM_cons hwrite,
      run_forM_cons hrename, run_forM_nil]
  · rw [at?_put hne', if_pos rfl, hclock]
  · rw [at?_put hne', if_neg draft_ne_store, hcut, if_pos rfl]
  · rw [at?_put hne', if_neg hq, hcut, if_neg hq', hsame q hq']
  · rw [← hu₂, ← hu₁]
    rfl
  · rw [← hu₂, ← hu₁]
    rfl

/-- **Where a snapshot can be saved, it is kept**, and only its own file is changed. -/
theorem keep_of_storable (h : Storable t outDir d) (s : Snapshot) :
    ∃ u, keep s outDir t = (.ok (), u) ∧ Saved s t u d := by
  obtain ⟨u, hu, -, hsaved⟩ :=
    run_save h.isTree h.reaches h.fits h.draft h.store.not_directory s
  refine ⟨u, ?_, hsaved⟩
  unfold keep
  rw [makeDirectories_of_reaches isName_draftName h.fits.text h.reaches]
  dsimp only
  rw [hu]

theorem Saved.agreesOff (hs : Saved s t u d) :
    AgreesOff (fun p => p = d ++ [storeName] ∨ p = d ++ [draftName]) t u := by
  intro p e hp he
  rw [hs.same p (fun h => hp (.inl h)) fun h => hp (.inr h), he]

theorem Storable.writable (h : Storable t outDir d) {p : Place}
    (hp : p = d ++ [storeName] ∨ p = d ++ [draftName]) : Writable t p := by
  rcases hp with rfl | rfl
  · exact h.store
  · exact h.draft

/-- After a save the snapshot can be saved again. -/
theorem Storable.of_saved (h : Storable t outDir d) (hs : Saved s t u d) : Storable u outDir d := by
  have hdir : ∀ p, t.isDirectoryAt p = true → u.isDirectoryAt p = true := by
    intro p hp
    obtain ⟨time, htime⟩ := isDirectoryAt_iff.1 hp
    refine isDirectoryAt_iff.2 ⟨time, hs.agreesOff p _ (fun hmem => ?_) htime⟩
    rw [(h.writable hmem).not_directory] at hp
    exact absurd hp (by simp)
  obtain ⟨x, hx⟩ := hs.stored
  refine ⟨⟨fun p name e he => hdir p ?_, ?_⟩, h.reaches.frame hs.agreesOff (fun _ => h.writable) hs.current, h.fits,
    .of_none hs.drafted, .of_file hx⟩
  · by_cases hstore : p ++ [name] = d ++ [storeName]
    · rw [(List.append_inj' hstore rfl).1]
      exact h.reaches.isDirectory
    · by_cases hdraft : p ++ [name] = d ++ [draftName]
      · rw [hdraft, hs.drafted] at he
        exact absurd he (by simp)
      · rw [hs.same _ hstore hdraft] at he
        exact h.isTree.above p name e he
  · rw [hs.current]
    exact hdir _ h.isTree.current

/-- The file of a snapshot that was saved. -/
theorem Storable.place?_store (h : Storable t outDir d) (hs : Saved s t u d) :
    u.place? (outDir.join storeName) = .ok (d ++ [storeName]) := by
  obtain ⟨x, hx⟩ := hs.stored
  exact place?_of_follow? (follow?_join_found isName_storeName (fits_storeName h.fits)
    (h.of_saved hs).reaches hx nofun)

/-- **The text of a snapshot is loaded as the snapshot.** -/
theorem load_of_read? (h : t.read? (Snapshot.pathIn outDir) = .ok s.text.toUTF8)
    (hfinite : s.modules.HasFiniteTimes) :
    Snapshot.load t outDir = (.ofModules s.modules, none) := by
  obtain ⟨q, time, x, hplace, -⟩ := exists_of_read? h
  have htext : t.readText? (Snapshot.pathIn outDir) = .ok s.text := by
    unfold readText?
    rw [h]
    dsimp only [bind, Except.bind]
    rw [Text.fromUTF8?_toUTF8]
    rfl
  unfold Snapshot.load Snapshot.read isPresent
  rw [hplace, htext, if_pos (by rfl)]
  dsimp only
  rw [Snapshot.ofText_text hfinite]

/-- **What was saved is what is loaded.** -/
theorem load_of_saved (h : Storable t outDir d) (hs : Saved s t u d)
    (hfinite : s.modules.HasFiniteTimes) :
    Snapshot.load u outDir = (.ofModules s.modules, none) := by
  obtain ⟨x, hx⟩ := hs.stored
  exact load_of_read? (read?_of_place? (h.place?_store hs) hx) hfinite

/-- A path that leads neither to the file of a snapshot nor to its draft. -/
def OffStore (outDir : Path) (t : FileTree) (p : Path) : Prop :=
  ∀ q, t.place? p = .ok q →
    t.place? (Snapshot.pathIn outDir) ≠ .ok q ∧ t.place? (Snapshot.draftIn outDir) ≠ .ok q

/-- A file that is off the store has another place than the files of the snapshot. -/
theorem Storable.place_ne (h : Storable t outDir d) {p : Path} (hoff : OffStore outDir t p)
    {q : Place} (hp : t.place? p = .ok q) {e : Entry} (he : t.at? q = some e) :
    ¬ (q = d ++ [storeName] ∨ q = d ++ [draftName]) := by
  have hplain : ∀ n, (q = d ++ [n] → Writable t (d ++ [n])) → IsName n → Fits outDir n →
      t.place? (outDir.join n) ≠ .ok q → q ≠ d ++ [n] := by
    rintro n hw hn hfits hne rfl
    have hlink : IsPlain e := by
      rintro target rfl
      exact (hw rfl).not_link target he
    exact hne (place?_of_follow? (follow?_join_found hn hfits h.reaches he hlink))
  rintro (hq | hq)
  · exact hplain _ (fun _ => h.store) isName_storeName (fits_storeName h.fits) (hoff q hp).1 hq
  · exact hplain _ (fun _ => h.draft) isName_draftName h.fits (hoff q hp).2 hq

/-- **A save changes the time of no other file.** -/
theorem modified?_of_saved (h : Storable t outDir d) (hs : Saved s t u d) {p : Path}
    {m : Binary64} (hm : t.modified? p = some m) (hoff : OffStore outDir t p) :
    u.modified? p = t.modified? p := by
  obtain ⟨q, e, hp, he⟩ := exists_of_modified? hm
  refine modified?_frame hs.agreesOff (fun _ => h.writable) hs.current hm fun q' hp' => ?_
  rw [hp, Except.ok.injEq] at hp'
  exact hp' ▸ h.place_ne hoff hp he

/-- What is off the store stays off it. -/
theorem offStore_of_saved (h : Storable t outDir d) (hs : Saved s t u d) {p : Path}
    {m : Binary64} (hm : t.modified? p = some m) (hoff : OffStore outDir t p) :
    OffStore outDir u p := by
  obtain ⟨q, e, hp, he⟩ := exists_of_modified? hm
  have hne := h.place_ne hoff hp he
  have hp' := place?_frame hs.agreesOff (fun _ => h.writable) hs.current hp hne
  intro q' hq'
  rw [hp', Except.ok.injEq] at hq'
  subst hq'
  constructor
  · intro hstore
    rw [pathIn_eq, h.place?_store hs, Except.ok.injEq] at hstore
    exact hne (.inl hstore.symm)
  · intro hdraft
    rw [draftIn_eq] at hdraft
    unfold place? at hdraft
    rw [follow?_join_free isName_draftName h.fits (h.of_saved hs).reaches hs.drafted] at hdraft
    exact absurd hdraft (by simp [bind, Except.bind, throw, throwThe, MonadExceptOf.throw])

/-- The tree in which a snapshot is written: the output directory is there. -/
def madeFor (outDir : Path) (t : FileTree) : FileTree := (t.run (makeDirectories outDir)).2

/-- **Where a snapshot was kept, it can be kept again**, unless links stand in the way. -/
theorem storable_of_keep (ht : IsTree t) (h : keep s outDir t = (.ok (), u))
    (hdraft : (madeFor outDir t).isLink (Snapshot.draftIn outDir) = false)
    (hstore : (madeFor outDir t).isLink (Snapshot.pathIn outDir) = false) :
    ∃ d, Storable (madeFor outDir t) outDir d ∧ Saved s (madeFor outDir t) u d := by
  obtain ⟨steps⟩ := nonempty_steps h
  have hmade : madeFor outDir t = steps.made := by
    unfold madeFor
    rw [steps.make]
  rw [hmade] at hdraft hstore ⊢
  have htree : IsTree steps.made := by
    rw [← hmade]
    exact (grown_makeDirectories outDir).isTree ht
  obtain ⟨hfits, d, hd, hfree⟩ := of_run_write_join isName_draftName steps.openDraft
  have hagain : steps.again = steps.made := by
    have hsame := makeDirectories_again isName_draftName hfits.text steps.make
    rw [steps.makeAgain] at hsame
    exact (Prod.mk.inj hsame).2
  rw [hagain] at hd hfree
  have hw : Writable steps.made (d ++ [draftName]) :=
    ⟨hfree, not_link_of_isLink isName_draftName hfits hd hdraft⟩
  have hne : d ++ [draftName] ≠ [] := by simp
  have hstored : steps.made.isDirectoryAt (d ++ [storeName]) = false := by
    obtain ⟨x, hx⟩ := run_write_join isName_draftName hfits hd hw "".toUTF8
    have hopened : steps.opened = _ :=
      (Prod.mk.inj ((hagain ▸ steps.openDraft).symm.trans hx)).2
    have hd₁ := hd.put hne hw (.file "".toUTF8 steps.made.clock x)
    have hw₁ := writable_put (t := steps.made) hne "".toUTF8 steps.made.clock x
    rw [← hopened] at hd₁ hw₁
    obtain ⟨y, hy⟩ := run_write_join isName_draftName hfits hd₁ hw₁ s.text.toUTF8
    have hwritten : steps.written = _ := (Prod.mk.inj (steps.writeDraft.symm.trans hy)).2
    have hd₂ := hd₁.put hne hw₁ (.file s.text.toUTF8 steps.opened.clock y)
    rw [← hwritten] at hd₂
    have hdir := of_run_rename_join isName_draftName isName_storeName hfits (fits_storeName hfits)
      hd₂ steps.move
    rwa [hwritten, isDirectoryAt_put_of_ne hne draft_ne_store.symm, hopened,
      isDirectoryAt_put_of_ne hne draft_ne_store.symm] at hdir
  have hstorable : Storable steps.made outDir d := ⟨htree, hd, hfits, hw, hstored,
    not_link_of_isLink isName_storeName (fits_storeName hfits) hd hstore⟩
  obtain ⟨v, hv, hsaved⟩ := keep_of_storable hstorable s
  have hkeep : keep s outDir steps.made = (.ok (), u) :=
    Steps.keep_eq ⟨steps.made, steps.made, steps.opened, steps.written, hagain ▸ steps.makeAgain,
      hagain ▸ steps.makeAgain, hagain ▸ steps.openDraft, steps.writeDraft, steps.move⟩
  have hv : v = u := (Prod.mk.inj (hv.symm.trans hkeep)).2
  exact ⟨d, hstorable, hv ▸ hsaved⟩

end Scan

end QmlStubs
