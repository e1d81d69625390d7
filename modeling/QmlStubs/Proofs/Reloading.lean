import QmlStubs.Proofs.Saving

/-!
# Any saved snapshot is loaded again

A save writes its draft through links and then moves the draft's own entry, so what ends up under
the name of the snapshot's file may be a link. That does no harm, as long as its way to the text is
still there after the move, and the two names of a save are the only ones that change. Here the way
of a draft is followed from before the move to after it (`FileTree.read?_of_moved`), under the one
condition that counts (`Scan.DraftIsApart`):

> the draft leads neither to the snapshot's file nor over a link of its name.

Then **what was saved is loaded, and saving it again leaves the same bytes**
(`Scan.saved_snapshot_is_loaded`). Where the condition fails a save can succeed and lose the
snapshot (`Scan.saved_snapshots_are_lost`).
-/

set_option autoImplicit false

namespace QmlStubs

namespace FileTree

variable {t u : FileTree}

/-! ## Moving an entry to another name -/

section Moved

variable {p : Path} {n m : String} {d : Place} {content : ByteArray}

/-- How a name in a directory leads to a file, over so many links at most: it is the file, or a link
whose own way goes there. -/
inductive LeadsToFile (t : FileTree) (content : ByteArray) (d : Place) (n : String) (links : Nat) :
    Prop where
  | file (time : FileTime) (x : Bool) (hat : t.at? (d ++ [n]) = some (.file content time x))
  | link (target : Path) (k : Nat) (q : Place) (time : FileTime) (x : Bool)
      (hat : t.at? (d ++ [n]) = some (.link target)) (hk : k + 1 ≤ links)
      (w : Walk t (linkStart target d) (stepsOf target) k q [])
      (hq : t.at? q = some (.file content time x))

/-- **A name that can be read behind a path leads to a file.** -/
theorem LeadsTo.leadsToFile (hn : IsName n) {k : Nat} (hd : LeadsTo t p k d)
    (h : t.read? (p.join n) = .ok content) :
    Fits p n ∧ LeadsToFile t content d n (maxLinks - k) := by
  obtain ⟨q, time, x, hplace, hq⟩ := exists_of_read? h
  obtain ⟨ht, links, hlinks, w⟩ := place?_eq_ok.1 hplace
  rw [stepsOf_join hn, startOf_join hn] at w
  obtain ⟨k₁, k₂, d', rfl, w₁, w₂⟩ := w.split_end
  obtain rfl := hd.walk.unique w₁
  obtain rfl := hd.walk.links_unique w₁
  cases w₂ with
  | down hdir hshort he hplain wend =>
    cases wend
    exact ⟨⟨ht, hshort⟩, .file time x hq⟩
  | link hdir hshort he wtarget =>
    rw [List.append_nil] at wtarget
    exact ⟨⟨ht, hshort⟩, .link _ _ q time x he (by omega) wtarget hq⟩

namespace LeadsToFile

variable {links : Nat}

/-- A name that leads to a file can be read behind a path. -/
theorem read? (h : LeadsToFile t content d n links) (hn : IsName n) (hfits : Fits p n) {k : Nat}
    (hd : LeadsTo t p k d) (hlinks : k + links ≤ maxLinks) :
    t.read? (p.join n) = .ok content := by
  have hdown : ∀ q m, Walk t d [.down n] m q [] → m ≤ links → t.place? (p.join n) = .ok q := by
    intro q m w hm
    refine place?_eq_ok.2 ⟨hfits.text, k + m, by omega, ?_⟩
    rw [stepsOf_join hn, startOf_join hn]
    exact (hd.walk.append [.down n]).trans w
  cases h with
  | file time x hat =>
    have w : Walk t d [.down n] 0 (d ++ [n]) [] :=
      .down hd.isDirectory hfits.short hat (isPlain_file _ _ _) (.refl _ _)
    exact read?_of_place? (hdown _ 0 w (Nat.zero_le _)) hat
  | link target m q time x hat hm w hq =>
    have w : Walk t d [.down n] (m + 1) q [] :=
      .link hd.isDirectory hfits.short hat (by rwa [List.append_nil])
    exact read?_of_place? (hdown _ (m + 1) w hm) hq

/-- **No directory is reached over a name that leads to a file.** -/
theorem leadsTo (h : LeadsToFile t content d n links) (hsame : AgreesOff (· = d ++ [n]) t u)
    (hcurrent : u.current = t.current) {k : Nat} {e : Place} (he : LeadsTo t p k e) :
    LeadsTo u p k e := by
  have hstart : u.startOf p = t.startOf p := by
    unfold startOf
    rw [hcurrent]
  obtain ⟨time, htime⟩ := isDirectoryAt_iff.1 he.isDirectory
  have hoff : e ≠ d ++ [n] := by
    rintro rfl
    cases h with
    | file _ _ hat => exact absurd (hat.symm.trans htime) (by simp)
    | link _ _ _ _ _ hat => exact absurd (hat.symm.trans htime) (by simp)
  refine ⟨?_, isDirectoryAt_iff.2 ⟨time, hsame e _ hoff htime⟩⟩
  rw [hstart]
  cases h with
  | file _ _ hat =>
    refine he.walk.frame hsame ?_ hoff
    rintro _ rfl
    exact .of_file hat
  | link target m q _ _ hat _ w hq =>
    have hnot : t.isDirectoryAt q = false := (Writable.of_file hq).not_directory
    rcases Walk.without_link hat w hnot hsame he.walk with hw | ⟨rfl, -⟩
    · exact hw
    · rw [he.isDirectory] at hnot
      exact absurd hnot (by simp)

/-- **An entry leads to the same file under another name.** -/
theorem moved (h : LeadsToFile t content d n links) (hsame : AgreesOff (· = d ++ [n]) t u)
    (hm : u.at? (d ++ [m]) = t.at? (d ++ [n])) : LeadsToFile u content d m links := by
  cases h with
  | file time x hat => exact .file time x (hm.trans hat)
  | link target k q time x hat hk w hq =>
    have hnot : t.isDirectoryAt q = false := (Writable.of_file hq).not_directory
    have hoff : q ≠ d ++ [n] := by
      rintro rfl
      rw [hat] at hq
      exact absurd hq (by simp)
    -- The way of the link is not longer than itself, so it does not take the link.
    rcases Walk.without_link hat w hnot hsame w with hw | ⟨-, hlonger⟩
    · exact .link target k q time x (hm.trans hat) hk hw (hsame q _ hoff hq)
    · exact absurd hlonger (Nat.lt_irrefl k)

end LeadsToFile

/-- **What was read under one name is read under another that its entry was moved to.** -/
theorem read?_of_moved (hn : IsName n) (hm : IsName m) (hfits : Fits p m) (hd : Reaches t p d)
    (h : t.read? (p.join n) = .ok content) (hsame : AgreesOff (· = d ++ [n]) t u)
    (hcurrent : u.current = t.current) (hmoved : u.at? (d ++ [m]) = t.at? (d ++ [n])) :
    Reaches u p d ∧ u.read? (p.join m) = .ok content := by
  obtain ⟨k, hk, hleads⟩ := hd
  obtain ⟨-, hfile⟩ := hleads.leadsToFile hn h
  have hleads' := hfile.leadsTo hsame hcurrent hleads
  exact ⟨⟨k, hk, hleads'⟩, (hfile.moved hsame hmoved).read? hm hfits hleads' (by omega)⟩

/-- Whatever takes the place of a file's name, the directory is still reached. -/
theorem Reaches.of_read? (hn : IsName n) (hd : Reaches t p d) (h : t.read? (p.join n) = .ok content)
    (hsame : AgreesOff (· = d ++ [n]) t u) (hcurrent : u.current = t.current) : Reaches u p d := by
  obtain ⟨k, hk, hleads⟩ := hd
  obtain ⟨-, hfile⟩ := hleads.leadsToFile hn h
  exact ⟨k, hk, hfile.leadsTo hsame hcurrent hleads⟩

end Moved

end FileTree

open FileTree

namespace Scan

variable {t u : FileTree} {s : Snapshot} {outDir : Path} {d : Place}

/-! ## What a save leaves -/

/-- The draft lies apart from the snapshot's file: it leads neither there nor over a link there,
so it leads to the same place when that file is taken out. -/
structure DraftIsApart (t : FileTree) (outDir : Path) : Prop where
  elsewhere : t.follow? (Snapshot.draftIn outDir) ≠ t.followParent? (Snapshot.pathIn outDir)
  without : (t.run (removeIfPresent (Snapshot.pathIn outDir))).2.follow? (Snapshot.draftIn outDir) =
    t.follow? (Snapshot.draftIn outDir)

instance (t : FileTree) (outDir : Path) : Decidable (DraftIsApart t outDir) :=
  decidable_of_iff (t.follow? (Snapshot.draftIn outDir) ≠ t.followParent? (Snapshot.pathIn outDir) ∧
    (t.run (removeIfPresent (Snapshot.pathIn outDir))).2.follow? (Snapshot.draftIn outDir) =
      t.follow? (Snapshot.draftIn outDir))
    ⟨fun h => ⟨h.1, h.2⟩, fun h => ⟨h.1, h.2⟩⟩

/-- **Where neither name of a save is a link the draft lies apart.** -/
theorem draftIsApart_of_not_link (ht : IsTree t) (hfits : Fits outDir draftName)
    (hd : Reaches t outDir d) (hdraft : t.isLink (Snapshot.draftIn outDir) = false)
    (hstore : t.isLink (Snapshot.pathIn outDir) = false) : DraftIsApart t outDir := by
  have hfits' := fits_storeName hfits
  have hnot := not_link_of_isLink isName_draftName hfits hd hdraft
  have hnot' := not_link_of_isLink isName_storeName hfits' hd hstore
  -- The draft's own entry, or the lack of one, is all that its path comes to.
  have hfollow : ∀ w : FileTree, Reaches w outDir d →
      w.at? (d ++ [draftName]) = t.at? (d ++ [draftName]) →
        w.follow? (outDir.join draftName) =
          .ok (if (t.at? (d ++ [draftName])).isSome then .found (d ++ [draftName])
            else .free (d ++ [draftName])) := by
    intro w hw hat
    cases he : t.at? (d ++ [draftName]) with
    | none => exact follow?_join_free isName_draftName hfits hw (hat.trans he)
    | some e =>
      have hplain : IsPlain e := by
        rintro target rfl
        exact hnot target he
      exact follow?_join_found isName_draftName hfits hw (hat.trans he) hplain
  constructor
  · rw [draftIn_eq, pathIn_eq, hfollow t hd rfl, followParent?_join isName_storeName hfits' hd]
    intro h
    have hne := draft_ne_store (d := d)
    rw [Except.ok.injEq] at h
    -- Whether they are taken or free, they are two places.
    split at h <;> split at h <;> simp_all
  · rw [draftIn_eq, pathIn_eq, hfollow t hd rfl]
    cases hdir : t.isDirectoryAt (d ++ [storeName]) with
    | true =>
      rw [run_removeIfPresent_directory isName_storeName hfits' hd hdir]
      exact hfollow t hd rfl
    | false =>
      obtain ⟨w, hrun, hcurrent, -, hat⟩ :=
        run_removeIfPresent_join ht isName_storeName hfits' hd hdir
      have hsame : AgreesOff (· = d ++ [storeName]) t w := by
        intro r e hr he
        rw [hat, if_neg hr, he]
      have hw : Reaches w outDir d := by
        refine hd.frame hsame ?_ hcurrent
        rintro _ rfl
        exact ⟨hdir, hnot'⟩
      rw [hrun]
      exact hfollow w hw (by rw [hat, if_neg draft_ne_store])

/-- A tree in which a snapshot's file can be read and no draft is left. -/
structure Holds (content : ByteArray) (t : FileTree) (outDir : Path) (d : Place) : Prop where
  isTree : IsTree t
  reaches : Reaches t outDir d
  fits : Fits outDir draftName
  drafted : t.at? (d ++ [draftName]) = none
  stored : t.read? (Snapshot.pathIn outDir) = .ok content

/-- A tree with a text written where a path leads, through whatever links. -/
structure WrittenTo (content : ByteArray) (p : Path) (t u : FileTree) (q : Place) : Prop where
  target : t.follow? p = .ok (.found q) ∧ (t.at? q).isSome ∨
    t.follow? p = .ok (.free q) ∧ t.at? q = none
  writable : Writable t q
  stored : ∃ time x, u.at? q = some (.file content time x)
  same : ∀ r, r ≠ q → u.at? r = t.at? r
  current : u.current = t.current

/-- A file that is opened and then written is written where it was opened. -/
theorem writtenTo_of_run_write {v : FileTree} {p : Path} {opening content : ByteArray}
    (h : t.run (write p opening) = (.ok (), u)) (h' : u.run (write p content) = (.ok (), v)) :
    ∃ q, WrittenTo content p t v q := by
  obtain ⟨q, x, hw, rfl, htarget⟩ := target_of_run_write h
  have hq : q ≠ [] := ne_nil_of_isDirectoryAt hw.not_directory
  have hplace := place?_put_target (isPlain_file opening t.clock x) hw
    (htarget.imp And.left And.left)
  obtain ⟨r, y, -, rfl, htarget'⟩ := target_of_run_write h'
  obtain rfl : r = q := by
    rw [follow?_of_place? hplace] at htarget'
    rcases htarget' with ⟨hfound, -⟩ | ⟨hfree, -⟩
    · simpa using hfound.symm
    · exact absurd hfree (by simp)
  refine ⟨r, htarget, hw, ⟨t.clock, y, ?_⟩, fun r' hr => ?_, rfl⟩
  · rw [at?_put hq, if_pos rfl]
    rfl
  · rw [at?_put hq, if_neg hr, at?_put hq, if_neg hr]

namespace WrittenTo

variable {content : ByteArray} {p : Path} {q : Place}

theorem agreesOff (h : WrittenTo content p t u q) : AgreesOff (· = q) t u := by
  intro r e hr he
  rw [h.same r hr, he]

/-- The text is written to the same place in a tree that leads there as well. -/
theorem read?_put {v : FileTree} (h : WrittenTo content p t u q)
    (hfollow : v.follow? p = t.follow? p) (hw : Writable v q) (time : FileTime) (x : Bool) :
    (v.put q (.file content time x)).read? p = .ok content := by
  have hq : q ≠ [] := ne_nil_of_isDirectoryAt hw.not_directory
  have htarget := h.target.imp And.left And.left
  rw [← hfollow] at htarget
  have hat : (v.put q (.file content time x)).at? q = some (.file content time x) := by
    rw [at?_put hq, if_pos rfl]
  exact read?_of_place? (place?_put_target (isPlain_file _ _ _) hw htarget) hat

end WrittenTo

section Move

variable {content : ByteArray} {v : FileTree} {q : Place}

/-- A draft that lies apart is not written to the snapshot's file. -/
theorem DraftIsApart.ne_store (h : DraftIsApart t outDir) (hfits : Fits outDir draftName)
    (hd : Reaches t outDir d) (hdraft : WrittenTo content (outDir.join draftName) t v q) :
    q ≠ d ++ [storeName] := by
  rintro rfl
  refine h.elsewhere ?_
  rw [draftIn_eq, pathIn_eq, followParent?_join isName_storeName (fits_storeName hfits) hd]
  rcases hdraft.target with ⟨hfound, hsome⟩ | ⟨hfree, hnone⟩
  · rw [hfound, if_pos hsome]
  · rw [hfree, if_neg (by simp [hnone])]

/-- What can be read behind a path is an entry of its directory. -/
theorem exists_entry_of_read? {n : String} (hn : IsName n) (hd : Reaches t outDir d)
    (h : t.read? (outDir.join n) = .ok content) :
    ∃ e, t.at? (d ++ [n]) = some e ∧ t.isDirectoryAt (d ++ [n]) = false := by
  obtain ⟨k, -, hleads⟩ := hd
  obtain ⟨-, hfile⟩ := hleads.leadsToFile hn h
  unfold isDirectoryAt
  cases hfile with
  | file time x hat => exact ⟨_, hat, by rw [hat]⟩
  | link target k q time x hat hk w hq => exact ⟨_, hat, by rw [hat]⟩

/-- **A draft that lies apart is read without the snapshot's file as well.** -/
theorem DraftIsApart.exists_without (h : DraftIsApart t outDir) (ht : IsTree t)
    (hfits : Fits outDir draftName) (hd : Reaches t outDir d)
    (hdraft : WrittenTo content (outDir.join draftName) t v q)
    (hstore : v.isDirectoryAt (d ++ [storeName]) = false) :
    ∃ w : FileTree, w.current = v.current ∧
      (∀ r, w.at? r = if r = d ++ [storeName] then none else v.at? r) ∧
        w.read? (outDir.join draftName) = .ok content := by
  have hq := h.ne_store hfits hd hdraft
  have hstore : t.isDirectoryAt (d ++ [storeName]) = false := by
    unfold isDirectoryAt at hstore ⊢
    rwa [hdraft.same _ hq.symm] at hstore
  obtain ⟨w, hrun, hcurrent, -, hat⟩ :=
    run_removeIfPresent_join ht isName_storeName (fits_storeName hfits) hd hstore
  have hfollow : w.follow? (outDir.join draftName) = t.follow? (outDir.join draftName) := by
    have hwithout := h.without
    rwa [pathIn_eq, hrun] at hwithout
  have hw : Writable w q := by
    constructor
    · unfold isDirectoryAt
      rw [hat, if_neg hq]
      exact hdraft.writable.not_directory
    · intro target
      rw [hat, if_neg hq]
      exact hdraft.writable.not_link target
  obtain ⟨time, x, hstored⟩ := hdraft.stored
  refine ⟨w.put q (.file content time x), hcurrent.trans hdraft.current.symm, fun r => ?_,
    hdraft.read?_put hfollow hw time x⟩
  rw [at?_put (ne_nil_of_isDirectoryAt hw.not_directory)]
  by_cases hr : r = q
  · rw [if_pos hr, hr, if_neg hq, hstored]
  · rw [if_neg hr, hat, hdraft.same r hr]

/-- **Moving the draft leaves its text under the name of the snapshot's file**, where it lies apart
from that. -/
theorem holds_of_run_rename (ht : IsTree t) (hfits : Fits outDir draftName)
    (hd : Reaches t outDir d) (hapart : DraftIsApart t outDir) (hv : IsTree v)
    (hdraft : WrittenTo content (outDir.join draftName) t v q)
    (hread : v.read? (outDir.join draftName) = .ok content)
    (hmove : v.run (rename (outDir.join draftName) (outDir.join storeName)) = (.ok (), u)) :
    Holds content u outDir d := by
  have hfits' := fits_storeName hfits
  have hdv : Reaches v outDir d :=
    hd.frame hdraft.agreesOff (fun r hr => hr ▸ hdraft.writable) hdraft.current
  obtain ⟨e, he, hsource⟩ := exists_entry_of_read? isName_draftName hdv hread
  have htarget := of_run_rename_join isName_draftName isName_storeName hfits hfits' hdv hmove
  have hrename :=
    run_rename_join isName_draftName isName_storeName hfits hfits' hdv he hsource htarget
  obtain rfl : u = _ := (Prod.mk.inj (hmove.symm.trans hrename)).2
  have hat : ∀ r, ((v.cut (d ++ [draftName])).put (d ++ [storeName]) e).at? r =
      if r = d ++ [storeName] then some e else if r = d ++ [draftName] then none else v.at? r := by
    intro r
    rw [at?_put (by simp), hv.at?_cut hsource]
  -- The entry is moved from a tree without the snapshot's file, so that no way leads over it.
  obtain ⟨w, hcurrent, hwithout, hread'⟩ := hapart.exists_without ht hfits hd hdraft htarget
  have hd' : Reaches w outDir d := by
    obtain ⟨r, -, -, hplace, -⟩ := exists_of_read? hread'
    obtain ⟨-, d', hd'⟩ := reaches_of_follow? isName_draftName (follow?_of_place? hplace)
    have hgrows : AgreesOff (fun _ => False) w v := by
      intro r e' _ he'
      rw [hwithout] at he'
      split at he'
      · exact absurd he' (by simp)
      · exact he'
    rwa [(hd'.frame hgrows (fun _ h => absurd h id) hcurrent.symm).unique hdv] at hd'
  have hsame : AgreesOff (· = d ++ [draftName]) w
      ((v.cut (d ++ [draftName])).put (d ++ [storeName]) e) := by
    intro r e' hr he'
    rw [hwithout] at he'
    split at he'
    · exact absurd he' (by simp)
    next hr' => rw [hat, if_neg hr', if_neg hr, he']
  have hmoved : ((v.cut (d ++ [draftName])).put (d ++ [storeName]) e).at? (d ++ [storeName]) =
      w.at? (d ++ [draftName]) := by
    rw [hat, if_pos rfl, hwithout, if_neg draft_ne_store, he]
  obtain ⟨hreaches, hstored⟩ := read?_of_moved isName_draftName isName_storeName hfits' hd' hread'
    hsame hcurrent.symm hmoved
  refine ⟨hv.moved hdv.isDirectory hsource htarget, hreaches, hfits, ?_, hstored⟩
  rw [hat, if_neg draft_ne_store, if_pos rfl]

end Move

/-- **A save leaves the text of its snapshot in its file**, where the draft lies apart from that. -/
theorem holds_of_run_save (ht : IsTree t) (hapart : DraftIsApart (madeFor outDir t) outDir)
    (h : t.run (s.save outDir) = (.ok (), u)) : ∃ d, Holds s.text.toUTF8 u outDir d := by
  unfold Snapshot.save Snapshot.saveSteps at h
  obtain ⟨made, hmake, h⟩ := ok_of_run_forM_cons h
  obtain ⟨opened, hopen, h⟩ := ok_of_run_forM_cons h
  obtain ⟨written, hwrite, h⟩ := ok_of_run_forM_cons h
  obtain ⟨moved, hmove, hend⟩ := ok_of_run_forM_cons h
  rw [run_forM_nil] at hend
  obtain rfl := (Prod.mk.inj hend).2
  have hmade : madeFor outDir t = made := by
    unfold madeFor
    rw [hmake]
  have hmadeTree : IsTree made := hmade ▸ (grown_makeDirectories outDir).isTree ht
  rw [hmade] at hapart
  obtain ⟨hfits, d, hd, -⟩ := of_run_write_join isName_draftName hopen
  obtain ⟨q, hdraft⟩ := writtenTo_of_run_write hopen hwrite
  have hwrittenTree : IsTree written := (hmadeTree.of_run_write hopen).of_run_write hwrite
  exact ⟨d, holds_of_run_rename hmadeTree hfits hd hapart hwrittenTree hdraft
    (read?_of_run_write hwrite) hmove⟩

namespace Holds

variable {content : ByteArray}

/-- **What is held is loaded.** -/
theorem load (h : Holds s.text.toUTF8 t outDir d) (hfinite : s.modules.HasFiniteTimes) :
    Snapshot.load t outDir = (.ofModules s.modules, none) :=
  load_of_read? h.stored hfinite

/-- **A snapshot can be saved in the place of one that is held**, whatever entry leads to that. -/
theorem exists_run_save (h : Holds content t outDir d) (s : Snapshot) :
    ∃ u, t.run (s.save outDir) = (.ok (), u) ∧ Holds s.text.toUTF8 u outDir d := by
  have hfits := fits_storeName h.fits
  obtain ⟨e, he, hstore⟩ := exists_entry_of_read? isName_storeName h.reaches h.stored
  obtain ⟨u, hu, htree, hsaved⟩ :=
    run_save h.isTree h.reaches h.fits (.of_none h.drafted) hstore s
  -- There is no draft yet, so the only entry that is lost is the one of the snapshot's file.
  have hsame : AgreesOff (· = d ++ [storeName]) t u := by
    intro r e' hr he'
    have hr' : r ≠ d ++ [draftName] := by
      rintro rfl
      rw [h.drafted] at he'
      exact absurd he' (by simp)
    rw [hsaved.same r hr hr', he']
  have hreaches := h.reaches.of_read? isName_storeName h.stored hsame hsaved.current
  obtain ⟨x, hstored⟩ := hsaved.stored
  have hplace : u.place? (outDir.join storeName) = .ok (d ++ [storeName]) :=
    place?_of_follow? (follow?_join_found isName_storeName hfits hreaches hstored nofun)
  exact ⟨u, hu, htree, hreaches, h.fits, hsaved.drafted, read?_of_place? hplace hstored⟩

end Holds

/-- **A saved snapshot is loaded, and saving it again changes no byte of it.** Its version does not
matter: what is loaded has the current one. -/
theorem saved_snapshot_is_loaded (ht : IsTree t) (hfinite : s.modules.HasFiniteTimes)
    (hapart : DraftIsApart (madeFor outDir t) outDir)
    (hsave : t.run (s.save outDir) = (.ok (), u)) :
    Snapshot.load u outDir = (.ofModules s.modules, none) ∧
      u.read? (Snapshot.pathIn outDir) = .ok s.text.toUTF8 ∧
        ∃ v, u.run ((Snapshot.load u outDir).1.save outDir) = (.ok (), v) ∧
          v.read? (Snapshot.pathIn outDir) = u.read? (Snapshot.pathIn outDir) := by
  obtain ⟨d, hheld⟩ := holds_of_run_save ht hapart hsave
  have hload := hheld.load hfinite
  obtain ⟨v, hv, hagain⟩ := hheld.exists_run_save (.ofModules s.modules)
  refine ⟨hload, hheld.stored, v, ?_, ?_⟩
  · rw [hload]
    exact hv
  · -- A stored snapshot carries the current version, whichever one it had.
    have htext : (Snapshot.ofModules s.modules).text = s.text := rfl
    rw [hagain.stored, hheld.stored, htext]

/-! ## Links to the draft's file and to the directory -/

/-- A snapshot of another version, with a record, a tombstone, and names that have to be escaped. -/
def oldSnapshot : Snapshot where
  modules := .ofList [("a", some ⟨.ofSeconds 1 500000000, ⟨"/src/\"é\".py"⟩, .ofList ["a", "b\n"]⟩),
    ("b\n", none)]
  version := "0.0.1"

/-- A directory whose draft is a link out of it, to a name that is free. -/
def linkedTree : FileTree where
  entries := .ofList [(["o"], .directory ⟨100, 0⟩),
    (["o", "metadata.json"], .file .empty ⟨100, 0⟩ false),
    (["o", "metadata.json.tmp"], .link ⟨"../kept.json"⟩)]
  current := []
  clock := ⟨200, 0⟩

theorem hasFiniteTimes_oldSnapshot : oldSnapshot.modules.HasFiniteTimes := by decide +kernel

/-- Where the draft is a link to another file the text is kept there, and the snapshot's file leads
to it. -/
theorem linked_snapshot_is_loaded :
    ∃ u v, linkedTree.run (oldSnapshot.save ⟨"o"⟩) = (.ok (), u) ∧
      Snapshot.load u ⟨"o"⟩ = (.ofModules oldSnapshot.modules, none) ∧
        u.run ((Snapshot.load u ⟨"o"⟩).1.save ⟨"o"⟩) = (.ok (), v) ∧
          v.read? (Snapshot.pathIn ⟨"o"⟩) = u.read? (Snapshot.pathIn ⟨"o"⟩) := by
  have htree : IsTree linkedTree := .of_entries (by decide) (by decide)
  have hapart : DraftIsApart (madeFor ⟨"o"⟩ linkedTree) ⟨"o"⟩ := by decide +kernel
  have hdone : (linkedTree.run (oldSnapshot.save ⟨"o"⟩)).1 = .ok () := by decide +kernel
  obtain ⟨u, hsave⟩ : ∃ u, linkedTree.run (oldSnapshot.save ⟨"o"⟩) = (.ok (), u) :=
    ⟨(linkedTree.run (oldSnapshot.save ⟨"o"⟩)).2, by rw [← hdone]⟩
  obtain ⟨hload, -, v, hagain, hsame⟩ :=
    saved_snapshot_is_loaded htree hasFiniteTimes_oldSnapshot hapart hsave
  exact ⟨u, v, hsave, hload, hagain, hsame⟩

/-- A directory whose draft is a link to the snapshot's file. -/
def loopTree : FileTree where
  entries := .ofList [(["o"], .directory ⟨100, 0⟩),
    (["o", "metadata.json.tmp"], .link ⟨"metadata.json"⟩)]
  current := []
  clock := ⟨200, 0⟩

/-- A directory that can be reached over a link of the name of the snapshot's file. -/
def innerTree : FileTree where
  entries := .ofList [(["o"], .directory ⟨100, 0⟩), (["o", "metadata.json"], .link ⟨"."⟩)]
  current := []
  clock := ⟨200, 0⟩

/-- A save that succeeds, after which nothing is found in the directory. -/
structure IsLost (s : Snapshot) (outDir : Path) (t : FileTree) : Prop where
  isTree : IsTree t
  isSaved : (t.run (s.save outDir)).1 = .ok ()
  notFound : Snapshot.load (t.run (s.save outDir)).2 outDir = (.empty, none)

/-- **A saved snapshot is lost** when its draft is a link to the snapshot's file, which is then
moved onto itself, and when the directory's path runs through a link that the file takes the place
of. -/
theorem saved_snapshots_are_lost :
    oldSnapshot.modules.HasFiniteTimes ∧ .empty ≠ Snapshot.ofModules oldSnapshot.modules ∧
      IsLost oldSnapshot ⟨"o"⟩ loopTree ∧ IsLost oldSnapshot ⟨"o/metadata.json"⟩ innerTree := by
  refine ⟨hasFiniteTimes_oldSnapshot, by decide +kernel, ?_, ?_⟩
  · exact ⟨.of_entries (by decide) (by decide), by decide +kernel, by decide +kernel⟩
  · exact ⟨.of_entries (by decide) (by decide), by decide +kernel, by decide +kernel⟩

end Scan

end QmlStubs
