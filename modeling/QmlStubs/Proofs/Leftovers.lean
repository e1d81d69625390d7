import QmlStubs.Proofs.Blanks
import QmlStubs.Proofs.Reloading

/-!
# What is left of a draft

A save that is stopped while it writes leaves its draft, with any part of the text in it. Such a
leftover is never read: the snapshot's file leads elsewhere (`Scan.StoreIsApart`), and the next save
empties the draft before it writes. So two trees that differ in their drafts
(`Scan.DiffersByDraft`) cannot be told apart by loading and saving, however often
(`Scan.DiffersByDraft.answers_eq`):

> the first load finds the same in both, **and the first save leaves the same tree.**
-/

set_option autoImplicit false

namespace QmlStubs

namespace FileTree

variable {t u : FileTree} {p : Path} {q : Place}

/-! ## Where a path led before a file was written -/

/-- **What leads to a file led there before it was written**, to another file or to a free name. -/
theorem Walk.followSteps_before (hsame : ∀ r, r ≠ q → u.at? r = t.at? r) (ht : Writable t q)
    (hu : Writable u q) {c r : Place} {steps : List Step} {k : Nat} (w : Walk u c steps k r [])
    (hr : r = q) (links : Nat) : t.followSteps (k + links) c steps = .ok (.found q) ∨
      t.followSteps (k + links) c steps = .ok (.free q) := by
  have hdir : ∀ c, u.isDirectoryAt c = true → t.isDirectoryAt c = true := by
    intro c hc
    have hne : c ≠ q := by
      rintro rfl
      rw [hu.not_directory] at hc
      exact absurd hc (by simp)
    unfold isDirectoryAt at hc ⊢
    rwa [← hsame c hne]
  generalize hend : ([] : List Step) = last at w
  induction w with
  | refl c steps =>
    subst hend
    exact .inl (by rw [followSteps_nil, hr])
  | stay h _ ih =>
    rw [followSteps_stay (hdir _ h)]
    exact ih hr hend
  | up h _ ih =>
    rw [followSteps_up (hdir _ h)]
    exact ih hr hend
  | @down c r steps last k name e h hn he hplain w ih =>
    by_cases hnext : c ++ [name] = q
    · -- The walk is over where the file is, whatever was there before.
      have hsteps : steps = [] := by
        subst hend
        have hstop := hu.not_directory
        rw [← hnext] at hstop
        cases w with
        | refl => rfl
        | stay h' _ => exact absurd h' (by simp [hstop])
        | up h' _ => exact absurd h' (by simp [hstop])
        | down h' _ _ _ _ => exact absurd h' (by simp [hstop])
        | link h' _ _ _ => exact absurd h' (by simp [hstop])
      subst hsteps
      cases hold : t.at? q with
      | none =>
        rw [← hnext] at hold
        exact .inr (by rw [followSteps_free (hdir _ h) hn hold, hnext])
      | some e' =>
        have hplain' : IsPlain e' := by
          rintro target rfl
          exact ht.not_link target hold
        rw [← hnext] at hold
        exact .inl (by rw [followSteps_down (hdir _ h) hn hold hplain', followSteps_nil, hnext])
    · rw [followSteps_down (hdir _ h) hn ((hsame _ hnext).symm.trans he) hplain]
      exact ih hr hend
  | @link c r steps last k name target h hn he w ih =>
    have hnext : c ++ [name] ≠ q := by
      intro hnext
      exact hu.not_link target (hnext ▸ he)
    rw [Nat.add_right_comm, followSteps_link (hdir _ h) hn ((hsame _ hnext).symm.trans he)]
    exact ih hr hend

theorem follow?_before (hsame : ∀ r, r ≠ q → u.at? r = t.at? r) (ht : Writable t q)
    (hu : Writable u q) (hcurrent : u.current = t.current) (h : u.place? p = .ok q) :
    t.follow? p = .ok (.found q) ∨ t.follow? p = .ok (.free q) := by
  obtain ⟨htext, k, hk, w⟩ := place?_eq_ok.1 h
  have hstart : u.startOf p = t.startOf p := by
    unfold startOf
    rw [hcurrent]
  rw [follow?_of_textError? htext, ← Nat.add_sub_cancel' hk, ← hstart]
  exact w.followSteps_before hsame ht hu rfl _

/-! ## What a file is written to -/

theorem at?_of_follow?_free (h : t.follow? p = .ok (.free q)) : t.at? q = none := by
  rw [follow?_of_textError? (textError?_of_follow? h), followSteps_eq_free] at h
  obtain ⟨-, -, -, -, -, -, -, -, hnone⟩ := h
  exact hnone

theorem writable_of_writeTarget? {x : Bool} (h : writeTarget? p t = .ok (q, x)) : Writable t q := by
  rcases writeTarget?_ok h with hfree | ⟨-, content, time, hat⟩
  · exact .of_none (at?_of_follow?_free hfree)
  · exact .of_file hat

/-- **What was written is written again at the same place.** -/
theorem writeTarget?_put {x : Bool} (h : writeTarget? p t = .ok (q, x)) (content : ByteArray)
    (time : FileTime) : writeTarget? p (t.put q (.file content time x)) = .ok (q, x) := by
  have hq := ne_nil_of_writeTarget? h
  have hslash : ¬ endsInSlash p = true := by
    intro hslash
    unfold writeTarget? at h
    rw [if_pos hslash] at h
    cases hr : t.followParent? (trimSlashes p) <;> rw [hr] at h <;> cases h
  have hfollow := (writeTarget?_ok h).symm.imp_left And.left
  have hplace :=
    place?_put_target (isPlain_file content time x) (writable_of_writeTarget? h) hfollow
  unfold writeTarget?
  rw [if_neg hslash, follow?_of_place? hplace]
  dsimp only [bind, Except.bind]
  rw [at?_put hq, if_pos rfl]
  rfl

/-- A file is written when there is a place to write it to. -/
theorem run_write_of_writeTarget? {x : Bool} (h : writeTarget? p t = .ok (q, x))
    (content : ByteArray) :
    t.run (write p content) = (.ok (), t.put q (.file content t.clock x)) := by
  unfold write
  rw [run_editBy, written?_eq, h]
  rfl

theorem exists_of_run_write {content : ByteArray} (h : t.run (write p content) = (.ok (), u)) :
    ∃ q x, writeTarget? p t = .ok (q, x) ∧ u = t.put q (.file content t.clock x) := by
  have hf := run_editBy_ok h
  rw [written?_eq] at hf
  cases htarget : writeTarget? p t with
  | error e =>
    rw [htarget] at hf
    cases hf
  | ok target =>
    rw [htarget] at hf
    exact ⟨target.1, target.2, rfl, (Except.ok.inj hf).symm⟩

theorem put_put (t : FileTree) (q : Place) (e e' : Entry) : (t.put q e).put q e' = t.put q e' := by
  unfold put
  congr 1
  refine SortedMap.ext_find? fun r => ?_
  simp only [SortedMap.find?_insert]
  split <;> rfl

end FileTree

open FileTree

namespace Scan

variable {t u v : FileTree} {s : Snapshot} {outDir : Path} {d q : Place} {x : Bool}

/-! ## Trees that differ in their drafts -/

/-- A draft is written into the directory of the snapshot. -/
theorem reaches_of_writeTarget? (h : writeTarget? (Snapshot.draftIn outDir) t = .ok (q, x)) :
    Fits outDir draftName ∧ ∃ d, Reaches t outDir d := by
  rcases writeTarget?_ok h with hfree | ⟨hfound, -⟩
  · exact reaches_of_follow? isName_draftName hfree
  · exact reaches_of_follow? isName_draftName hfound

/-- A draft that is no link is written under its own name. -/
theorem eq_of_writeTarget? (hd : Reaches t outDir d)
    (hlink : ∀ target, t.at? (d ++ [draftName]) ≠ some (.link target))
    (h : writeTarget? (Snapshot.draftIn outDir) t = .ok (q, x)) : q = d ++ [draftName] := by
  obtain ⟨hfits, -⟩ := reaches_of_writeTarget? h
  have hfollow := (writeTarget?_ok h).symm.imp_left And.left
  rw [draftIn_eq] at hfollow
  cases hat : t.at? (d ++ [draftName]) with
  | none =>
    rw [follow?_join_free isName_draftName hfits hd hat] at hfollow
    simpa [eq_comm] using hfollow
  | some e =>
    have hplain : IsPlain e := by
      rintro target rfl
      exact hlink target hat
    rw [follow?_join_found isName_draftName hfits hd hat hplain] at hfollow
    simpa [eq_comm] using hfollow

/-- The snapshot's file does not lead to what a draft is written to. -/
def StoreIsApart (outDir : Path) (t : FileTree) : Prop :=
  ∀ q x, writeTarget? (Snapshot.draftIn outDir) t = .ok (q, x) →
    t.follow? (Snapshot.pathIn outDir) ≠ .ok (.found q) ∧
      t.follow? (Snapshot.pathIn outDir) ≠ .ok (.free q)

theorem storeIsApart_of_plain
    (h : Fits outDir draftName → ∀ d, Reaches t outDir d → ∀ n, n = draftName ∨ n = storeName →
      ∀ target, t.at? (d ++ [n]) ≠ some (.link target)) : StoreIsApart outDir t := by
  intro q x htarget
  obtain ⟨hfits, d, hd⟩ := reaches_of_writeTarget? htarget
  have h := h hfits d hd
  obtain rfl := eq_of_writeTarget? hd (h _ (.inl rfl)) htarget
  have hne := draft_ne_store (d := d)
  rw [pathIn_eq]
  cases he : t.at? (d ++ [storeName]) with
  | none =>
    rw [follow?_join_free isName_storeName (fits_storeName hfits) hd he]
    exact ⟨by simp, by simpa using hne.symm⟩
  | some e =>
    have hplain : IsPlain e := by
      rintro target rfl
      exact h _ (.inr rfl) target he
    rw [follow?_join_found isName_storeName (fits_storeName hfits) hd he hplain]
    exact ⟨by simpa using hne.symm, by simp⟩

/-- **Where neither name of a save is a link the files are apart.** -/
theorem storeIsApart_of_not_link (hdraft : t.isLink (Snapshot.draftIn outDir) = false)
    (hstore : t.isLink (Snapshot.pathIn outDir) = false) : StoreIsApart outDir t := by
  refine storeIsApart_of_plain fun hfits d hd n hn => ?_
  rcases hn with rfl | rfl
  · exact not_link_of_isLink isName_draftName hfits hd hdraft
  · exact not_link_of_isLink isName_storeName (fits_storeName hfits) hd hstore

/-- Two trees that differ in the draft at a place. It may be missing in one of them, which counts as
a file that cannot be run; otherwise it can be run in both or in neither. -/
structure DiffersByDraft (outDir : Path) (q : Place) (x : Bool) (t u : FileTree) : Prop where
  target : writeTarget? (Snapshot.draftIn outDir) t = .ok (q, x)
  target' : writeTarget? (Snapshot.draftIn outDir) u = .ok (q, x)
  same : ∀ e, u.put q e = t.put q e

/-- **Writing a draft changes the draft.** -/
theorem differsByDraft_put (h : writeTarget? (Snapshot.draftIn outDir) t = .ok (q, x))
    (content : ByteArray) (time : FileTime) :
    DiffersByDraft outDir q x t (t.put q (.file content time x)) where
  target := h
  target' := writeTarget?_put h content time
  same := put_put t q _

namespace DiffersByDraft

theorem ne_nil (h : DiffersByDraft outDir q x t u) : q ≠ [] := ne_nil_of_writeTarget? h.target

theorem trans (h : DiffersByDraft outDir q x t u) (h' : DiffersByDraft outDir q x u v) :
    DiffersByDraft outDir q x t v where
  target := h.target
  target' := h'.target'
  same e := (h'.same e).trans (h.same e)

theorem at?_eq (h : DiffersByDraft outDir q x t u) {r : Place} (hr : r ≠ q) :
    u.at? r = t.at? r := by
  have hput := congrArg (fun w => w.at? r) (h.same (.link ⟨""⟩))
  rwa [at?_put h.ne_nil, at?_put h.ne_nil, if_neg hr, if_neg hr] at hput

theorem current_eq (h : DiffersByDraft outDir q x t u) : u.current = t.current := by
  have hput := congrArg FileTree.current (h.same (.link ⟨""⟩))
  exact hput

theorem clock_eq (h : DiffersByDraft outDir q x t u) : u.clock = t.clock := by
  have hput := congrArg FileTree.clock (h.same (.link ⟨""⟩))
  exact hput

theorem symm (h : DiffersByDraft outDir q x t u) : DiffersByDraft outDir q x u t where
  target := h.target'
  target' := h.target
  same e := (h.same e).symm

/-- The snapshot's file leads to the other draft as little. -/
theorem place?_ne (h : DiffersByDraft outDir q x t u) (hapart : StoreIsApart outDir t) :
    u.place? (Snapshot.pathIn outDir) ≠ .ok q := by
  intro hplace
  obtain ⟨hfound, hfree⟩ := hapart q x h.target
  rcases follow?_before (fun r hr => h.at?_eq hr) (writable_of_writeTarget? h.target)
    (writable_of_writeTarget? h.target') h.current_eq hplace with hf | hf
  · exact hfound hf
  · exact hfree hf

/-- A draft that is there keeps the snapshot's file apart. -/
theorem storeIsApart (h : DiffersByDraft outDir q x t u) (hapart : StoreIsApart outDir t)
    (hsome : (u.at? q).isSome) : StoreIsApart outDir u := by
  intro q' x' htarget
  obtain ⟨rfl, rfl⟩ : q = q' ∧ x = x' := by
    have := h.target'.symm.trans htarget
    simpa using this
  refine ⟨fun hfound => h.place?_ne hapart (place?_of_follow? hfound), fun hfree => ?_⟩
  rw [at?_of_follow?_free hfree] at hsome
  exact absurd hsome (by simp)

theorem place?_of_place? (h : DiffersByDraft outDir q x t u) {r : Place}
    (hr : t.place? (Snapshot.pathIn outDir) = .ok r) (hne : r ≠ q) :
    u.place? (Snapshot.pathIn outDir) = .ok r := by
  have hsame : AgreesOff (· = q) t u := by
    intro c e hc he
    rw [h.at?_eq hc, he]
  exact place?_frame hsame (fun c hc => hc ▸ writable_of_writeTarget? h.target) h.current_eq hr hne

/-- **Nothing of a draft is loaded.** -/
theorem load_eq (h : DiffersByDraft outDir q x t u) (hapart : StoreIsApart outDir t) :
    Snapshot.load u outDir = Snapshot.load t outDir := by
  have hne : t.place? (Snapshot.pathIn outDir) ≠ .ok q := by
    intro hplace
    exact (hapart q x h.target).1 (follow?_of_place? hplace)
  have hne' := h.place?_ne hapart
  unfold Snapshot.load Snapshot.read isPresent readText? read?
  cases hplace : t.place? (Snapshot.pathIn outDir) with
  | ok r =>
    have hr : r ≠ q := by
      rintro rfl
      exact hne hplace
    rw [h.place?_of_place? hplace hr]
    dsimp only [bind, Except.bind]
    rw [h.at?_eq hr]
  | error e =>
    cases hplace' : u.place? (Snapshot.pathIn outDir) with
    | ok r =>
      have hr : r ≠ q := by
        rintro rfl
        exact hne' hplace'
      rw [h.symm.place?_of_place? hplace' hr] at hplace
      exact absurd hplace (by simp)
    | error e' => rfl

/-- Where a draft can be written the directory is there. -/
theorem makeDirectories_eq (h : DiffersByDraft outDir q x t u) :
    t.run (makeDirectories outDir) = (.ok (), t) := by
  obtain ⟨hfits, d, hd⟩ := reaches_of_writeTarget? h.target
  exact makeDirectories_of_reaches isName_draftName hfits.text hd

/-- **What starts by opening the draft leaves the same tree**, since that empties it. -/
theorem run_eq (h : DiffersByDraft outDir q x t u) (rest : List Edit) :
    u.run ((makeDirectories outDir :: writeText (Snapshot.draftIn outDir) "" :: rest).forM id) =
      t.run
        ((makeDirectories outDir :: writeText (Snapshot.draftIn outDir) "" :: rest).forM id) := by
  have hopen : t.run (writeText (Snapshot.draftIn outDir) "") = (.ok (), _) :=
    run_write_of_writeTarget? h.target _
  have hopen' : u.run (writeText (Snapshot.draftIn outDir) "") = (.ok (), _) :=
    run_write_of_writeTarget? h.target' _
  rw [run_forM_cons h.makeDirectories_eq, run_forM_cons h.symm.makeDirectories_eq,
    run_forM_cons hopen, run_forM_cons hopen', h.same, h.clock_eq]

end DiffersByDraft

/-! ## Loading and saving, again and again -/

/-- What is done with the directory of a snapshot: it is loaded, or saved, or a save is stopped
after so many bytes of its draft. -/
inductive Use where
  | load
  | save (s : Snapshot)
  | stop (s : Snapshot) (length : Nat)

/-- What comes of it. -/
inductive Answer where
  | loaded (r : Snapshot × Option SnapshotError)
  | done (r : Except FileError Unit)

/-- The steps of a save up to so many bytes of its draft. -/
def draftSteps (s : Snapshot) (outDir : Path) (length : Nat) : List Edit :=
  [makeDirectories outDir, writeText (Snapshot.draftIn outDir) "",
    write (Snapshot.draftIn outDir) (s.text.toUTF8.extract 0 length)]

/-- The edit of a use. -/
def Use.edit (outDir : Path) : Use → Edit
  | .load => pure ()
  | .save s => s.save outDir
  | .stop s length => (draftSteps s outDir length).forM id

/-- What is answered, one use after another. -/
def answers (outDir : Path) : List Use → FileTree → List Answer
  | [], _ => []
  | .load :: rest, t => .loaded (Snapshot.load t outDir) :: answers outDir rest t
  | use :: rest, t =>
    .done (t.run (use.edit outDir)).1 :: answers outDir rest (t.run (use.edit outDir)).2

/-- **A draft is never noticed.** -/
theorem DiffersByDraft.answers_eq (h : DiffersByDraft outDir q x t u)
    (hapart : StoreIsApart outDir t) (uses : List Use) :
    answers outDir uses u = answers outDir uses t := by
  induction uses with
  | nil => rfl
  | cons use rest ih =>
    cases use with
    | load =>
      unfold answers
      rw [h.load_eq hapart, ih]
    | save s =>
      have hrun : u.run (s.save outDir) = t.run (s.save outDir) := h.run_eq _
      unfold answers Use.edit
      rw [hrun]
    | stop s length =>
      have hrun : u.run ((draftSteps s outDir length).forM id) =
          t.run ((draftSteps s outDir length).forM id) := h.run_eq _
      unfold answers Use.edit
      rw [hrun]

end Scan

end QmlStubs
