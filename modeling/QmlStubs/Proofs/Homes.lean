import QmlStubs.Proofs.Changes

/-!
# Where directories come to lie

The directory of a module may be missing when a refresh starts. Which place it gets is settled all
the same, by the links that are there: making directories, writing files and taking them out never
makes a link, so all trees on the way agree about where a path leads (`IsHome.unique`).

`Reworked` says what such edits leave of a tree: links and directories stay, and files change at the
touched places alone. It needs less than `Change`, which is about what lies below one site: a path
may be written in any way, and links may lie anywhere but in the place of a file that is touched.
-/

set_option autoImplicit false

namespace QmlStubs

namespace FileTree

variable {t u v : FileTree} {p : Path} {c d : Place} {n : String}
variable {touched touched' : Place → Prop}

/-! ## Homes -/

/-- All links of a tree are links of another one, which has none in the place of a directory. -/
structure HasLinksOf (t u : FileTree) : Prop where
  current : u.current = t.current
  links : ∀ q target, u.at? q = some (.link target) → t.at? q = some (.link target)
  directories : ∀ q target, u.isDirectoryAt q = true → t.at? q ≠ some (.link target)

/-- The place of the directory that a path leads to, now or when missing directories are made. -/
def IsHome (t : FileTree) (p : Path) (c : Place) : Prop := ∃ u, HasLinksOf t u ∧ Reaches u p c

namespace HasLinksOf

theorem refl (t : FileTree) : HasLinksOf t t := by
  refine ⟨rfl, fun _ _ => id, fun q target hq he => ?_⟩
  unfold isDirectoryAt at hq
  rw [he] at hq
  exact absurd hq (by simp)

theorem trans (h : HasLinksOf t u) (h' : HasLinksOf u v)
    (hdirs : ∀ q, v.isDirectoryAt q = true → u.isDirectoryAt q = true) : HasLinksOf t v where
  current := h'.current.trans h.current
  links q target he := h.links q target (h'.links q target he)
  directories q target hq := h.directories q target (hdirs q hq)

/-- Where a walk to a directory goes on, there is no link in the other tree. -/
theorem not_link_of_walk (h : HasLinksOf t u) {q : Place} {steps : List Step} {k : Nat}
    (w : Walk u c steps k q []) (hq : u.isDirectoryAt q = true) (target : Path) :
    t.at? c ≠ some (.link target) :=
  h.directories c target (w.isDirectoryAt_start hq)

/-- **Walks to directories end at one place** in all trees with links of one. -/
theorem walk_unique (hu : HasLinksOf t u) (hv : HasLinksOf t v) {q r : Place} {steps : List Step}
    {k m : Nat} (w : Walk u c steps k q []) (hq : u.isDirectoryAt q = true)
    (w' : Walk v c steps m r []) (hr : v.isDirectoryAt r = true) : q = r := by
  generalize hend : ([] : List Step) = last at w
  induction w generalizing m with
  | refl c steps =>
    subst hend
    cases w'
    rfl
  | stay h w ih =>
    cases w' with
    | stay _ w' => exact ih hq w' hend
  | up h w ih =>
    cases w' with
    | up _ w' => exact ih hq w' hend
  | down h hn he hplain w ih =>
    cases w' with
    | down _ _ _ _ w' => exact ih hq w' hend
    | link _ _ he' _ =>
      subst hend
      exact absurd (hv.links _ _ he') (hu.not_link_of_walk w hq _)
  | link h hn he w ih =>
    cases w' with
    | down _ _ _ _ w' =>
      exact absurd (hu.links _ _ he) (hv.not_link_of_walk w' hr _)
    | link _ _ he' w' =>
      have hsame := (hu.links _ _ he).symm.trans (hv.links _ _ he')
      rw [Option.some.injEq, Entry.link.injEq] at hsame
      subst hsame
      exact ih hq w' hend

end HasLinksOf

theorem Reaches.isHome (h : Reaches u p c) (hu : HasLinksOf t u) : IsHome t p c := ⟨u, hu, h⟩

/-- **A path has one home.** -/
theorem IsHome.unique (h : IsHome t p c) (h' : IsHome t p d) : c = d := by
  obtain ⟨u, hu, k, -, w, hc⟩ := h
  obtain ⟨v, hv, m, -, w', hd⟩ := h'
  have hstart : v.startOf p = u.startOf p := by
    unfold startOf
    rw [hu.current, hv.current]
  rw [hstart] at w'
  exact hu.walk_unique hv w hc w' hd

/-- **Where there are no links, steps down lead to the place with their names.** -/
theorem IsHome.of_joins (hd : IsHome t p d) (hp : p.text ≠ "") (hlinkless : IsLinkless d t)
    {ns : List String} (hns : ∀ n ∈ ns, IsName n) (hc : IsHome t (joins p ns) c) : c = d ++ ns := by
  obtain ⟨u, hu, k, hk, w, hdir⟩ := hc
  rw [startOf_joins p hns, coreSteps_joins hp hns] at w
  obtain ⟨k₁, k₂, r, hsum, w₁, w₂⟩ := w.split_end
  have hr : Reaches u p r := ⟨k₁, by omega, w₁, w₂.isDirectoryAt_start hdir⟩
  obtain rfl := (hr.isHome hu).unique hd
  have hlinkless' : IsLinkless r u := by
    rintro ns e hne he target rfl
    exact hlinkless ns _ hne (hu.links _ _ he) target rfl
  exact hlinkless'.eq_of_walk w₂

/-! ## What edits leave -/

/-- A tree after edits that leave links and directories. At places that are not touched there is
what there was, or a new directory in the place of nothing. -/
structure Reworked (touched : Place → Prop) (t u : FileTree) : Prop where
  isTree : IsTree u
  current : u.current = t.current
  links : ∀ q target, u.at? q = some (.link target) ↔ t.at? q = some (.link target)
  directories : ∀ q, t.isDirectoryAt q = true → u.isDirectoryAt q = true
  kept : ∀ q, ¬ touched q → u.at? q = t.at? q ∨ t.at? q = none ∧ u.isDirectoryAt q = true

namespace Reworked

theorem refl (ht : IsTree t) : Reworked touched t t :=
  ⟨ht, rfl, fun _ _ => .rfl, fun _ => id, fun _ _ => .inl rfl⟩

theorem trans (h : Reworked touched t u) (h' : Reworked touched u v) : Reworked touched t v where
  isTree := h'.isTree
  current := h'.current.trans h.current
  links q target := (h'.links q target).trans (h.links q target)
  directories q hq := h'.directories q (h.directories q hq)
  kept q hq := by
    rcases h'.kept q hq with hsame | ⟨hnone, hdir⟩
    · rcases h.kept q hq with hold | ⟨hnone, hdir⟩
      · exact .inl (hsame.trans hold)
      · exact .inr ⟨hnone, h'.directories q hdir⟩
    · rcases h.kept q hq with hold | ⟨-, hdir'⟩
      · exact .inr ⟨hold.symm.trans hnone, hdir⟩
      · rw [isDirectoryAt_eq_false_of_at? hnone] at hdir'
        exact absurd hdir' (by simp)

theorem mono (h : Reworked touched t u) (hle : ∀ q, touched q → touched' q) :
    Reworked touched' t u :=
  { h with kept := fun q hq => h.kept q fun hmem => hq (hle q hmem) }

theorem hasLinksOf (h : Reworked touched t u) : HasLinksOf t u where
  current := h.current
  links q target := (h.links q target).1
  directories q target hq he := by
    obtain ⟨time, htime⟩ := isDirectoryAt_iff.1 hq
    rw [(h.links q target).2 he] at htime
    exact absurd htime (by simp)

/-- **Directories are reached as before.** -/
theorem reaches (h : Reworked touched t u) (hr : Reaches t p c) : Reaches u p c := by
  obtain ⟨k, hk, w, hc⟩ := hr
  have hstart : u.startOf p = t.startOf p := by
    unfold startOf
    rw [h.current]
  refine ⟨k, hk, ?_, h.directories c hc⟩
  rw [hstart]
  -- The walk goes through directories and links alone, and all of them are there.
  have hwalk : ∀ {a q : Place} {steps rest : List Step} {m : Nat}, Walk t a steps m q rest →
      t.isDirectoryAt q = true → Walk u a steps m q rest := by
    intro a q steps rest m w hq
    induction w with
    | refl a steps => exact .refl a steps
    | stay ha _ ih => exact .stay (h.directories _ ha) (ih hq)
    | up ha _ ih => exact .up (h.directories _ ha) (ih hq)
    | down ha hn _ _ w ih =>
      obtain ⟨time, htime⟩ := isDirectoryAt_iff.1 (h.directories _ (w.isDirectoryAt_start hq))
      exact .down (h.directories _ ha) hn htime (isPlain_directory time) (ih hq)
    | link ha hn he _ ih => exact .link (h.directories _ ha) hn ((h.links _ _).2 he) (ih hq)
  exact hwalk w hc

/-- Paths have the homes that they had. -/
theorem isHome_iff (h : Reworked touched t u) : IsHome u p c ↔ IsHome t p c := by
  constructor
  · rintro ⟨v, hv, hr⟩
    refine ⟨v, ⟨hv.current.trans h.current, fun q target he => ?_, fun q target hq he => ?_⟩, hr⟩
    · exact (h.links q target).1 (hv.links q target he)
    · exact hv.directories q target hq ((h.links q target).2 he)
  · rintro ⟨v, hv, hr⟩
    refine ⟨v, ⟨hv.current.trans h.current.symm, fun q target he => ?_, fun q target hq he => ?_⟩,
      hr⟩
    · exact (h.links q target).2 (hv.links q target he)
    · exact hv.directories q target hq ((h.links q target).1 he)

/-- **Files that are not touched have the content that they had.** -/
theorem contentAt?_eq (h : Reworked touched t u) {q : Place} (hq : ¬ touched q) :
    u.contentAt? q = t.contentAt? q := by
  rcases h.kept q hq with hsame | ⟨hnone, hdir⟩
  · exact contentAt?_of_at?_eq hsame
  · obtain ⟨time, htime⟩ := isDirectoryAt_iff.1 hdir
    unfold contentAt?
    rw [hnone, htime]

theorem typesAt_eq (h : Reworked touched t u) {q : Place} (hq : ¬ touched q) :
    u.typesAt q = t.typesAt q := by
  rw [FileTree.typesAt_eq, FileTree.typesAt_eq, h.contentAt?_eq hq]

theorem of_grown (h : Grown t u) (ht : IsTree t) : Reworked touched t u where
  isTree := h.isTree ht
  current := h.current
  links q target := by
    refine ⟨fun he => ?_, h.keeps q _⟩
    rcases h.made q _ he with hold | ⟨time, htime⟩
    · exact hold
    · exact absurd htime (by simp)
  directories q hq := by
    obtain ⟨time, htime⟩ := isDirectoryAt_iff.1 hq
    exact isDirectoryAt_iff.2 ⟨time, h.keeps q _ htime⟩
  kept q _ := by
    cases he : t.at? q with
    | some e => exact .inl (h.keeps q e he)
    | none =>
      cases hu : u.at? q with
      | none => exact .inl rfl
      | some e =>
        rcases h.made q e hu with hold | ⟨time, rfl⟩
        · rw [he] at hold
          exact absurd hold (by simp)
        · exact .inr ⟨rfl, isDirectoryAt_iff.2 ⟨time, hu⟩⟩

/-- A file is put into a directory. -/
theorem put_file (ht : IsTree t) (hc : t.isDirectoryAt c = true) (hw : Writable t (c ++ [n]))
    (content : ByteArray) (time : FileTime) (x : Bool) :
    Reworked (· = c ++ [n]) t (t.put (c ++ [n]) (.file content time x)) where
  isTree := ht.put hc hw.not_directory
  current := rfl
  links q target := by
    rw [at?_put (by simp)]
    by_cases hq : q = c ++ [n]
    · rw [if_pos hq, hq]
      exact ⟨fun he => absurd he (by simp), fun he => absurd he (hw.not_link target)⟩
    · rw [if_neg hq]
  directories q hq := by
    have hne : q ≠ c ++ [n] := by
      rintro rfl
      rw [hw.not_directory] at hq
      exact absurd hq (by simp)
    rwa [isDirectoryAt_put_of_ne (by simp) hne]
  kept q hq := .inl (by rw [at?_put (by simp), if_neg hq])

/-- A file is taken out. -/
theorem cut_file (ht : IsTree t) {q : Place} (hw : Writable t q) :
    Reworked (· = q) t (t.cut q) where
  isTree := ht.cut hw.not_directory
  current := rfl
  links r target := by
    rw [ht.at?_cut hw.not_directory]
    by_cases hr : r = q
    · rw [if_pos hr, hr]
      exact ⟨fun he => absurd he (by simp), fun he => absurd he (hw.not_link target)⟩
    · rw [if_neg hr]
  directories r hr := by
    have hne : r ≠ q := by
      rintro rfl
      rw [hw.not_directory] at hr
      exact absurd hr (by simp)
    unfold isDirectoryAt at hr ⊢
    rwa [ht.at?_cut hw.not_directory, if_neg hne]
  kept r hr := .inl (by rw [ht.at?_cut hw.not_directory, if_neg hr])

end Reworked

/-! ## Files in a directory that is reached -/

/-- Entries are those of a file. -/
theorem exists_content_of_typesAt {q : Place} {entries : List TypesEntry}
    (h : t.typesAt q = entries) (hne : entries ≠ []) :
    ∃ content, t.contentAt? q = some content ∧ TypesFile.ofBytes? content = some entries := by
  rw [typesAt_eq] at h
  cases hc : t.contentAt? q with
  | none =>
    rw [hc] at h
    exact absurd h.symm hne
  | some content =>
    refine ⟨content, rfl, ?_⟩
    rw [hc, Option.elim_some] at h
    cases ho : TypesFile.ofBytes? content with
    | none =>
      rw [ho] at h
      exact absurd h.symm hne
    | some read =>
      rw [ho] at h
      exact congrArg some h

/-- No link stands at a place. -/
def IsPlainAt (t : FileTree) (q : Place) : Prop := ∀ target, t.at? q ≠ some (.link target)

theorem HasLinksOf.isPlainAt (h : HasLinksOf t u) {q : Place} (hq : IsPlainAt t q) :
    IsPlainAt u q := fun target he => hq target (h.links q target he)

/-- A file in the directory is found behind its path. -/
theorem Reaches.place?_join (hr : Reaches t p c) (hn : IsName n) (hfits : Fits p n) {e : Entry}
    (he : t.at? (c ++ [n]) = some e) (hplain : IsPlainAt t (c ++ [n])) :
    t.place? (p.join n) = .ok (c ++ [n]) := by
  have hentry : IsPlain e := by
    rintro target rfl
    exact hplain target he
  exact place?_of_follow? (follow?_join_found hn hfits hr he hentry)

/-- What is found behind a name is in the directory. -/
theorem of_place?_join (hn : IsName n) {q : Place} (h : t.place? (p.join n) = .ok q) :
    Fits p n ∧ ∃ c, Reaches t p c ∧ (IsPlainAt t (c ++ [n]) →
      q = c ++ [n] ∧ (t.at? (c ++ [n])).isSome = true) := by
  have hfollow := follow?_of_place? h
  obtain ⟨hfits, c, hc⟩ := reaches_of_follow? hn hfollow
  refine ⟨hfits, c, hc, fun hplain => ?_⟩
  cases he : t.at? (c ++ [n]) with
  | none =>
    rw [follow?_join_free hn hfits hc he] at hfollow
    exact absurd hfollow (by simp)
  | some e =>
    rw [hc.place?_join hn hfits he hplain] at h
    exact ⟨(Except.ok.inj h).symm, rfl⟩

theorem Reaches.read?_join (hr : Reaches t p c) (hn : IsName n) (hfits : Fits p n)
    {content : ByteArray} (hcontent : t.contentAt? (c ++ [n]) = some content) :
    t.read? (p.join n) = .ok content := by
  unfold contentAt? at hcontent
  split at hcontent
  next old time x he =>
    obtain rfl := Option.some.inj hcontent
    have hplain : IsPlainAt t (c ++ [n]) := by
      intro target he'
      rw [he] at he'
      exact absurd he' (by simp)
    exact read?_of_place? (hr.place?_join hn hfits he hplain) he
  next => exact absurd hcontent (by simp)

/-- Where there is no file in the home of a directory, none is found behind its path. -/
theorem IsHome.isFile_join (hc : IsHome t p c) (hu : HasLinksOf t u) (hn : IsName n)
    (hplain : IsPlainAt t (c ++ [n])) (hgone : u.contentAt? (c ++ [n]) = none) :
    u.isFile (p.join n) = false := by
  unfold isFile
  cases hplace : u.place? (p.join n) with
  | error e => rfl
  | ok q =>
    obtain ⟨-, d, hd, hfound⟩ := of_place?_join hn hplace
    obtain rfl := (hd.isHome hu).unique hc
    obtain ⟨rfl, hsome⟩ := hfound (hu.isPlainAt hplain)
    obtain ⟨e, he⟩ := Option.isSome_iff_exists.1 hsome
    cases e with
    | directory time => simp [isDirectoryAt, he]
    | file content time x => simp [contentAt?, he] at hgone
    | link target => exact absurd he (hu.isPlainAt hplain target)

/-- **A file that was written lies in the directory that its path reaches.** -/
theorem Reaches.of_run_write (hr : Reaches t p c) (hn : IsName n)
    (hplain : IsPlainAt t (c ++ [n])) {content : ByteArray}
    (hu : t.run (write (p.join n) content) = (.ok (), u)) :
    Fits p n ∧ Writable t (c ++ [n]) ∧
      ∃ x, u = t.put (c ++ [n]) (.file content t.clock x) := by
  obtain ⟨hfits, d, hd, hfree⟩ := of_run_write_join hn hu
  obtain rfl := hr.unique hd
  obtain ⟨x, hx⟩ := run_write_join hn hfits hr ⟨hfree, hplain⟩ content
  rw [hu] at hx
  exact ⟨hfits, ⟨hfree, hplain⟩, x, (Prod.mk.inj hx).2⟩

/-- Writing a file touches its place alone, whether it succeeds or not. -/
theorem Reaches.reworked_write (hr : Reaches t p c) (ht : IsTree t) (hn : IsName n)
    (hplain : IsPlainAt t (c ++ [n])) (content : ByteArray) :
    Reworked (· = c ++ [n]) t (t.run (write (p.join n) content)).2 := by
  cases hrun : t.run (write (p.join n) content) with
  | mk result u =>
    cases result with
    | ok =>
      obtain ⟨-, hw, x, rfl⟩ := hr.of_run_write hn hplain hrun
      exact .put_file ht hr.isDirectory hw content t.clock x
    | error e =>
      unfold write at hrun
      rw [run_editBy] at hrun
      split at hrun
      · exact absurd (Prod.mk.inj hrun).1 (by simp)
      · obtain rfl := (Prod.mk.inj hrun).2
        exact .refl ht

/-- **Removing a file leaves none** in the directory that its path reaches. -/
theorem Reaches.reworked_removeIfPresent (hr : Reaches t p c) (ht : IsTree t) (hn : IsName n)
    (hplain : IsPlainAt t (c ++ [n])) (hu : t.run (removeIfPresent (p.join n)) = (.ok (), u)) :
    Fits p n ∧ Reworked (· = c ++ [n]) t u ∧ u.at? (c ++ [n]) = none := by
  obtain ⟨hfits, ⟨hnone, rfl⟩ | ⟨hfree, rfl⟩⟩ := hr.of_run_removeIfPresent hn hu
  · exact ⟨hfits, .refl ht, hnone⟩
  · exact ⟨hfits, .cut_file ht ⟨hfree, hplain⟩, by rw [ht.at?_cut hfree, if_pos rfl]⟩

/-! ## Files of one name -/

/-- The last step of a path that ends in a name. -/
theorem exists_moves_of_fileName? (h : p.fileName? = some n) :
    ∃ init, (coreSteps p).filter (· ≠ .stay) = init ++ [.down n] := by
  unfold Path.fileName? at h
  split at h
  next name hlast =>
    obtain rfl := Option.some.inj h
    obtain ⟨cs, hcs⟩ := List.getLast?_eq_some_iff.1 hlast
    refine ⟨(cs.filterMap moveOf?).filter (· ≠ .stay), ?_⟩
    rw [← filter_moves_components, hcs, List.filterMap_append, List.filter_append]
    rfl
  next => exact absurd h (by simp)

/-- An entry that is no directory has the name that its path ends in. -/
theorem getLast?_of_followParent? {init : List Step}
    (hmoves : (coreSteps p).filter (· ≠ .stay) = init ++ [.down n]) {q : Place}
    (h : t.followParent? p = .ok (.found q)) (hq : t.isDirectoryAt q = false) :
    q.getLast? = some n := by
  have ht : textError? p = none := by
    cases ht : textError? p with
    | none => rfl
    | some e =>
      unfold followParent? at h
      rw [ht] at h
      exact absurd h (by simp)
  by_cases hlast : ∃ name, (stepsOf p).getLast? = some (.down name)
  · obtain ⟨name, hlast⟩ := hlast
    obtain ⟨before, hbefore⟩ := List.getLast?_eq_some_iff.1 hlast
    have hname : n = name := by
      rw [coreSteps_eq_stepsOf hlast, hbefore, List.filter_append] at hmoves
      have hsame := (List.append_inj' hmoves rfl).2
      simpa using hsame.symm
    by_cases hshort : IsShort name
    · rw [followParent?_of_last ht hlast hshort] at h
      split at h
      next => exact absurd h (by simp)
      next => exact absurd h (by simp)
      next c hc =>
        split at h
        next =>
          have hplace := Except.ok.inj h
          split at hplace
          · rw [← Destination.found.inj hplace, List.getLast?_concat, hname]
          · exact absurd hplace (by simp)
        next => exact absurd h (by simp)
    · unfold followParent? at h
      rw [ht] at h
      dsimp only at h
      rw [hlast] at h
      dsimp only at h
      rw [if_pos (not_not.1 hshort)] at h
      exact absurd h (by simp)
  · -- A path that ends in dots leads to a directory.
    exfalso
    rw [followParent?_of_other ht fun name hn => hlast ⟨name, hn⟩] at h
    obtain ⟨k, -, w⟩ := followSteps_eq_found.1 h
    cases hstep : (stepsOf p).getLast? with
    | none =>
      rw [stepsOf_eq, List.getLast?_eq_none_iff, List.append_eq_nil_iff] at hstep
      rw [hstep.1] at hmoves
      exact absurd hmoves.symm (by simp)
    | some step =>
      obtain ⟨before, hbefore⟩ := List.getLast?_eq_some_iff.1 hstep
      cases step with
      | down name => exact hlast ⟨name, hstep⟩
      | stay =>
        rw [hbefore] at w
        obtain ⟨k₁, k₂, r, -, -, w₂⟩ := w.split_end
        cases w₂ with
        | stay hr w₂ =>
          cases w₂
          rw [hq] at hr
          exact absurd hr (by simp)
      | up =>
        have hcore : coreSteps p = before ++ [.up] := by
          rw [stepsOf_eq] at hbefore
          split at hbefore
          · exact absurd (List.append_inj' hbefore rfl).2 (by simp)
          · rw [← hbefore, List.append_nil]
        rw [hcore, List.filter_append] at hmoves
        exact absurd (List.append_inj' hmoves rfl).2 (by simp)

/-- A tree that differs from another one at most in files and links of one name. Its links are among
those of the other tree. -/
structure AgreesBut (name : String) (t u : FileTree) : Prop where
  isTree : IsTree u
  hasLinksOf : HasLinksOf t u
  directories : ∀ q, u.isDirectoryAt q = t.isDirectoryAt q
  kept : ∀ q, q.getLast? ≠ some name → u.at? q = t.at? q

namespace AgreesBut

variable {name : String}

theorem refl (ht : IsTree t) : AgreesBut name t t :=
  ⟨ht, .refl t, fun _ => rfl, fun _ _ => rfl⟩

theorem trans (h : AgreesBut name t u) (h' : AgreesBut name u v) : AgreesBut name t v where
  isTree := h'.isTree
  hasLinksOf := h.hasLinksOf.trans h'.hasLinksOf fun q hq => h'.directories q ▸ hq
  directories q := (h'.directories q).trans (h.directories q)
  kept q hq := (h'.kept q hq).trans (h.kept q hq)

theorem of_reworked (h : Reworked (· = c ++ [name]) t u)
    (hfree : u.isDirectoryAt (c ++ [name]) = t.isDirectoryAt (c ++ [name]))
    (hkept : ∀ q, q ≠ c ++ [name] → u.at? q = t.at? q) : AgreesBut name t u where
  isTree := h.isTree
  hasLinksOf := h.hasLinksOf
  directories q := by
    by_cases hq : q = c ++ [name]
    · rw [hq, hfree]
    · unfold isDirectoryAt
      rw [hkept q hq]
  kept q hq := hkept q fun he => hq (by rw [he, List.getLast?_concat])

/-- A file or link is taken out. -/
theorem cut (ht : IsTree t) {q : Place} (hname : q.getLast? = some name)
    (hfree : t.isDirectoryAt q = false) : AgreesBut name t (t.cut q) := by
  have hat := ht.at?_cut hfree
  have hdirs : ∀ r, (t.cut q).isDirectoryAt r = t.isDirectoryAt r := by
    intro r
    by_cases hr : r = q
    · rw [hr, hfree]
      exact isDirectoryAt_eq_false_of_at? (by rw [hat, if_pos rfl])
    · unfold isDirectoryAt
      rw [hat, if_neg hr]
  refine ⟨ht.cut hfree, ⟨rfl, fun r target he => ?_, fun r target hr he => ?_⟩, hdirs,
    fun r hr => ?_⟩
  · rw [hat] at he
    split at he
    · exact absurd he (by simp)
    · exact he
  · rw [hdirs r] at hr
    exact (HasLinksOf.refl t).directories r target hr he
  · rw [hat, if_neg]
    rintro rfl
    exact hr hname

/-- A file is put into a directory. -/
theorem put_file (ht : IsTree t) (hc : t.isDirectoryAt c = true) (hw : Writable t (c ++ [name]))
    (content : ByteArray) (time : FileTime) (x : Bool) :
    AgreesBut name t (t.put (c ++ [name]) (.file content time x)) := by
  refine .of_reworked (.put_file ht hc hw content time x) ?_ fun q hq => ?_
  · rw [hw.not_directory]
    exact (writable_put (by simp) content time x).not_directory
  · rw [at?_put (by simp), if_neg hq]

/-- **What is removed by a path that ends in a name** is an entry of that name. -/
theorem of_withoutFile? (ht : IsTree t) (hname : p.fileName? = some name)
    (h : withoutFile? p t = .ok u) : AgreesBut name t u := by
  obtain ⟨init, hmoves⟩ := exists_moves_of_fileName? hname
  unfold withoutFile? at h
  cases hf : t.followParent? p with
  | error e =>
    rw [hf] at h
    exact absurd h (by simp [bind, Except.bind])
  | ok r =>
  rw [hf] at h
  cases r with
  | free q => exact absurd h (by simp [bind, Except.bind, throw, throwThe, MonadExceptOf.throw])
  | found q =>
  cases hdir : t.isDirectoryAt q with
  | true =>
    dsimp only [bind, Except.bind] at h
    rw [hdir] at h
    exact absurd h (by simp [throw, throwThe, MonadExceptOf.throw])
  | false =>
    dsimp only [bind, Except.bind] at h
    rw [hdir] at h
    obtain rfl := Except.ok.inj h
    refine .cut ht (getLast?_of_followParent? hmoves hf hdir) hdir

end AgreesBut

end FileTree

end QmlStubs
