import QmlStubs.Proofs.Saving
import QmlStubs.Proofs.Sites
import QmlStubs.Proofs.TypesRoundTrip

/-!
# Changes below a site

A refresh changes a tree in many steps, and each of its results depends on few of them. A `Change`
names the places that a step touches. All other places hold what they held, or a new directory in
the place of nothing. Changes compose, so **what is at a place that no step touches is there in the
end** (`Change.typesAt_eq`), and what an entry's input file resolves to may only depend on what is
outside of the site.
-/

set_option autoImplicit false

namespace QmlStubs

namespace FileTree

variable {t u v : FileTree} {p : Path} {d c : Place} {n : String}

/-- A place where a directory may be made: its name has no dot, and its path can be used. -/
def IsMade (p : Path) (d q : Place) : Prop :=
  ∃ ns n, q = d ++ (ns ++ [n]) ∧ '.' ∉ n.toList ∧ textError? (joins p (ns ++ [n])) = none

theorem not_isMade {ns : List String} (hdot : '.' ∈ n.toList) : ¬ IsMade p d (d ++ (ns ++ [n])) := by
  rintro ⟨ms, m, hq, hm, -⟩
  have hname := (List.append_inj' (List.append_cancel_left hq) rfl).2
  exact hm (List.singleton_inj.1 hname ▸ hdot)

/-- A change below a site. Files are changed at the touched places alone, directories stay, and those
that are made have names without dots and paths that can be used. -/
structure Change (p : Path) (d : Place) (touched : Place → Prop) (t u : FileTree) : Prop where
  ground : Ground u p d
  within : Within d t u
  kept : ∀ q, ¬ touched q →
    u.at? q = t.at? q ∨ t.at? q = none ∧ ∃ time, u.at? q = some (.directory time)
  made : ∀ q, u.isDirectoryAt q = true → t.isDirectoryAt q = true ∨ IsMade p d q
  directories : ∀ q time, t.at? q = some (.directory time) → u.at? q = some (.directory time)

namespace Change

variable {touched touched' : Place → Prop}

theorem refl (h : Ground t p d) : Change p d touched t t :=
  ⟨h, Within.refl d t, fun _ _ => .inl rfl, fun _ => .inl, fun _ _ => id⟩

theorem trans (h : Change p d touched t u) (h' : Change p d touched u v) :
    Change p d touched t v where
  ground := h'.ground
  within := h.within.trans h'.within
  kept q hq := by
    rcases h.kept q hq with he | ⟨hnone, time, he⟩
    · rcases h'.kept q hq with he' | ⟨hnone', hdir⟩
      · exact .inl (he'.trans he)
      · exact .inr ⟨he ▸ hnone', hdir⟩
    · rcases h'.kept q hq with he' | ⟨hnone', -⟩
      · exact .inr ⟨hnone, time, he'.trans he⟩
      · rw [he] at hnone'
        exact absurd hnone' (by simp)
  made q hq := (h'.made q hq).elim (h.made q) .inr
  directories q time hq := h'.directories q time (h.directories q time hq)

theorem mono (h : Change p d touched t u) (hle : ∀ q, touched q → touched' q) :
    Change p d touched' t u :=
  ⟨h.ground, h.within, fun q hq => h.kept q fun hmem => hq (hle q hmem), h.made, h.directories⟩

theorem of_deepened {ns : List String} (h : Deepened p d ns t u)
    (hp : p.IsDirect) (hnames : ∀ n ∈ ns, IsName n) (htext : textError? (joins p ns) = none)
    (hns : ∀ n ∈ ns, '.' ∉ n.toList) : Change p d touched t u where
  ground := h.ground
  within := h.within
  kept q _ := by
    cases he : t.at? q with
    | some e => exact .inl (h.grown.keeps q e he)
    | none =>
      cases hu : u.at? q with
      | none => exact .inl rfl
      | some e =>
        rcases h.grown.made q e hu with hold | ⟨time, rfl⟩
        · rw [he] at hold
          exact absurd hold (by simp)
        · exact .inr ⟨rfl, time, rfl⟩
  made q hq := by
    obtain ⟨time, htime⟩ := isDirectoryAt_iff.1 hq
    rcases h.made q (by rw [htime]; rfl) with hold | ⟨ms, hne, ⟨rest, rfl⟩, hq⟩
    · obtain ⟨e, he⟩ := Option.isSome_iff_exists.1 hold
      have hsame := (h.grown.keeps q e he).symm.trans htime
      exact .inl (isDirectoryAt_iff.2 ⟨time, he.trans hsame⟩)
    · obtain ⟨init, n, rfl⟩ := (List.eq_nil_or_concat' ms).resolve_left hne
      rw [joins_append] at htext
      have hinit : ∀ m ∈ init ++ [n], IsName m := fun m hm => hnames m (List.mem_append_left _ hm)
      exact .inr ⟨init, n, hq, hns n (by simp), textError?_of_joins (isDirect_joins hp hinit)
        (fun m hm => hnames m (List.mem_append_right _ hm)) htext⟩
  directories q _ hq := h.grown.keeps q _ hq

/-- A place that is not touched and where no directory is made holds what it held. -/
theorem at?_eq (h : Change p d touched t u) {q : Place} (hq : ¬ touched q)
    (hmade : ¬ IsMade p d q) : u.at? q = t.at? q := by
  rcases h.kept q hq with he | ⟨hnone, time, he⟩
  · exact he
  · rcases h.made q (isDirectoryAt_iff.2 ⟨time, he⟩) with hdir | hmade'
    · rw [isDirectoryAt_eq_false_of_at? hnone] at hdir
      exact absurd hdir (by simp)
    · exact absurd hmade' hmade

theorem isDirectoryAt (h : Change p d touched t u) {q : Place} (hq : t.isDirectoryAt q = true) :
    u.isDirectoryAt q = true := by
  obtain ⟨time, htime⟩ := isDirectoryAt_iff.1 hq
  exact isDirectoryAt_iff.2 ⟨time, h.directories q time htime⟩

/-- What is at a place that is not touched stays there. -/
theorem at?_of_some (h : Change p d touched t u) {q : Place} (hq : ¬ touched q) {e : Entry}
    (he : t.at? q = some e) : u.at? q = some e := by
  rcases h.kept q hq with hsame | ⟨hnone, -⟩
  · rw [hsame, he]
  · rw [he] at hnone
    exact absurd hnone (by simp)

/-- **A path leads where it led**, unless that is a file that is touched. -/
theorem place?_eq (h : Change p d touched t u) (ht : Ground t p d)
    (hbelow : ∀ q, touched q → ∃ ns, ns ≠ [] ∧ q = d ++ ns) {x : Path} {q : Place}
    (hplace : t.place? x = .ok q) (hq : touched q → t.isDirectoryAt q = true) :
    u.place? x = .ok q := by
  have hsame : AgreesOff (fun q => touched q ∧ t.isDirectoryAt q = false) t u := by
    intro r e hr he
    by_cases htouched : touched r
    · cases hdir : t.isDirectoryAt r with
      | false => exact absurd ⟨htouched, hdir⟩ hr
      | true =>
        obtain ⟨time, htime⟩ := isDirectoryAt_iff.1 hdir
        rw [htime] at he
        exact (h.directories r time htime).trans he
    · exact h.at?_of_some htouched he
  refine place?_frame hsame (fun r hr => ?_) h.within.current hplace fun hmem => ?_
  · obtain ⟨ns, hne, rfl⟩ := hbelow r hr.1
    exact ht.writable hne hr.2
  · have hdir := hq hmem.1
    rw [hmem.2] at hdir
    exact absurd hdir (by simp)

end Change

/-! ## Files behind a path of names -/

/-- What is found behind a path without taking a link at the end lies in the directory. -/
theorem of_followParent?_join (hn : IsName n) {r : Destination}
    (h : t.followParent? (p.join n) = .ok r) :
    Fits p n ∧ ∃ c, Reaches t p c ∧
      r = if (t.at? (c ++ [n])).isSome then .found (c ++ [n]) else .free (c ++ [n]) := by
  have ht : textError? (p.join n) = none := by
    cases ht : textError? (p.join n) with
    | none => rfl
    | some e =>
      unfold followParent? at h
      rw [ht] at h
      exact absurd h (by simp)
  have hlast : (stepsOf (p.join n)).getLast? = some (.down n) := by
    rw [stepsOf_join hn, List.getLast?_concat]
  have hshort : IsShort n := by
    intro hlong
    unfold followParent? at h
    rw [ht] at h
    dsimp only at h
    rw [hlast] at h
    dsimp only at h
    rw [if_pos hlong] at h
    exact absurd h (by simp)
  refine ⟨⟨ht, hshort⟩, ?_⟩
  have hsame := h
  rw [followParent?_of_last ht hlast hshort, stepsOf_join hn, List.dropLast_concat,
    startOf_join hn] at h
  split at h
  next => exact absurd h (by simp)
  next => exact absurd h (by simp)
  next c hc =>
    split at h
    next hdir =>
      obtain ⟨k, hk, w⟩ := followSteps_eq_found.1 hc
      exact ⟨c, ⟨k, hk, w, hdir⟩, (Except.ok.inj h).symm⟩
    next => exact absurd h (by simp)

/-- What is taken out, or is not there, has a name that can be used. -/
theorem fits_of_withoutFile? (hn : IsName n)
    (h : ∀ e, withoutFile? (p.join n) t = .error e → e = .notFound) : Fits p n := by
  have herror : ∀ e, t.followParent? (p.join n) = .error e → e = .notFound := by
    intro e he
    refine h e ?_
    unfold withoutFile?
    rw [he]
    rfl
  have ht : textError? (p.join n) = none := by
    cases ht : textError? (p.join n) with
    | none => rfl
    | some e =>
      have hnot := herror e (by unfold followParent?; rw [ht])
      exact absurd (hnot ▸ ht) (textError?_ne_notFound (text_join_ne_empty hn))
  refine ⟨ht, fun hlong => ?_⟩
  have hname : t.followParent? (p.join n) = .error .invalidName := by
    unfold followParent?
    rw [ht]
    dsimp only
    rw [stepsOf_join hn, List.getLast?_concat]
    dsimp only
    rw [if_pos hlong]
  exact absurd (herror _ hname) (by simp)

/-- **What is taken out behind a path** is no directory. -/
theorem of_withoutFile?_join (hn : IsName n) (hu : withoutFile? (p.join n) t = .ok u) :
    ∃ c, Reaches t p c ∧ t.isDirectoryAt (c ++ [n]) = false ∧ u = t.cut (c ++ [n]) := by
  unfold withoutFile? at hu
  cases hf : t.followParent? (p.join n) with
  | error e =>
    rw [hf] at hu
    exact absurd hu (by simp [bind, Except.bind])
  | ok r =>
    obtain ⟨-, c, hc, hr⟩ := of_followParent?_join hn hf
    rw [hf, hr] at hu
    dsimp only [bind, Except.bind] at hu
    split at hu
    next => exact absurd hu (by simp [throw, throwThe, MonadExceptOf.throw])
    next q hq =>
      split at hq
      · obtain rfl := Destination.found.inj hq
        split at hu
        next => exact absurd hu (by simp [throw, throwThe, MonadExceptOf.throw])
        next hdir => exact ⟨c, hc, by simpa using hdir, (Except.ok.inj hu).symm⟩
      · exact absurd hq (by simp)

/-- **Removing a file takes it out, if it is there.** -/
theorem Reaches.of_run_removeIfPresent (hr : Reaches t p c) (hn : IsName n)
    (hu : t.run (removeIfPresent (p.join n)) = (.ok (), u)) : Fits p n ∧
      (t.at? (c ++ [n]) = none ∧ u = t ∨
        t.isDirectoryAt (c ++ [n]) = false ∧ u = t.cut (c ++ [n])) := by
  have hf := run_editBy_ok hu
  have hfits : Fits p n := fits_of_withoutFile? hn fun e he => by
    rw [he] at hf
    cases e <;> first | rfl | exact absurd hf (by simp)
  refine ⟨hfits, ?_⟩
  split at hf
  next hnot =>
    obtain rfl := Except.ok.inj hf
    cases he : t.at? (c ++ [n]) with
    | none => exact .inl ⟨rfl, rfl⟩
    | some e =>
      -- An entry that is there is found, whatever it is.
      have hfound := followParent?_join hn hfits hr
      unfold withoutFile? at hnot
      rw [hfound, he] at hnot
      dsimp only [bind, Except.bind, Option.isSome] at hnot
      rw [if_pos rfl] at hnot
      dsimp only at hnot
      split at hnot
      · exact absurd hnot (by simp [throw, throwThe, MonadExceptOf.throw])
      · exact absurd hnot (by simp [pure, Except.pure])
  next =>
    obtain ⟨d, hd, hfree, rfl⟩ := of_withoutFile?_join hn hf
    obtain rfl := hd.unique hr
    exact .inr ⟨hfree, rfl⟩

namespace Ground

variable {ns : List String}

/-- Names behind a site's path reach no other directory. -/
theorem eq_of_reaches (h : Ground t p d) (hns : ∀ m ∈ ns, IsName m)
    (hc : Reaches t (QmlStubs.joins p ns) c) : c = d ++ ns := by
  obtain ⟨k, -, w, -⟩ := hc
  obtain ⟨m, -, w', -⟩ := h.reaches
  rw [startOf_joins p hns, coreSteps_joins h.direct.ne_empty hns] at w
  exact (h.walk_joins w' w).1

/-- **A file that was written lies where its names say.** -/
theorem of_run_write (h : Ground t p d) (hns : ∀ m ∈ ns, IsName m) (hn : IsName n)
    {content : ByteArray} (hu : t.run (write ((QmlStubs.joins p ns).join n) content) = (.ok (), u)) :
    Fits (QmlStubs.joins p ns) n ∧ t.isDirectoryAt (d ++ ns) = true ∧
      t.isDirectoryAt (d ++ ns ++ [n]) = false ∧
      ∃ x, u = t.put (d ++ ns ++ [n]) (.file content t.clock x) := by
  obtain ⟨hfits, c, hc, hfree⟩ := of_run_write_join hn hu
  obtain rfl := h.eq_of_reaches hns hc
  have hw : Writable t (d ++ ns ++ [n]) := by
    rw [List.append_assoc] at hfree ⊢
    exact h.writable (by simp) hfree
  obtain ⟨x, hx⟩ := run_write_join hn hfits hc hw content
  rw [hu] at hx
  exact ⟨hfits, hc.isDirectory, hfree, x, (Prod.mk.inj hx).2⟩

/-- **An edit that is refused changes nothing.** -/
theorem change_editBy {touched : Place → Prop} {f : FileTree → Except FileError FileTree}
    (h : Ground t p d) (hf : ∀ u, f t = .ok u → Change p d touched t u) :
    Change p d touched t (t.run (editBy f)).2 := by
  rw [run_editBy]
  cases hu : f t with
  | ok u => exact hf u hu
  | error e => exact .refl h

theorem change_write (h : Ground t p d) (hns : ∀ m ∈ ns, IsName m) (hn : IsName n)
    (content : ByteArray) :
    Change p d (· = d ++ ns ++ [n]) t (t.run (write ((QmlStubs.joins p ns).join n) content)).2 := by
  refine h.change_editBy fun u hu => ?_
  have hrun : t.run (write ((QmlStubs.joins p ns).join n) content) = (.ok (), u) := by
    unfold write
    rw [run_editBy, hu]
  obtain ⟨hfits, hdir, hfree, x, rfl⟩ := h.of_run_write hns hn hrun
  refine ⟨h.put hdir hn hfits.short hfree nofun, ?_, fun q hq => .inl ?_, fun q hq => .inl ?_,
    fun q time hq => ?_⟩
  · rw [List.append_assoc]
    exact Within.put (by simp) _
  · rw [at?_put (by simp), if_neg hq]
  · obtain ⟨time, htime⟩ := isDirectoryAt_iff.1 hq
    rw [at?_put (by simp)] at htime
    split at htime
    next => exact absurd htime (by simp)
    next => exact isDirectoryAt_iff.2 ⟨time, htime⟩
  · rw [at?_put (by simp), if_neg, hq]
    rintro rfl
    rw [isDirectoryAt_iff.2 ⟨time, hq⟩] at hfree
    exact absurd hfree (by simp)

/-- Taking a file out below a site. -/
theorem change_cut (h : Ground t p d) (hfree : t.isDirectoryAt (d ++ ns ++ [n]) = false) :
    Change p d (· = d ++ ns ++ [n]) t (t.cut (d ++ ns ++ [n])) := by
  have hat := h.isTree.at?_cut hfree
  refine ⟨?_, ?_, fun q hq => .inl (by rw [hat, if_neg hq]), fun q hq => .inl ?_,
    fun q time hq => ?_⟩
  · rw [List.append_assoc] at hfree ⊢
    exact h.cut (by simp) hfree
  · rw [List.append_assoc] at hfree ⊢
    exact Within.cut h.isTree (by simp) hfree
  · obtain ⟨time, htime⟩ := isDirectoryAt_iff.1 hq
    rw [hat] at htime
    split at htime
    next => exact absurd htime (by simp)
    next => exact isDirectoryAt_iff.2 ⟨time, htime⟩
  · rw [hat, if_neg, hq]
    rintro rfl
    rw [isDirectoryAt_iff.2 ⟨time, hq⟩] at hfree
    exact absurd hfree (by simp)

theorem withoutFile?_ok (h : Ground t p d) (hns : ∀ m ∈ ns, IsName m) (hn : IsName n)
    (hu : withoutFile? ((QmlStubs.joins p ns).join n) t = .ok u) :
    t.isDirectoryAt (d ++ ns ++ [n]) = false ∧ u = t.cut (d ++ ns ++ [n]) := by
  obtain ⟨c, hc, hcut⟩ := of_withoutFile?_join hn hu
  obtain rfl := h.eq_of_reaches hns hc
  exact hcut

/-- A file that is taken out may be named by another path to the directory. -/
theorem change_withoutFile? (h : Ground t p d) {r : Path} (hr : Ground t r d)
    (hns : ∀ m ∈ ns, IsName m) (hn : IsName n)
    (hu : withoutFile? ((QmlStubs.joins r ns).join n) t = .ok u) :
    Change p d (· = d ++ ns ++ [n]) t u := by
  obtain ⟨hfree, rfl⟩ := hr.withoutFile?_ok hns hn hu
  exact h.change_cut hfree

/-- **Removing a file leaves none**, and only at a path that can be used. -/
theorem of_run_removeIfPresent (h : Ground t p d) (hn : IsName n)
    (hdir : t.isDirectoryAt (d ++ ns) = true)
    (hu : t.run (removeIfPresent ((QmlStubs.joins p ns).join n)) = (.ok (), u)) :
    Change p d (· = d ++ ns ++ [n]) t u ∧ Fits (QmlStubs.joins p ns) n ∧
      u.at? (d ++ ns ++ [n]) = none ∧ ∀ q, t.at? q = none → u.at? q = none := by
  obtain ⟨hfits, ⟨hnone, rfl⟩ | ⟨hfree, rfl⟩⟩ :=
    (h.joins hdir).reaches.of_run_removeIfPresent hn hu
  · exact ⟨.refl h, hfits, hnone, fun _ => id⟩
  · have hat := h.isTree.at?_cut hfree
    refine ⟨h.change_cut hfree, hfits, by rw [hat, if_pos rfl], fun q hq => ?_⟩
    rw [hat, hq, ite_self]

/-- What is not there does not have to be removed. -/
theorem run_removeIfPresent_of_none (h : Ground t p d) (hn : IsName n)
    (hfits : Fits (QmlStubs.joins p ns) n) (hdir : t.isDirectoryAt (d ++ ns) = true)
    (hnone : t.at? (d ++ ns ++ [n]) = none) :
    t.run (removeIfPresent ((QmlStubs.joins p ns).join n)) = (.ok (), t) := by
  have hfree := followParent?_join hn hfits (h.joins hdir).reaches
  rw [hnone, Option.isSome_none, if_neg (by simp)] at hfree
  have hwithout : withoutFile? ((QmlStubs.joins p ns).join n) t = .error .notFound := by
    unfold withoutFile?
    rw [hfree]
    rfl
  unfold removeIfPresent
  rw [run_editBy, hwithout]

end Ground

/-! ## The entries at a place -/

/-- The entries of the types file at a place; none if there is no such file. -/
def typesAt (t : FileTree) (q : Place) : List TypesEntry :=
  match t.at? q with
  | some (.file content _ _) => (TypesFile.ofBytes? content).getD []
  | _ => []

/-- The bytes of the file at a place. -/
def contentAt? (t : FileTree) (q : Place) : Option ByteArray :=
  match t.at? q with
  | some (.file content _ _) => some content
  | _ => none

theorem contentAt?_of_at?_eq {q : Place} (h : u.at? q = t.at? q) :
    u.contentAt? q = t.contentAt? q := by
  unfold contentAt?
  rw [h]

theorem typesAt_eq (t : FileTree) (q : Place) :
    t.typesAt q = (t.contentAt? q).elim [] fun content => (TypesFile.ofBytes? content).getD [] := by
  unfold typesAt contentAt?
  cases t.at? q with
  | none => rfl
  | some e => cases e <;> rfl

theorem typesAt_of_none {q : Place} (h : t.at? q = none) : t.typesAt q = [] := by
  unfold typesAt
  rw [h]

theorem typesAt_put {q : Place} (hq : q ≠ []) (entries : List TypesEntry) (time : FileTime)
    (x : Bool) : (t.put q (.file (TypesFile.text entries).toUTF8 time x)).typesAt q = entries := by
  unfold typesAt
  rw [at?_put hq, if_pos rfl]
  dsimp only
  rw [TypesFile.ofBytes?_text, Option.getD_some]

/-- **A change that does not touch a types file leaves its entries.** -/
theorem Change.typesAt_eq {touched : Place → Prop} (h : Change p d touched t u) {q : Place}
    (hq : ¬ touched q) : u.typesAt q = t.typesAt q := by
  unfold typesAt
  rcases h.kept q hq with he | ⟨hnone, time, he⟩
  · rw [he]
  · rw [hnone, he]

end FileTree

end QmlStubs
