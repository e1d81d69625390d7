import QmlStubs.Proofs.Globbing

/-!
# Files outside of a site

What is written below a site may be in the way of a path that passes through it, but not of the path
of a place outside: the directories above such a place are outside as well. So **a file outside of a
site has its own path, whatever is below the site** (`Ground.canonicalOr_pathOf`).
-/

set_option autoImplicit false

namespace QmlStubs.FileTree

variable {t v : FileTree} {p : Path} {d q : Place}

/-! ## Where paths lead -/

/-- A walk ends at an entry that is no link, if it starts at one. -/
theorem Walk.exists_plain (ht : IsTree t) {c e : Place} {steps rest : List Step} {k : Nat}
    (w : Walk t c steps k e rest) (hc : ∃ x, t.at? c = some x ∧ IsPlain x) :
    ∃ x, t.at? e = some x ∧ IsPlain x := by
  have hdirectory : ∀ {c : Place}, t.isDirectoryAt c = true → ∃ x, t.at? c = some x ∧ IsPlain x := by
    intro c hdir
    obtain ⟨time, htime⟩ := isDirectoryAt_iff.1 hdir
    exact ⟨_, htime, isPlain_directory time⟩
  induction w with
  | refl => exact hc
  | stay _ _ ih => exact ih hc
  | @up c _ _ _ _ h _ ih =>
    refine ih (hdirectory ?_)
    rcases List.eq_nil_or_concat' c with rfl | ⟨init, n, rfl⟩
    · exact h
    · obtain ⟨time, htime⟩ := isDirectoryAt_iff.1 h
      rw [List.dropLast_concat]
      exact ht.above init n _ htime
  | down _ _ he hplain _ ih => exact ih ⟨_, he, hplain⟩
  | link h _ _ _ ih =>
    refine ih (hdirectory ?_)
    unfold linkStart
    split
    · exact isDirectoryAt_root
    · exact h

/-- What a path leads to is an entry and no link. -/
theorem IsTree.exists_of_place? (ht : IsTree t) {x : Path} (hx : t.place? x = .ok q) :
    ∃ e, t.at? q = some e ∧ IsPlain e := by
  obtain ⟨-, k, -, w⟩ := place?_eq_ok.1 hx
  have hstart : t.isDirectoryAt (t.startOf x) = true := by
    unfold startOf
    split
    · exact isDirectoryAt_root
    · exact ht.current
  obtain ⟨time, htime⟩ := isDirectoryAt_iff.1 hstart
  exact w.exists_plain ht ⟨_, htime, isPlain_directory time⟩

theorem canonicalOr_of_place? {x : Path} (hx : t.place? x = .ok q) : t.canonicalOr x = pathOf q := by
  unfold canonicalOr canonical?
  rw [hx]
  rfl

theorem canonicalOr_of_error {x : Path} {e : FileError} (hx : t.place? x = .error e) :
    t.canonicalOr x = x := by
  unfold canonicalOr canonical?
  rw [hx]
  rfl

/-! ## Places outside -/

/-- A place is not below another one. -/
def IsOutside (d q : Place) : Prop := ∀ ns, ns ≠ [] → q ≠ d ++ ns

/-- What is above a place outside is outside. -/
theorem IsOutside.above {b : List String} (h : IsOutside d (q ++ b)) : IsOutside d q := by
  rintro ns hne rfl
  exact h (ns ++ b) (by simp [hne]) (List.append_assoc ..)

/-- The path of names below the root is that of their place. -/
theorem joins_root (hne : q ≠ []) (hq : ∀ n ∈ q, IsName n) : joins ⟨"/"⟩ q = pathOf q := by
  have htext : (joins ⟨"/"⟩ q).text = (pathOf q).text := by
    refine String.toList_injective ?_
    have hne' : q.map String.toList ≠ [] := by simpa using hne
    rw [Glob.text_joins (by decide) hne hq]
    unfold pathOf Text.joinStrings
    rw [String.toList_append, String.toList_ofList, String.toList_ofList]
    have hflat := Glob.slash_joinWith hne'
    rw [List.flatMap_map] at hflat
    exact hflat.symm
  cases hjoins : joins ⟨"/"⟩ q
  rw [hjoins] at htext
  exact congrArg Path.mk htext

/-- Names behind the path of a place make the path of the place with the names. -/
theorem joins_pathOf {ns : List String} (hq : ∀ n ∈ q, IsName n) (hne : ns ≠ [])
    (hns : ∀ n ∈ ns, IsName n) : joins (pathOf q) ns = pathOf (q ++ ns) := by
  have hall : ∀ n ∈ q ++ ns, IsName n := fun n hn => (List.mem_append.1 hn).elim (hq n) (hns n)
  rw [← joins_root (by simp [hne]) hall]
  by_cases hroot : q = []
  · subst hroot
    rfl
  · rw [← joins_root hroot hq, joins_append]

theorem isAbsolute_pathOf (q : Place) : (pathOf q).isAbsolute = true := by
  simp [Path.isAbsolute, pathOf]

theorem text_pathOf_ne_empty (q : Place) : (pathOf q).text ≠ "" :=
  text_ne_empty_of_isAbsolute (isAbsolute_pathOf q)

/-- The path of a place has its names. -/
theorem components_pathOf (hq : ∀ n ∈ q, IsName n) :
    (pathOf q).components = .root :: q.map .name := by
  by_cases hne : q = []
  · subst hne
    decide
  · rw [← joins_root hne hq, components_joins _ hq]
    rfl

theorem isDirect_pathOf (hq : ∀ n ∈ q, IsName n) : (pathOf q).IsDirect := by
  refine isDirect_of_isAbsolute (isAbsolute_iff_components.2 ?_)
  rw [components_pathOf hq]
  rfl

theorem pathOf_injective {r : Place} (hq : ∀ n ∈ q, IsName n) (hr : ∀ n ∈ r, IsName n)
    (h : (pathOf q).components = (pathOf r).components) : q = r := by
  rw [components_pathOf hq, components_pathOf hr] at h
  exact List.map_injective_iff.2 (fun a b hab => Component.name.inj hab) (List.cons.inj h).2

/-- Every name of a place leads from one directory to the next. -/
structure LeadsDown (t : FileTree) (q : Place) : Prop where
  named : ∀ n ∈ q, IsName n ∧ IsShort n
  directory : ∀ a n b, q = a ++ n :: b → t.isDirectoryAt a = true
  plain : ∀ a n b, q = a ++ n :: b → ∃ e, t.at? (a ++ [n]) = some e ∧ IsPlain e

namespace LeadsDown

/-- A walk along the names of a place takes no link. -/
theorem walk (h : LeadsDown t q) : Walk t [] (q.map .down) 0 q [] := by
  have hrest : ∀ b a, q = a ++ b → Walk t a (b.map .down) 0 q [] := by
    intro b
    induction b with
    | nil =>
      rintro a rfl
      rw [List.append_nil]
      exact .refl a []
    | cons n b ih =>
      intro a hq
      obtain ⟨e, he, hplain⟩ := h.plain a n b hq
      exact .down (h.directory a n b hq) (h.named n (by simp [hq])).2 he hplain
        (ih (a ++ [n]) (by rw [hq, List.append_assoc]; rfl))
  exact hrest q [] rfl

/-- The path of a place that names lead to leads there. -/
theorem place?_pathOf (h : LeadsDown t q) (htext : textError? (pathOf q) = none) :
    t.place? (pathOf q) = .ok q := by
  by_cases hne : q = []
  · subst hne
    have hsteps : stepsOf (pathOf []) = [.stay] := by decide
    refine place?_eq_ok.2 ⟨htext, 0, Nat.zero_le _, ?_⟩
    rw [hsteps]
    exact .stay rfl (.refl ..)
  · have hnames : ∀ n ∈ q, IsName n := fun n hn => (h.named n hn).1
    have hsteps : stepsOf (pathOf q) = q.map .down := by
      rw [← joins_root hne hnames, stepsOf_joins (by decide) hne hnames]
      rfl
    have hstart : t.startOf (pathOf q) = [] :=
      by rw [← joins_root hne hnames, startOf_joins _ hnames]; rfl
    refine place?_eq_ok.2 ⟨htext, 0, Nat.zero_le _, ?_⟩
    rw [hsteps, hstart]
    exact h.walk

/-- **The path of a place that names lead to is its own canonical path.** -/
theorem canonicalOr_pathOf (h : LeadsDown t q) : t.canonicalOr (pathOf q) = pathOf q := by
  cases htext : textError? (pathOf q) with
  | some e =>
    unfold canonicalOr canonical? place? follow?
    rw [htext]
    rfl
  | none => exact canonicalOr_of_place? (h.place?_pathOf htext)

/-- A path whose components are those of such a place leads nowhere else. -/
theorem eq_of_place? (h : LeadsDown t q) {x : Path} {r : Place}
    (hx : x.components = (pathOf q).components) (hr : t.place? x = .ok r) : r = q := by
  have hnames : ∀ n ∈ q, IsName n := fun n hn => (h.named n hn).1
  rw [components_pathOf hnames] at hx
  have hdirect : x.IsDirect := by
    refine ⟨(textError?_eq_none.1 (place?_eq_ok.1 hr).1).2.1, ?_⟩
    rw [hx]
    simp
  have habs : x.isAbsolute = true := isAbsolute_iff_components.2 (by rw [hx]; rfl)
  -- The dots of the path change nothing.
  obtain ⟨-, k, -, w⟩ := place?_eq_ok.1 hr
  have hmoves := moves_components hdirect
  rw [hx] at hmoves
  have hdowns : (stepsOf x).filter (· ≠ .stay) = q.map .down := by
    have hcore : (stepsOf x).filter (· ≠ .stay) = (coreSteps x).filter (· ≠ .stay) := by
      rw [stepsOf_eq, List.filter_append]
      split <;> simp
    have hnone : moveOf? .root = none := rfl
    have hdown : moveOf? ∘ Component.name = some ∘ Step.down := rfl
    rw [hcore, ← hmoves, List.filterMap_cons_none hnone, List.filterMap_map, hdown,
      List.filterMap_eq_map]
  have wmoves := w.drop_stays
  rw [hdowns, startOf_absolute habs] at wmoves
  exact wmoves.unique h.walk

/-- Names that lead to a place outside lead there in every tree that differs below alone. -/
theorem of_within (h : LeadsDown t q) (hq : IsOutside d q) (hv : Within d t v) : LeadsDown v q where
  named := h.named
  directory a n b he := by
    obtain ⟨time, htime⟩ := isDirectoryAt_iff.1 (h.directory a n b he)
    have hout : IsOutside d a := IsOutside.above (he ▸ hq)
    exact isDirectoryAt_iff.2 ⟨time, (hv.same a hout).trans htime⟩
  plain a n b he := by
    obtain ⟨e, hat, hplain⟩ := h.plain a n b he
    have hout : IsOutside d (a ++ [n]) :=
      IsOutside.above (q := a ++ [n]) (b := b) (by rw [List.append_assoc]; exact he ▸ hq)
    exact ⟨e, (hv.same _ hout).trans hat, hplain⟩

end LeadsDown

/-- The names of an entry that is no link lead to it. -/
theorem IsTree.leadsDown (ht : IsTree t)
    (hnamed : ∀ q n e, t.at? (q ++ [n]) = some e → IsName n ∧ IsShort n) {e : Entry}
    (he : t.at? q = some e) (hplain : IsPlain e) : LeadsDown t q := by
  have hsome : (t.at? q).isSome = true := by rw [he]; rfl
  have hdirectory : ∀ a n b, q = a ++ n :: b → t.isDirectoryAt a = true := by
    intro a n b hq
    cases hdir : t.isDirectoryAt a with
    | true => rfl
    | false =>
      rw [hq, ht.at?_below hdir (by simp)] at hsome
      exact absurd hsome (by simp)
  have hat : ∀ a n b, q = a ++ n :: b → ∃ e, t.at? (a ++ [n]) = some e ∧ IsPlain e := by
    intro a n b hq
    cases b with
    | nil => exact ⟨e, hq ▸ he, hplain⟩
    | cons m b =>
      have hdir := hdirectory (a ++ [n]) m b (by rw [hq, List.append_assoc]; rfl)
      obtain ⟨time, htime⟩ := isDirectoryAt_iff.1 hdir
      exact ⟨_, htime, isPlain_of_isDirectoryAt hdir htime⟩
  refine ⟨fun n hn => ?_, hdirectory, hat⟩
  obtain ⟨a, b, rfl⟩ := List.append_of_mem hn
  obtain ⟨e', he', -⟩ := hat a n b rfl
  exact hnamed a n e' he'

theorem Ground.leadsDown (h : Ground t p d) {e : Entry} (he : t.at? q = some e) (hplain : IsPlain e) :
    LeadsDown t q := h.isTree.leadsDown h.named he hplain

/-- **A file outside of a site has its own path, whatever is below the site.** -/
theorem Ground.canonicalOr_pathOf (h : Ground t p d) {e : Entry} (he : t.at? q = some e)
    (hplain : IsPlain e) (hout : IsOutside d q) (hv : Within d t v) :
    v.canonicalOr (pathOf q) = pathOf q :=
  ((h.leadsDown he hplain).of_within hout hv).canonicalOr_pathOf

end QmlStubs.FileTree
