import QmlStubs.Discovery
import QmlStubs.Proofs.Steadiness

/-!
# The list of source files

What counts below an input directory are files, and a file has a canonical path. So only the search
for files can fail, and **the source files are what counts below one input directory after the
other**, as canonical paths and each once (`Discovery.sources_eq`).
-/

set_option autoImplicit false

namespace QmlStubs

open FileTree

theorem Path.same_iff {p q : Path} : p.same q = true ↔ p.components = q.components :=
  beq_iff_eq

namespace Discovery

variable {t : FileTree} {ignored ignore files found l m inDirs : List Path} {extension : String}
  {f g directory : Path} {q : Place}

/-! ## One after the other -/

section Mapping

variable {α β ε : Type} {action : α → Except ε β} {as : List α} {bs : List β}

theorem of_mapM_eq_ok (h : as.mapM action = .ok bs) :
    (∀ a ∈ as, ∃ b ∈ bs, action a = .ok b) ∧ ∀ b ∈ bs, ∃ a ∈ as, action a = .ok b := by
  induction as generalizing bs with
  | nil =>
    obtain rfl := Except.ok.inj h
    exact ⟨nofun, nofun⟩
  | cons a as ih =>
    rw [List.mapM_cons] at h
    cases ha : action a with
    | error e =>
      rw [ha] at h
      cases h
    | ok b =>
      cases has : as.mapM action with
      | error e =>
        rw [ha, has] at h
        cases h
      | ok bs' =>
        rw [ha, has] at h
        obtain rfl := Except.ok.inj h
        obtain ⟨hfrom, hto⟩ := ih has
        constructor
        · intro a' ha'
          rcases List.mem_cons.1 ha' with rfl | ha'
          · exact ⟨b, List.mem_cons_self .., ha⟩
          · obtain ⟨b', hb', heq⟩ := hfrom a' ha'
            exact ⟨b', List.mem_cons_of_mem _ hb', heq⟩
        · intro b' hb'
          rcases List.mem_cons.1 hb' with rfl | hb'
          · exact ⟨a, List.mem_cons_self .., ha⟩
          · obtain ⟨a', ha', heq⟩ := hto b' hb'
            exact ⟨a', List.mem_cons_of_mem _ ha', heq⟩

theorem exists_mapM_eq_ok (h : ∀ a ∈ as, ∃ b, action a = .ok b) : ∃ bs, as.mapM action = .ok bs := by
  induction as with
  | nil => exact ⟨[], rfl⟩
  | cons a as ih =>
    obtain ⟨⟨b, hb⟩, has⟩ := List.forall_mem_cons.1 h
    obtain ⟨bs, hbs⟩ := ih has
    exact ⟨b :: bs, by rw [List.mapM_cons, hb, hbs]; rfl⟩

theorem exists_of_mapM_eq_error {e : ε} (h : as.mapM action = .error e) :
    ∃ a ∈ as, action a = .error e := by
  induction as with
  | nil => cases h
  | cons a as ih =>
    rw [List.mapM_cons] at h
    cases ha : action a with
    | error e' =>
      rw [ha] at h
      obtain rfl := Except.error.inj h
      exact ⟨a, List.mem_cons_self .., ha⟩
    | ok b =>
      cases has : as.mapM action with
      | error e' =>
        rw [ha, has] at h
        obtain rfl := Except.error.inj h
        obtain ⟨a', ha', he⟩ := ih has
        exact ⟨a', List.mem_cons_of_mem _ ha', he⟩
      | ok bs =>
        rw [ha, has] at h
        cases h

end Mapping

/-! ## What counts below an input directory -/

theorem matchesIn_of_not_isDirectory (h : t.isDirectory directory = false) :
    matchesIn t ignored extension directory = .error (.missingDirectory directory) := by
  unfold matchesIn
  rw [h]
  rfl

theorem exists_place?_of_isDirectory (h : t.isDirectory directory = true) :
    ∃ q, t.place? directory = .ok q ∧ t.isDirectoryAt q = true := by
  obtain ⟨htext, q, hreaches⟩ := isDirectory_iff.1 h
  exact ⟨q, (reaches_iff htext).1 hreaches⟩

/-- What counts below a directory is a matter of what a search from its canonical path finds. -/
theorem matchesIn_of_place? (hplace : t.place? directory = .ok q)
    (hat : t.isDirectoryAt q = true) : matchesIn t ignored extension directory =
      match Glob.pathsBelow? t (pathOf q) (sourcePattern extension) with
      | none => .error .badPattern
      | some paths => .ok (paths.filter fun p => t.isFile p && !isIgnored ignored p) := by
  have hdir : t.isDirectory directory = true := by
    unfold isDirectory
    rw [hplace]
    exact hat
  have hcanonical : t.canonical? directory = .ok (pathOf q) := by
    unfold canonical?
    rw [hplace]
    rfl
  unfold matchesIn
  rw [hdir, hcanonical]
  cases hpaths : Glob.pathsBelow? t (pathOf q) (sourcePattern extension) with
  | none =>
    simp only [hpaths]
    rfl
  | some paths =>
    simp only [hpaths]
    rfl

/-- **What counts below an input directory**: what a search from its canonical path finds, if it is a
file and not ignored. -/
theorem exists_of_matchesIn (h : matchesIn t ignored extension directory = .ok found) :
    ∃ q paths, t.place? directory = .ok q ∧ t.isDirectoryAt q = true ∧
      Glob.pathsBelow? t (pathOf q) (sourcePattern extension) = some paths ∧
      found = paths.filter fun p => t.isFile p && !isIgnored ignored p := by
  cases hdir : t.isDirectory directory with
  | false =>
    rw [matchesIn_of_not_isDirectory hdir] at h
    cases h
  | true =>
    obtain ⟨q, hplace, hat⟩ := exists_place?_of_isDirectory hdir
    rw [matchesIn_of_place? hplace hat] at h
    cases hpaths : Glob.pathsBelow? t (pathOf q) (sourcePattern extension) with
    | none =>
      rw [hpaths] at h
      cases h
    | some paths =>
      rw [hpaths] at h
      exact ⟨q, paths, hplace, hat, hpaths, (Except.ok.inj h).symm⟩

theorem isFile_of_matchesIn (h : matchesIn t ignored extension directory = .ok found) :
    ∀ p ∈ found, t.isFile p = true := by
  obtain ⟨q, paths, -, -, -, rfl⟩ := exists_of_matchesIn h
  intro p hp
  exact (Bool.and_eq_true_iff.1 (List.mem_filter.1 hp).2).1

/-- A file has a canonical path. -/
theorem canonical?_of_isFile (h : t.isFile f = true) : t.canonical? f = .ok (t.canonicalOr f) := by
  unfold isFile at h
  split at h
  next place hplace =>
    rw [canonicalOr_of_place? hplace]
    unfold canonical?
    rw [hplace]
    rfl
  next => cases h

/-! ## Lists without repetitions -/

/-- Paths with those of a list behind them that are not there yet. -/
def extend (files l : List Path) : List Path :=
  l.foldl (fun files q => if files.any q.same then files else files ++ [q]) files

theorem extend_append : extend files (l ++ m) = extend (extend files l) m :=
  List.foldl_append

theorem extend_concat : extend files (l ++ [f]) =
    if (extend files l).any f.same then extend files l else extend files l ++ [f] := by
  rw [extend_append]
  rfl

theorem any_same_congr (h : f.components = g.components) : files.any f.same = files.any g.same := by
  unfold Path.same
  rw [h]

/-- **What a list adds is what it has by itself, less what is there.** -/
theorem extend_eq : extend files l = files ++ (extend [] l).filter fun f => !files.any f.same := by
  induction l using List.reverseRecOn with
  | nil => simp [extend]
  | append_singleton l f ih =>
    rw [extend_concat, extend_concat, ih, List.any_append]
    by_cases hfiles : files.any f.same = true
    · rw [hfiles, Bool.true_or, if_pos rfl]
      split
      · rfl
      · simp [hfiles]
    · have hthere : (((extend [] l).filter fun f => !files.any f.same).any f.same) =
          (extend [] l).any f.same := by
        rw [Bool.eq_iff_iff, List.any_eq_true, List.any_eq_true]
        constructor
        · rintro ⟨g, hg, hsame⟩
          exact ⟨g, (List.mem_filter.1 hg).1, hsame⟩
        · rintro ⟨g, hg, hsame⟩
          refine ⟨g, List.mem_filter.2 ⟨hg, ?_⟩, hsame⟩
          rw [← any_same_congr (Path.same_iff.1 hsame)]
          simpa using hfiles
      rw [hthere]
      simp only [Bool.not_eq_true] at hfiles
      rw [hfiles, Bool.false_or]
      split
      · rfl
      · rw [List.filter_append, List.append_assoc]
        simp [hfiles]

theorem mem_of_mem_extend (hf : f ∈ extend [] l) : f ∈ l := by
  induction l using List.reverseRecOn with
  | nil => exact hf
  | append_singleton l g ih =>
    rw [extend_concat] at hf
    split at hf
    · exact List.mem_append_left _ (ih hf)
    · rcases List.mem_append.1 hf with hf | hf
      · exact List.mem_append_left _ (ih hf)
      · exact List.mem_append_right _ hf

theorem any_extend (hf : f ∈ l) : (extend files l).any f.same = true := by
  induction l using List.reverseRecOn with
  | nil => exact absurd hf List.not_mem_nil
  | append_singleton l g ih =>
    rw [extend_concat]
    rcases List.mem_append.1 hf with hf | hf
    · split
      · exact ih hf
      · rw [List.any_append, ih hf, Bool.true_or]
    · obtain rfl := List.mem_singleton.1 hf
      split
      next hthere => exact hthere
      next => simp [Path.same]

/-- **No path is listed twice.** -/
theorem pairwise_extend (h : files.Pairwise fun f g => f.same g = false) :
    (extend files l).Pairwise fun f g => f.same g = false := by
  induction l using List.reverseRecOn with
  | nil => exact h
  | append_singleton l f ih =>
    rw [extend_concat]
    split
    next => exact ih
    next hnew =>
      refine List.pairwise_append.2 ⟨ih, List.pairwise_singleton .., fun g hg f' hf' => ?_⟩
      obtain rfl := List.mem_singleton.1 hf'
      rw [← Bool.not_eq_true, Path.same_iff]
      intro hsame
      exact hnew (List.any_eq_true.2 ⟨g, hg, Path.same_iff.2 hsame.symm⟩)

/-! ## From one input directory to the next -/

theorem addNew_eq (h : ∀ p ∈ found, t.isFile p = true) :
    addNew t files found = .ok (extend files (found.map t.canonicalOr)) := by
  induction found generalizing files with
  | nil => rfl
  | cons p found ih =>
    obtain ⟨hp, hfound⟩ := List.forall_mem_cons.1 h
    unfold addNew
    rw [canonical?_of_isFile hp]
    exact ih hfound

theorem foldlM_eq : inDirs.foldlM (fun files directory => do
      addNew t files (← matchesIn t ignored extension directory)) files =
    (inDirs.mapM (matchesIn t ignored extension)).map fun founds =>
      extend files (founds.flatten.map t.canonicalOr) := by
  induction inDirs generalizing files with
  | nil => rfl
  | cons directory inDirs ih =>
    rw [List.foldlM_cons, List.mapM_cons]
    cases hfound : matchesIn t ignored extension directory with
    | error e => rfl
    | ok found =>
      show (addNew t files found >>= _) = _
      rw [addNew_eq (isFile_of_matchesIn hfound)]
      show inDirs.foldlM _ (extend files (found.map t.canonicalOr)) = _
      rw [ih]
      cases inDirs.mapM (matchesIn t ignored extension) with
      | error e => rfl
      | ok founds =>
        show Except.ok _ = Except.ok (extend files ((found :: founds).flatten.map t.canonicalOr))
        rw [List.flatten_cons, List.map_append, extend_append]

/-- **The source files are what the input directories list**, without links, dots and repetitions. -/
theorem sources_eq : sources t inDirs ignore extension =
    (inDirs.mapM (matchesIn t (ignore.map t.canonicalOr) extension)).map fun founds =>
      extend [] (founds.flatten.map t.canonicalOr) :=
  foldlM_eq

/-- The source files can be listed if what counts can be found below every input directory. -/
theorem exists_of_sources (h : sources t inDirs ignore extension = .ok files) :
    ∃ founds, inDirs.mapM (matchesIn t (ignore.map t.canonicalOr) extension) = .ok founds ∧
      files = extend [] (founds.flatten.map t.canonicalOr) := by
  rw [sources_eq] at h
  cases hfounds : inDirs.mapM (matchesIn t (ignore.map t.canonicalOr) extension) with
  | error e =>
    rw [hfounds] at h
    cases h
  | ok founds =>
    rw [hfounds] at h
    exact ⟨founds, rfl, (Except.ok.inj h).symm⟩

theorem exists_matchesIn_of_sources (h : sources t inDirs ignore extension = .ok files) :
    ∀ directory ∈ inDirs, ∃ found,
      matchesIn t (ignore.map t.canonicalOr) extension directory = .ok found := by
  intro directory hdirectory
  obtain ⟨founds, hfounds, -⟩ := exists_of_sources h
  obtain ⟨found, -, hfound⟩ := (of_mapM_eq_ok hfounds).1 directory hdirectory
  exact ⟨found, hfound⟩

/-- **Every source file is the canonical path of something that counts below an input directory**, -/
theorem exists_found_of_mem_sources (h : sources t inDirs ignore extension = .ok files)
    (hf : f ∈ files) : ∃ directory ∈ inDirs, ∃ found,
      matchesIn t (ignore.map t.canonicalOr) extension directory = .ok found ∧
      ∃ r ∈ found, t.canonical? r = .ok f := by
  obtain ⟨founds, hfounds, rfl⟩ := exists_of_sources h
  obtain ⟨r, hr, rfl⟩ := List.mem_map.1 (mem_of_mem_extend hf)
  obtain ⟨found, hfound, hr⟩ := List.mem_flatten.1 hr
  obtain ⟨directory, hdirectory, hmatches⟩ := (of_mapM_eq_ok hfounds).2 found hfound
  exact ⟨directory, hdirectory, found, hmatches, r, hr,
    canonical?_of_isFile (isFile_of_matchesIn hmatches r hr)⟩

/-- and **all that counts is listed**. -/
theorem any_sources (h : sources t inDirs ignore extension = .ok files)
    (hdirectory : directory ∈ inDirs)
    (hfound : matchesIn t (ignore.map t.canonicalOr) extension directory = .ok found)
    {r : Path} (hr : r ∈ found) (hf : t.canonical? r = .ok f) : files.any f.same = true := by
  obtain ⟨founds, hfounds, rfl⟩ := exists_of_sources h
  obtain ⟨found', hmem, hfound'⟩ := (of_mapM_eq_ok hfounds).1 directory hdirectory
  obtain rfl := Except.ok.inj (hfound.symm.trans hfound')
  have hfile := canonical?_of_isFile (isFile_of_matchesIn hfound r hr)
  obtain rfl := Except.ok.inj (hf.symm.trans hfile)
  exact any_extend (List.mem_map_of_mem (List.mem_flatten_of_mem hmem hr))

/-- No file is listed twice. -/
theorem pairwise_sources (h : sources t inDirs ignore extension = .ok files) :
    files.Pairwise fun f g => f.same g = false := by
  obtain ⟨founds, -, rfl⟩ := exists_of_sources h
  exact pairwise_extend .nil

end Discovery

end QmlStubs
