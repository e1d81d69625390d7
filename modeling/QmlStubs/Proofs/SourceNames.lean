import QmlStubs.ModuleName
import QmlStubs.Proofs.Components

/-!
# From a module name back to the file

A file is named by the names between its root and itself and by its own name without the extension,
and `__init__` files by the directory they are in. Nothing else is lost:

> **a name leads back to the file, up to the choice between a module and a package**
> (`ModuleName.names_lead_back`), once the root and the extension are known.

The root is the one with the most components that the file is below. Roots with equally many
components are the same directory (`IsLongestRoot.components_eq`), so their order does not matter and
the others do not either (`ofFile_of_isLongestRoot`).
-/

set_option autoImplicit false

namespace QmlStubs

namespace Path

/-! ## Stem and extension -/

/-- What follows the last dot of a file name, if its stem ends there. -/
def extension? (name : String) : Option String :=
  let cs := name.toList
  let before := (cs.reverse.dropWhile (· ≠ '.')).drop 1
  if before.isEmpty then none else some (String.ofList (cs.reverse.takeWhile (· ≠ '.')).reverse)

/-- A stem with an extension. -/
def withExtension (stem : String) : Option String → String
  | none => stem
  | some e => stem ++ "." ++ e

/-- The characters up to the last dot, if there is one. -/
theorem dropWhile_reverse_cases (cs : List Char) : (cs.reverse.dropWhile (· ≠ '.')).drop 1 = [] ∨
    cs = ((cs.reverse.dropWhile (· ≠ '.')).drop 1).reverse ++
      '.' :: (cs.reverse.takeWhile (· ≠ '.')).reverse := by
  have hsplit := List.takeWhile_append_dropWhile (p := (· ≠ '.')) (l := cs.reverse)
  cases hdrop : cs.reverse.dropWhile (· ≠ '.') with
  | nil => exact .inl rfl
  | cons c rest =>
    have hhead := List.head?_dropWhile_not (· ≠ '.') cs.reverse
    rw [hdrop] at hhead
    obtain rfl : c = '.' := by simpa using hhead
    rw [hdrop] at hsplit
    have hback := congrArg List.reverse hsplit
    rw [List.reverse_reverse, List.reverse_append, List.reverse_cons, List.append_assoc] at hback
    exact .inr hback.symm

/-- **A file name is its stem with its extension.** -/
theorem withExtension_stem (name : String) : withExtension (stem name) (extension? name) = name := by
  unfold stem extension?
  dsimp only
  split
  next => rfl
  next hbefore =>
    have hback := (dropWhile_reverse_cases name.toList).resolve_left (by simpa using hbefore)
    apply String.toList_injective
    unfold withExtension
    dsimp only
    rw [String.toList_append, String.toList_append, String.toList_ofList, String.toList_ofList,
      List.append_assoc, String.toList_ofList]
    exact hback.symm

/-- The extension of a path's file name. -/
def fileExtension? (p : Path) : Option String := p.fileName?.bind extension?

end Path

namespace ModuleName

variable {roots roots' : List Path} {file file' r r' : Path} {n : String} {parts : List String}

/-! ## The root of a file -/

/-- A root that a file is below, with no fewer components than the other ones it is below. -/
structure IsLongestRoot (roots : List Path) (file r : Path) : Prop where
  mem : r ∈ roots
  below : file.isBelow r = true
  longest : ∀ r' ∈ roots, file.isBelow r' = true → r'.components.length ≤ r.components.length

instance (roots : List Path) (file r : Path) : Decidable (IsLongestRoot roots file r) :=
  decidable_of_iff (r ∈ roots ∧ file.isBelow r = true ∧
      ∀ r' ∈ roots, file.isBelow r' = true → r'.components.length ≤ r.components.length)
    ⟨fun h => ⟨h.1, h.2.1, h.2.2⟩, fun h => ⟨h.mem, h.below, h.longest⟩⟩

/-- Going through roots keeps a longest one. -/
theorem exists_foldl_longer (b : Path) (l : List Path) :
    ∃ r, l.foldl longer (some b) = some r ∧ (r = b ∨ r ∈ l) ∧
      ∀ r' ∈ b :: l, r'.components.length ≤ r.components.length := by
  induction l generalizing b with
  | nil => exact ⟨b, rfl, .inl rfl, by simp⟩
  | cons x l ih =>
    rw [List.foldl_cons]
    unfold longer
    dsimp only
    -- What is given up here has no more components than what goes on, so the bound covers it.
    split
    next hlt =>
      obtain ⟨r, hr, hmem, hmax⟩ := ih b
      refine ⟨r, hr, hmem.imp_right (List.mem_cons_of_mem _), ?_⟩
      obtain ⟨hb, hl⟩ := List.forall_mem_cons.1 hmax
      exact List.forall_mem_cons.2 ⟨hb, List.forall_mem_cons.2 ⟨by omega, hl⟩⟩
    next hle =>
      obtain ⟨r, hr, hmem, hmax⟩ := ih x
      refine ⟨r, hr, .inr (hmem.elim (fun h => h ▸ List.mem_cons_self ..)
        (List.mem_cons_of_mem _)), ?_⟩
      obtain ⟨hx, hl⟩ := List.forall_mem_cons.1 hmax
      exact List.forall_mem_cons.2 ⟨by omega, List.forall_mem_cons.2 ⟨hx, hl⟩⟩

/-- **The root of a file is a longest one**, and there is one if the file is below any. -/
theorem isLongestRoot_of_longestRoot? (h : longestRoot? roots file = some r) :
    IsLongestRoot roots file r := by
  unfold longestRoot? at h
  cases hl : roots.filter fun r => file.isBelow r with
  | nil =>
    rw [hl] at h
    exact absurd h nofun
  | cons b l =>
    rw [hl] at h
    obtain ⟨r', hr', hmem, hmax⟩ := exists_foldl_longer b l
    obtain rfl := Option.some.inj (hr'.symm.trans h)
    rw [← List.mem_cons, ← hl] at hmem
    obtain ⟨hr, hbelow⟩ := List.mem_filter.1 hmem
    refine ⟨hr, hbelow, fun x hx hxbelow => hmax x ?_⟩
    rw [← hl]
    exact List.mem_filter.2 ⟨hx, hxbelow⟩

theorem exists_longestRoot? (hr : r ∈ roots) (hbelow : file.isBelow r = true) :
    ∃ r', longestRoot? roots file = some r' := by
  unfold longestRoot?
  cases hl : roots.filter fun r => file.isBelow r with
  | nil =>
    have hmem : r ∈ roots.filter fun r => file.isBelow r := List.mem_filter.2 ⟨hr, hbelow⟩
    rw [hl] at hmem
    exact absurd hmem List.not_mem_nil
  | cons b l =>
    obtain ⟨r', hr', -⟩ := exists_foldl_longer b l
    exact ⟨r', hr'⟩

/-- **Longest roots are the same directory.** -/
theorem IsLongestRoot.components_eq (h : IsLongestRoot roots file r)
    (h' : IsLongestRoot roots file r') : r.components = r'.components := by
  have hprefix := List.isPrefixOf_iff_prefix.1 h.below
  have hprefix' := List.isPrefixOf_iff_prefix.1 h'.below
  have hle := h'.longest r h.mem h.below
  have hle' := h.longest r' h'.mem h'.below
  exact (List.prefix_of_prefix_length_le hprefix hprefix' hle).eq_of_length (by omega)

/-- **Only the longest root counts.** -/
theorem ofFile_of_isLongestRoot (h : IsLongestRoot roots file r) :
    ofFile roots file = ofFile [r] file := by
  have hself : ∀ l, IsLongestRoot l file r → (longestRoot? l file).bind file.relativeTo? =
      file.relativeTo? r := by
    intro l hl
    obtain ⟨r', hr'⟩ := exists_longestRoot? hl.mem hl.below
    have hsame := (isLongestRoot_of_longestRoot? hr').components_eq hl
    rw [hr', Option.bind_some]
    unfold Path.relativeTo?
    rw [hsame]
  have hone : IsLongestRoot [r] file r := ⟨List.mem_singleton_self r, h.below, by simp⟩
  unfold ofFile
  rw [hself roots h, hself [r] hone]

/-- **The order of the roots does not matter**, and neither does how often they are given. -/
theorem ofFile_congr (h : ∀ r, r ∈ roots' ↔ r ∈ roots) : ofFile roots' file = ofFile roots file := by
  by_cases hbelow : ∃ r ∈ roots, file.isBelow r = true
  · obtain ⟨r, hr, hr'⟩ := hbelow
    obtain ⟨top, htop⟩ := exists_longestRoot? hr hr'
    have hroots := isLongestRoot_of_longestRoot? htop
    have hroots' : IsLongestRoot roots' file top :=
      ⟨(h top).2 hroots.mem, hroots.below, fun x hx => hroots.longest x ((h x).1 hx)⟩
    rw [ofFile_of_isLongestRoot hroots, ofFile_of_isLongestRoot hroots']
  · -- A file below no root has no name in either list, and the message shows the file alone.
    have hnone : ∀ l : List Path, (∀ r ∈ l, r ∈ roots) → longestRoot? l file = none := by
      intro l hl
      refine Option.eq_none_iff_forall_ne_some.2 fun top htop => hbelow ?_
      have hlongest := isLongestRoot_of_longestRoot? htop
      exact ⟨top, hl top hlongest.mem, hlongest.below⟩
    unfold ofFile
    rw [hnone roots' fun r hr => (h r).1 hr, hnone roots fun _ hr => hr]

/-! ## The parts of a name -/

theorem nameOf?_eq_some {c : Component} : nameOf? c = some n ↔ c = .name n := by
  cases c <;> simp [nameOf?]

theorem mapM_nameOf?_eq_some {cs : List Component} {ns : List String} :
    cs.mapM nameOf? = some ns ↔ cs = ns.map .name := by
  induction cs generalizing ns with
  | nil => cases ns <;> simp
  | cons c cs ih =>
    rw [List.mapM_cons]
    constructor
    · intro h
      obtain ⟨x, hx, h'⟩ := Option.bind_eq_some_iff.1 h
      obtain ⟨ms, hms, hcons⟩ := Option.bind_eq_some_iff.1 h'
      obtain rfl := Option.some.inj hcons
      rw [nameOf?_eq_some.1 hx, ih.1 hms, List.map_cons]
    · intro h
      obtain ⟨x, ms, rfl, hx, hms⟩ := List.map_eq_cons_iff.1 h.symm
      refine Option.bind_eq_some_iff.2 ⟨x, nameOf?_eq_some.2 hx.symm, ?_⟩
      exact Option.bind_eq_some_iff.2 ⟨ms, ih.2 hms.symm, rfl⟩

/-- **What has a name**: names down to a file name, whose parts are not empty and have no dots. -/
theorem parts?_eq_some_iff {relative : List Component} : parts? relative = some parts ↔
    ∃ packages f, relative = packages.map .name ++ [.name f] ∧
      parts = (if Path.stem f = "__init__" then packages else packages ++ [Path.stem f]) ∧
      parts ≠ [] ∧ ∀ part ∈ parts, part ≠ "" ∧ '.' ∉ part.toList := by
  have hguard : ∀ l : List String, (l.isEmpty || l.any fun p => p.isEmpty || p.toList.contains '.') =
      false ↔ l ≠ [] ∧ ∀ part ∈ l, part ≠ "" ∧ '.' ∉ part.toList := by
    intro l
    simp
  unfold parts?
  constructor
  · intro h
    obtain ⟨packages, hpackages, h'⟩ := Option.bind_eq_some_iff.1 h
    obtain ⟨last, hlast, h''⟩ := Option.bind_eq_some_iff.1 h'
    obtain ⟨f, hf, hparts⟩ := Option.bind_eq_some_iff.1 h''
    obtain ⟨init, hinit⟩ := List.getLast?_eq_some_iff.1 hlast
    rw [hinit, List.dropLast_concat] at hpackages
    dsimp only at hparts
    generalize hnamed : (if Path.stem f = "__init__" then packages else packages ++ [Path.stem f]) =
      named at hparts
    split at hparts
    next => cases hparts
    next hok =>
      obtain rfl := Option.some.inj hparts
      refine ⟨packages, f, ?_, hnamed.symm, (hguard _).1 (Bool.eq_false_iff.2 hok)⟩
      rw [hinit, mapM_nameOf?_eq_some.1 hpackages, nameOf?_eq_some.1 hf]
  · rintro ⟨packages, f, rfl, hparts, hok⟩
    have hpackages := mapM_nameOf?_eq_some.2 (Eq.refl (packages.map Component.name))
    rw [List.dropLast_concat, List.getLast?_concat, hpackages]
    simp only [Option.bind_eq_bind, Option.bind_some, nameOf?]
    rw [← hparts, if_neg (by rw [(hguard parts).2 hok]; simp)]

/-! ## Back to the file -/

/-- The file of a module: its name below a root, with an extension. -/
def IsModuleFile (r : Path) (parts : List String) (extension : Option String) (file : Path) : Prop :=
  ∃ packages last, parts = packages ++ [last] ∧
    file.components =
      r.components ++ packages.map .name ++ [.name (Path.withExtension last extension)]

/-- The file of a package: an `__init__` file in the directory with its name. -/
def IsPackageFile (r : Path) (parts : List String) (extension : Option String) (file : Path) : Prop :=
  file.components =
    r.components ++ parts.map .name ++ [.name (Path.withExtension "__init__" extension)]

instance (r : Path) (parts : List String) (extension : Option String) (file : Path) :
    Decidable (IsPackageFile r parts extension file) :=
  inferInstanceAs (Decidable (file.components =
    r.components ++ parts.map .name ++ [.name (Path.withExtension "__init__" extension)]))

theorem IsModuleFile.same {extension : Option String} (h : IsModuleFile r parts extension file)
    (h' : IsModuleFile r parts extension file') : file.same file' = true := by
  obtain ⟨packages, last, rfl, hfile⟩ := h
  obtain ⟨packages', last', hparts, hfile'⟩ := h'
  obtain ⟨rfl, hlast⟩ := List.append_inj' hparts rfl
  obtain rfl := List.singleton_inj.1 hlast
  exact beq_iff_eq.2 (hfile.trans hfile'.symm)

theorem IsPackageFile.same {extension : Option String} (h : IsPackageFile r parts extension file)
    (h' : IsPackageFile r parts extension file') : file.same file' = true :=
  beq_iff_eq.2 (Eq.trans h (Eq.symm h'))

/-- **What lies below the longest root has the name that its parts make.** -/
theorem ofFile_eq_ok_iff (hr : IsLongestRoot roots file r) : ofFile roots file = .ok n ↔
    ∃ relative parts, file.components = r.components ++ relative ∧ parts? relative = some parts ∧
      Text.joinStrings '.' parts = n := by
  have hlongest : longestRoot? [r] file = some r := by
    unfold longestRoot?
    rw [List.filter_cons_of_pos hr.below]
    rfl
  rw [ofFile_of_isLongestRoot hr]
  unfold ofFile
  rw [hlongest, Option.bind_some]
  constructor
  · intro h
    split at h
    next => cases h
    next relative hrelative =>
      split at h
      next => cases h
      next parts hparts =>
        exact ⟨relative, parts, Path.dropComponents?_eq_some_iff.1 hrelative, hparts,
          Except.ok.inj h⟩
  · rintro ⟨relative, parts, hfile, hparts, hn⟩
    have hrelative : file.relativeTo? r = some relative := Path.dropComponents?_eq_some_iff.2 hfile
    rw [hrelative]
    dsimp only
    rw [hparts, ← hn]

/-- A name is made of parts that are not empty, and they lead back to the file. -/
theorem isModuleFile_or_isPackageFile (h : ofFile roots file = .ok n)
    (hr : IsLongestRoot roots file r) : (∀ part ∈ Text.splitString '.' n, part ≠ "") ∧
      (IsModuleFile r (Text.splitString '.' n) file.fileExtension? file ∨
        IsPackageFile r (Text.splitString '.' n) file.fileExtension? file) := by
  obtain ⟨relative, parts, hfile, hparts, rfl⟩ := (ofFile_eq_ok_iff hr).1 h
  obtain ⟨packages, f, rfl, hnamed, hne, hok⟩ := parts?_eq_some_iff.1 hparts
  rw [← List.append_assoc] at hfile
  have hextension : file.fileExtension? = Path.extension? f := by
    unfold Path.fileExtension?
    rw [Path.fileName?_eq_some_iff.2 ⟨_, hfile⟩, Option.bind_some]
  have hback := Path.withExtension_stem f
  rw [Text.splitString_joinStrings_of_not_mem hne fun part hpart => (hok part hpart).2, hextension]
  refine ⟨fun part hpart => (hok part hpart).1, ?_⟩
  split at hnamed
  next hinit =>
    rw [hinit] at hback
    refine .inr ?_
    unfold IsPackageFile
    rw [hfile, hback, hnamed]
  next => exact .inl ⟨packages, Path.stem f, hnamed, by rw [hfile, hback]⟩

/-- **A name leads back to its file.** Below the longest root of the file lie the parts of its name,
none of them empty, and the last one carries the extension, or an `__init__` file does that lies
below all of them. So two files with one name, longest root and extension are the same, or one is a
module and the other one a package. The roots count as a set. -/
theorem names_lead_back (roots : List Path) :
    (∀ file n, ofFile roots file = .ok n → ∃ r, IsLongestRoot roots file r) ∧
    (∀ file n r, ofFile roots file = .ok n → IsLongestRoot roots file r →
      (∀ part ∈ Text.splitString '.' n, part ≠ "") ∧
        (IsModuleFile r (Text.splitString '.' n) file.fileExtension? file ∨
          IsPackageFile r (Text.splitString '.' n) file.fileExtension? file)) ∧
    (∀ file file' n r, ofFile roots file = .ok n → ofFile roots file' = .ok n →
      IsLongestRoot roots file r → IsLongestRoot roots file' r →
      file.fileExtension? = file'.fileExtension? →
        file.same file' = true ∨
        (IsModuleFile r (Text.splitString '.' n) file.fileExtension? file ∧
          IsPackageFile r (Text.splitString '.' n) file.fileExtension? file') ∨
        (IsPackageFile r (Text.splitString '.' n) file.fileExtension? file ∧
          IsModuleFile r (Text.splitString '.' n) file.fileExtension? file')) ∧
    ∀ roots', (∀ r, r ∈ roots' ↔ r ∈ roots) → ∀ file, ofFile roots' file = ofFile roots file := by
  refine ⟨fun file n h => ?_, fun file n r h hr => isModuleFile_or_isPackageFile h hr,
    fun file file' n r h h' hr hr' hextension => ?_, fun roots' hsame file => ofFile_congr hsame⟩
  · cases hroot : longestRoot? roots file with
    | none =>
      unfold ofFile at h
      rw [hroot] at h
      cases h
    | some r => exact ⟨r, isLongestRoot_of_longestRoot? hroot⟩
  · obtain ⟨-, hfile⟩ := isModuleFile_or_isPackageFile h hr
    obtain ⟨-, hfile'⟩ := isModuleFile_or_isPackageFile h' hr'
    rw [← hextension] at hfile'
    rcases hfile with hmodule | hpackage <;> rcases hfile' with hmodule' | hpackage'
    · exact .inl (hmodule.same hmodule')
    · exact .inr (.inl ⟨hmodule, hpackage'⟩)
    · exact .inr (.inr ⟨hpackage, hmodule'⟩)
    · exact .inl (hpackage.same hpackage')

/-! ### A module and a package with one name -/

/-- A directory and one in it, the latter given twice. -/
def nestedRoots : List Path := [⟨"/src/lib"⟩, ⟨"/src"⟩, ⟨"/src/./lib/"⟩]

/-- A module of a package. -/
def moduleFile : Path := ⟨"/src/lib/pkg/mod.py"⟩

/-- A package of the same name. -/
def packageFile : Path := ⟨"/src//lib/pkg/mod/__init__.py"⟩

/-- The inner directory is the longest root of both, and they have one name. -/
theorem names_lead_back_to_moduleFile :
    ofFile nestedRoots moduleFile = .ok "pkg.mod" ∧ ofFile nestedRoots packageFile = .ok "pkg.mod" ∧
    IsLongestRoot nestedRoots moduleFile ⟨"/src/lib"⟩ ∧
    IsLongestRoot nestedRoots packageFile ⟨"/src/lib"⟩ ∧
    moduleFile.fileExtension? = packageFile.fileExtension? ∧
    (∃ r, IsLongestRoot nestedRoots moduleFile r) ∧
    (∀ part ∈ Text.splitString '.' "pkg.mod", part ≠ "") ∧
    (IsModuleFile ⟨"/src/lib"⟩ ["pkg", "mod"] (some "py") moduleFile ∧
      IsPackageFile ⟨"/src/lib"⟩ ["pkg", "mod"] (some "py") packageFile) ∧
    ofFile [⟨"/src"⟩, ⟨"/src/./lib/"⟩, ⟨"/src/lib"⟩] moduleFile = ofFile nestedRoots moduleFile := by
  have hmodule : ofFile nestedRoots moduleFile = .ok "pkg.mod" := by decide
  have hpackage : ofFile nestedRoots packageFile = .ok "pkg.mod" := by decide
  have hroot : IsLongestRoot nestedRoots moduleFile ⟨"/src/lib"⟩ := by decide
  have hroot' : IsLongestRoot nestedRoots packageFile ⟨"/src/lib"⟩ := by decide
  have hextension : moduleFile.fileExtension? = packageFile.fileExtension? := by decide
  have hparts : Text.splitString '.' "pkg.mod" = ["pkg", "mod"] := by decide
  have hpy : moduleFile.fileExtension? = some "py" := by decide
  obtain ⟨hexists, hback, htwo, hset⟩ := names_lead_back nestedRoots
  refine ⟨hmodule, hpackage, hroot, hroot', hextension, hexists _ _ hmodule,
    (hback _ _ _ hmodule hroot).1, ?_, hset _ (fun r => ?_) _⟩
  · obtain hsame | hboth | ⟨hpackage', -⟩ := htwo _ _ _ _ hmodule hpackage hroot hroot' hextension
    · exact absurd hsame (by decide)
    · rwa [hparts, hpy] at hboth
    · rw [hparts, hpy] at hpackage'
      exact absurd hpackage' (by decide)
  · unfold nestedRoots
    simp only [List.mem_cons, List.not_mem_nil, or_false]
    tauto

end ModuleName

end QmlStubs
