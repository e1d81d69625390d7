import QmlStubs.Proofs.Extensions

/-!
# Ignored directories

What is found below an input directory is left out if an ignored directory is above it. This is
looked up in the path that the search found, and links are taken out of the path afterwards. So

> **no source file has an ignored directory above it if there are no links below the input
> directories** (`Discovery.not_isIgnored_of_mem_sources`).

In every tree a source file was found under a path that is not ignored
(`Discovery.exists_found_of_mem_sources`). But a link below an input directory gives a file of an
ignored directory such a path, even a link that is ignored itself: the path of an ignored directory
has its links taken out, and then it is not above what is found through the link.
-/

set_option autoImplicit false

namespace QmlStubs

open FileTree

namespace Discovery

variable {t : FileTree} {ignored ignore inDirs files : List Path} {extension : String}
  {f r : Path} {q : Place}

/-! ## Without links -/

/-- Whether a path is ignored is a matter of its components. -/
theorem isIgnored_congr (h : r.components = f.components) :
    isIgnored ignored r = isIgnored ignored f := by
  unfold isIgnored properAncestors
  rw [h, isAbsolute_congr h]

/-- The canonical path of a directory without links below it is a site. -/
theorem ground_pathOf (ht : IsTree t)
    (hnamed : ∀ q n e, t.at? (q ++ [n]) = some e → IsName n ∧ IsShort n)
    (hdirectory : t.isDirectoryAt q = true) (hlinkless : IsLinkless q t)
    (htext : textError? (pathOf q) = none) : Ground t (pathOf q) q := by
  obtain ⟨time, htime⟩ := isDirectoryAt_iff.1 hdirectory
  have hdown := ht.leadsDown hnamed htime (isPlain_directory time)
  refine ⟨ht, isDirect_pathOf fun n hn => (hdown.named n hn).1, ?_, hlinkless, hnamed⟩
  exact (reaches_iff htext).2 ⟨hdown.place?_pathOf htext, hdirectory⟩

/-- Names behind the path of a site lead to the path of their place. -/
theorem eq_pathOf_of_joins {p : Path} {d : Place} (h : Ground t p d) {ns : List String}
    (hne : ns ≠ []) (hns : ∀ n ∈ ns, IsName n) (hf : t.canonical? (joins p ns) = .ok f) :
    f = pathOf (d ++ ns) := by
  unfold canonical? at hf
  cases hplace : t.place? (joins p ns) with
  | error e => rw [hplace] at hf; cases hf
  | ok place =>
    rw [hplace] at hf
    obtain ⟨-, rfl, -⟩ := (h.place?_joins hne hns).1 hplace
    exact (Except.ok.inj hf).symm

/-- **What a search for an extension finds below a site has its canonical components already.** -/
theorem components_of_mem_pathsBelow? (h : Ground t (pathOf q) q)
    (htext : textError? (pathOf q) = none) (hslash : '/' ∉ extension.toList) {paths : List Path}
    (hpaths : Glob.pathsBelow? t (pathOf q) (sourcePattern extension) = some paths) (hr : r ∈ paths)
    (hf : t.canonical? r = .ok f) : r.components = f.components := by
  obtain ⟨ts, hts, -⟩ := exists_tokens?_of_pathsBelow? hslash hpaths
  obtain ⟨paths', hpaths', -, hmem⟩ := Glob.exists_pathsBelow? h htext (by simpa using hslash)
    (by simp) (Glob.part?_of_tokens? hts) nofun
  obtain rfl := Option.some.inj (hpaths.symm.trans hpaths')
  obtain ⟨ns, n, rfl, hisFound⟩ := (hmem r).1 hr
  have hns : ∀ m ∈ ns ++ [n], IsName m := fun m hm => (h.names hisFound.isSome m hm).1
  obtain ⟨time, htime⟩ := isDirectoryAt_iff.1 h.reaches.isDirectory
  have hq : ∀ m ∈ q, IsName m := fun m hm =>
    ((h.leadsDown htime (isPlain_directory time)).named m hm).1
  have hall : ∀ m ∈ q ++ (ns ++ [n]), IsName m := fun m hm =>
    (List.mem_append.1 hm).elim (hq m) (hns m)
  -- The search spells the site in its own way, which leads to the same place.
  have hspelled := h.of_coreSteps (Glob.isDirect_spelled h.direct)
    (Glob.isAbsolute_spelled h.direct) (Glob.coreSteps_spelled h.direct)
  rw [eq_pathOf_of_joins hspelled (by simp) hns hf, components_joins _ hns,
    Glob.components_spelled h.direct, components_pathOf hq, components_pathOf hall]
  simp only [List.map_append, List.cons_append]

/-- **Without links below the input directories no source file has an ignored directory above it.** -/
theorem not_isIgnored_of_mem_sources (ht : IsTree t)
    (hnamed : ∀ q n e, t.at? (q ++ [n]) = some e → IsName n ∧ IsShort n)
    (hlinkless : ∀ directory ∈ inDirs, ∀ q, t.place? directory = .ok q →
      IsLinkless q t ∧ textError? (pathOf q) = none)
    (hslash : '/' ∉ extension.toList) (h : sources t inDirs ignore extension = .ok files) :
    ∀ f ∈ files, isIgnored (ignore.map t.canonicalOr) f = false := by
  intro f hf
  obtain ⟨directory, hdirectory, found, hfound, r, hr, hcanonical⟩ :=
    exists_found_of_mem_sources h hf
  obtain ⟨q, paths, hplace, hat, hpaths, rfl⟩ := exists_of_matchesIn hfound
  obtain ⟨hbelow, htext⟩ := hlinkless directory hdirectory q hplace
  obtain ⟨hmem, hcounts⟩ := List.mem_filter.1 hr
  have hignored : isIgnored (ignore.map t.canonicalOr) r = false := by
    simpa using (Bool.and_eq_true_iff.1 hcounts).2
  rw [← hignored]
  exact (isIgnored_congr (components_of_mem_pathsBelow?
    (ground_pathOf ht hnamed hat hbelow htext) htext hslash hpaths hmem hcanonical)).symm

/-- A link in `/src` to the directory `/vendor`. -/
def vendoredTree : FileTree where
  entries := .ofList [
    (["src"], .directory ⟨100, 0⟩), (["src", "vendor"], .link ⟨"../vendor"⟩),
    (["vendor"], .directory ⟨100, 0⟩), (["vendor", "lib.py"], .file .empty ⟨100, 0⟩ false)]
  current := []
  clock := ⟨200, 0⟩

/-- Through the link a file of the ignored directory is listed, also if the link is what is
ignored. -/
example : ∀ ignore ∈ [[⟨"/vendor"⟩], [⟨"/src/vendor"⟩]],
    (sources vendoredTree [⟨"/src"⟩] ignore "py").toOption = some [⟨"/vendor/lib.py"⟩] ∧
    isIgnored (ignore.map vendoredTree.canonicalOr) ⟨"/vendor/lib.py"⟩ = true := by
  decide +kernel

end Discovery

end QmlStubs
