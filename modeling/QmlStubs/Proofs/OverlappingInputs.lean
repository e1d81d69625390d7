import QmlStubs.Proofs.NestedSearches
import QmlStubs.Proofs.SourceListing

/-!
# Input directories that overlap

Nothing is carried from one input directory to the next but the files that are there already. So

> **more input directories add what they list by themselves, in their order, less what is there**,
> and fail only as they do by themselves (`Discovery.sources_append`).

An input directory that is given again, or lies below another one, adds nothing at all: what is found
from it is found from the other one under the same path, so it is ignored there or here
(`Discovery.exists_matchesIn_of_above`). Given before the other one, it only puts its files first.
Below means in its place: a link below an input directory may lead to files elsewhere.
-/

set_option autoImplicit false

namespace QmlStubs

open FileTree

namespace Discovery

variable {t : FileTree} {ignored ignore A B a b : List Path} {extension : String} {d f g r r' : Path}
  {q : Place} {ns : List String}

/-! ## One after the other -/

/-- **More input directories add what they list by themselves, less what is there.** -/
theorem sources_append_eq : sources t (A ++ B) ignore extension = do
    let a ← sources t A ignore extension
    let b ← sources t B ignore extension
    return a ++ b.filter fun f => !a.any f.same := by
  rw [sources_eq, sources_eq, sources_eq, List.mapM_append]
  cases A.mapM (matchesIn t (ignore.map t.canonicalOr) extension) with
  | error e => rfl
  | ok founds =>
    cases B.mapM (matchesIn t (ignore.map t.canonicalOr) extension) with
    | error e => rfl
    | ok founds' =>
      show Except.ok (extend [] ((founds ++ founds').flatten.map t.canonicalOr)) = Except.ok _
      rw [List.flatten_append, List.map_append, extend_append, extend_eq]

theorem nodup_sources (h : sources t A ignore extension = .ok a) : a.Nodup :=
  (pairwise_sources h).imp fun {f g} hsame heq => by
    rw [← Bool.not_eq_true, Path.same_iff] at hsame
    exact hsame (congrArg Path.components heq)

/-! ## Below one another -/

/-- An input directory is one of others, or its place is below that of one of them. -/
inductive IsCovered (t : FileTree) (A : List Path) (d : Path) : Prop where
  | given (h : d ∈ A) : IsCovered t A d
  | below {p : Path} {q : Place} {ns : List String} (hp : p ∈ A) (hq : t.place? p = .ok q)
      (hd : t.place? d = .ok (q ++ ns)) (hdir : t.isDirectoryAt (q ++ ns) = true) : IsCovered t A d

section Named

variable (ht : IsTree t) (hnamed : ∀ q n e, t.at? (q ++ [n]) = some e → IsName n ∧ IsShort n)
include ht hnamed

/-- **What counts below a directory counts below every directory above it**, under the same path. -/
theorem exists_matchesIn_of_above {p : Path} {found : List Path} (hq : t.place? p = .ok q)
    (hd : t.place? d = .ok (q ++ ns)) (hdir : t.isDirectoryAt (q ++ ns) = true)
    (h : matchesIn t ignored extension p = .ok found) :
    ∃ found', matchesIn t ignored extension d = .ok found' ∧ ∀ r ∈ found', r ∈ found := by
  obtain ⟨q', paths, hq', -, hpaths, rfl⟩ := exists_of_matchesIn h
  obtain rfl := Except.ok.inj (hq.symm.trans hq')
  obtain ⟨paths', hpaths', hsub⟩ := Glob.exists_pathsBelow?_of_above hnamed ht hdir hpaths
  have hpaths' : Glob.pathsBelow? t (pathOf (q ++ ns)) (sourcePattern extension) = some paths' :=
    hpaths'
  refine ⟨_, by rw [matchesIn_of_place? hd hdir, hpaths'], fun r hr => ?_⟩
  obtain ⟨hr, hcounts⟩ := List.mem_filter.1 hr
  exact List.mem_filter.2 ⟨hsub r hr, hcounts⟩

/-- What counts below a covered directory counts below one of those that cover it. -/
theorem IsCovered.exists_matchesIn (h : IsCovered t A d)
    (hA : ∀ p ∈ A, ∃ found, matchesIn t ignored extension p = .ok found) :
    ∃ found', matchesIn t ignored extension d = .ok found' ∧
      ∃ p ∈ A, ∃ found, matchesIn t ignored extension p = .ok found ∧ ∀ r ∈ found', r ∈ found := by
  cases h with
  | given h =>
    obtain ⟨found, hfound⟩ := hA d h
    exact ⟨found, hfound, d, h, found, hfound, fun r hr => hr⟩
  | @below p q ns hp hq hd hdir =>
    obtain ⟨found, hfound⟩ := hA p hp
    obtain ⟨found', hfound', hsub⟩ := exists_matchesIn_of_above ht hnamed hq hd hdir hfound
    exact ⟨found', hfound', p, hp, found, hfound, hsub⟩

/-- Canonical paths with the same components are the same. -/
theorem eq_of_same (hf : t.canonical? r = .ok f) (hg : t.canonical? r' = .ok g)
    (h : f.components = g.components) : f = g := by
  have hplaced : ∀ {r f : Path}, t.canonical? r = .ok f →
      ∃ q, f = pathOf q ∧ ∀ n ∈ q, IsName n := by
    intro r f hf
    unfold canonical? at hf
    cases hplace : t.place? r with
    | error e =>
      rw [hplace] at hf
      cases hf
    | ok q =>
      rw [hplace] at hf
      obtain rfl := Except.ok.inj hf
      obtain ⟨e, he, hplain⟩ := ht.exists_of_place? hplace
      exact ⟨q, rfl, fun n hn => ((ht.leadsDown hnamed he hplain).named n hn).1⟩
  obtain ⟨q, rfl, hq⟩ := hplaced hf
  obtain ⟨q', rfl, hq'⟩ := hplaced hg
  rw [pathOf_injective hq hq' h]

/-- **Covered directories list nothing new.** -/
theorem exists_sources_of_covered (hB : ∀ d ∈ B, IsCovered t A d)
    (ha : sources t A ignore extension = .ok a) :
    ∃ b, sources t B ignore extension = .ok b ∧ ∀ f ∈ b, f ∈ a := by
  have hA := exists_matchesIn_of_sources ha
  obtain ⟨founds, hfounds⟩ := exists_mapM_eq_ok fun d hd => by
    obtain ⟨found, hfound, -⟩ := (hB d hd).exists_matchesIn ht hnamed hA
    exact ⟨found, hfound⟩
  have hb : sources t B ignore extension = .ok (extend [] (founds.flatten.map t.canonicalOr)) := by
    rw [sources_eq, hfounds]
    rfl
  refine ⟨_, hb, fun f hf => ?_⟩
  obtain ⟨d, hd, found, hfound, r, hr, hcanonical⟩ := exists_found_of_mem_sources hb hf
  obtain ⟨found', hfound', p, hp, above, habove, hsub⟩ := (hB d hd).exists_matchesIn ht hnamed hA
  obtain rfl := Except.ok.inj (hfound.symm.trans hfound')
  have hany := any_sources ha hp habove (hsub r hr) hcanonical
  obtain ⟨g, hg, hsame⟩ := List.any_eq_true.1 hany
  obtain ⟨-, -, -, -, r', -, hcanonical'⟩ := exists_found_of_mem_sources ha hg
  rwa [eq_of_same ht hnamed hcanonical hcanonical' (Path.same_iff.1 hsame)]

/-- Covered directories that come after those that cover them change nothing, -/
theorem sources_append_of_covered (hB : ∀ d ∈ B, IsCovered t A d) :
    sources t (A ++ B) ignore extension = sources t A ignore extension := by
  rw [sources_append_eq]
  cases ha : sources t A ignore extension with
  | error e => rfl
  | ok a =>
    obtain ⟨b, hb, hsub⟩ := exists_sources_of_covered ht hnamed hB ha
    have hnone : b.filter (fun f => !a.any f.same) = [] := by
      refine List.filter_eq_nil_iff.2 fun f hf => ?_
      have hany : a.any f.same = true :=
        List.any_eq_true.2 ⟨f, hsub f hf, Path.same_iff.2 rfl⟩
      rw [hany]
      exact Bool.false_ne_true
    rw [hb]
    show Except.ok (a ++ b.filter _) = Except.ok a
    rw [hnone, List.append_nil]

/-- and those that come before put their files first. -/
theorem exists_perm_of_covered (hB : ∀ d ∈ B, IsCovered t A d)
    (ha : sources t A ignore extension = .ok a) :
    ∃ files, sources t (B ++ A) ignore extension = .ok files ∧ files.Perm a := by
  obtain ⟨b, hb, hsub⟩ := exists_sources_of_covered ht hnamed hB ha
  refine ⟨b ++ a.filter fun f => !b.any f.same, by rw [sources_append_eq, hb, ha]; rfl, ?_⟩
  have hfirst : b.Perm (a.filter fun f => b.any f.same) := by
    refine (List.perm_ext_iff_of_nodup (nodup_sources hb) ((nodup_sources ha).filter _)).2 fun f => ?_
    rw [List.mem_filter, List.any_eq_true]
    constructor
    · intro hf
      exact ⟨hsub f hf, f, hf, Path.same_iff.2 rfl⟩
    · rintro ⟨hf, g, hg, hsame⟩
      obtain ⟨-, -, -, -, r, -, hr⟩ := exists_found_of_mem_sources ha hf
      obtain ⟨-, -, -, -, r', -, hr'⟩ := exists_found_of_mem_sources hb hg
      rwa [eq_of_same ht hnamed hr hr' (Path.same_iff.1 hsame)]
  exact (hfirst.append_right _).trans (List.filter_append_perm _ a)

end Named

/-- A directory with another one in it, and a link to a third. -/
def inputTree : FileTree where
  entries := .ofList [
    (["lib"], .directory ⟨100, 0⟩), (["lib", "c.py"], .file .empty ⟨100, 0⟩ false),
    (["src"], .directory ⟨100, 0⟩), (["src", "a.py"], .file .empty ⟨100, 0⟩ false),
    (["src", "lib"], .link ⟨"../lib"⟩), (["src", "sub"], .directory ⟨100, 0⟩),
    (["src", "sub", "b.py"], .file .empty ⟨100, 0⟩ false)]
  current := []
  clock := ⟨200, 0⟩

end Discovery

end QmlStubs
