import QmlStubs.Proofs.Steadiness

/-!
# Searches below one another

A search at any depth enters links to directories, and a bound on its depth keeps it from running in
circles. The bound is never felt, since paths grow with every step and nothing is listed below a
path that is too long. So what is listed below a path is what steps down from it lead to
(`mem_descendants_iff`), and

> **what is found below a directory is found in the same way below every directory above it**
> (`exists_pathsBelow?_of_above`).

A canonical path has no links in it, so a search from above passes through the directory and goes on
with the very paths that a search of the directory alone goes through. Below the directory there may
be any links.
-/

set_option autoImplicit false

namespace QmlStubs

open FileTree

namespace Glob

variable {t : FileTree} {x y r : Path} {q : Place} {ns : List String} {b : Bool} {rest : List Part}

/-! ## Steps down -/

/-- What steps down from a path lead to. Every path on the way is a directory. -/
inductive Under (t : FileTree) : Path → Path → Prop where
  | child {x r : Path} (h : r ∈ children t x) : Under t x r
  | deeper {x y r : Path} (hy : y ∈ children t x) (hdir : t.isDirectory y = true)
      (h : Under t y r) : Under t x r

theorem isDirectory_of_mem_children (hy : y ∈ children t x) : t.isDirectory x = true := by
  unfold children list? at hy
  unfold isDirectory
  cases hplace : t.place? x with
  | error e => simp [hplace] at hy
  | ok c =>
    cases hdir : t.isDirectoryAt c with
    | true => simp [hdir]
    | false => simp [hplace, hdir] at hy

theorem Under.isDirectory (h : Under t x r) : t.isDirectory x = true := by
  cases h with
  | child h => exact isDirectory_of_mem_children h
  | deeper hy _ _ => exact isDirectory_of_mem_children hy

/-- Paths grow with every step. -/
theorem size_lt_join (hx : x.text ≠ "") {n : String} (hn : IsName n) :
    x.text.utf8ByteSize < (x.join n).text.utf8ByteSize := by
  have hgrows : ∀ c l, (x.join n).text.toList = x.text.toList ++ c :: l →
      x.text.utf8ByteSize < (x.join n).text.utf8ByteSize := by
    intro c l h
    have htext : (x.join n).text = x.text ++ String.ofList (c :: l) :=
      String.toList_injective (by rw [h, String.toList_append, String.toList_ofList])
    have hpos := c.utf8Size_pos
    rw [htext, String.utf8ByteSize_append, utf8ByteSize_ofList_cons]
    omega
  obtain ⟨c, l, hcons⟩ := List.exists_cons_of_ne_nil (toList_ne_nil hn.ne_empty)
  rcases text_join (p := x) hn with ⟨hempty, -⟩ | ⟨s, hs | hs, -, hjoin⟩
  · exact absurd hempty hx
  · exact hgrows '/' n.toList (by rw [hjoin, hs])
  · exact hgrows c l (by rw [hjoin, hs, ← hcons, List.append_assoc]; rfl)

theorem under_of_mem_descendants {depth : Nat} (h : r ∈ descendants t depth x) : Under t x r := by
  induction depth generalizing x with
  | zero => exact absurd h (by simp [descendants])
  | succ depth ih =>
    rw [descendants, List.mem_flatMap] at h
    obtain ⟨y, hy, h⟩ := h
    rcases List.mem_cons.1 h with rfl | h
    · exact .child hy
    · split at h
      next hdir => exact .deeper hy hdir (ih h)
      next => exact absurd h (by simp)

section Named

variable (hnamed : ∀ q n e, t.at? (q ++ [n]) = some e → IsName n ∧ IsShort n)
include hnamed

theorem exists_of_mem_children (hx : x.IsDirect) (hy : y ∈ children t x) :
    ∃ n, IsName n ∧ y = x.join n := by
  obtain ⟨ht, c, hreach⟩ := isDirectory_iff.1 (isDirectory_of_mem_children hy)
  obtain ⟨n, rfl, hsome⟩ := (mem_children ht hreach).1 hy
  obtain ⟨e, he⟩ := Option.isSome_iff_exists.1 hsome
  exact ⟨n, (hnamed c n e he).1, below_of_isDirect hx n⟩

/-- What steps lead to is listed if the bound is more than what a path can still grow by. -/
theorem mem_descendants_of_under (h : Under t x r) (hx : x.IsDirect) {depth : Nat}
    (hdepth : maxPathLength < x.text.utf8ByteSize + depth) : r ∈ descendants t depth x := by
  have hpositive : ∀ {x r : Path} {depth : Nat}, Under t x r →
      maxPathLength < x.text.utf8ByteSize + depth → ∃ k, depth = k + 1 := by
    intro x r depth h hdepth
    have hsize := (textError?_eq_none.1 (isDirectory_iff.1 h.isDirectory).1).2.2
    exact ⟨depth - 1, by omega⟩
  induction h generalizing depth with
  | child h =>
    obtain ⟨k, rfl⟩ := hpositive (.child h) hdepth
    rw [descendants, List.mem_flatMap]
    exact ⟨_, h, List.mem_cons_self ..⟩
  | deeper hy hdir h ih =>
    obtain ⟨k, rfl⟩ := hpositive (.deeper hy hdir h) hdepth
    obtain ⟨n, hn, rfl⟩ := exists_of_mem_children hnamed hx hy
    have hgrown := size_lt_join hx.ne_empty hn
    rw [descendants, List.mem_flatMap]
    refine ⟨_, hy, ?_⟩
    rw [if_pos hdir]
    exact List.mem_cons_of_mem _ (ih (isDirect_join hx hn.no_slash) (by omega))

/-- **What is listed below a path is what steps down lead to.** -/
theorem mem_descendants_iff (hx : x.IsDirect) :
    r ∈ descendants t maxPathLength x ↔ Under t x r := by
  constructor
  · exact under_of_mem_descendants
  · intro h
    have hpos : x.text.utf8ByteSize ≠ 0 := by
      simpa [String.utf8ByteSize_eq_zero_iff] using hx.ne_empty
    exact mem_descendants_of_under hnamed h hx (by omega)

/-- Steps down from a directory go on from the one above it, -/
theorem Under.up (ht : IsTree t) {n : String} (hdir : t.isDirectoryAt (q ++ [n]) = true)
    (h : Under t (pathOf (q ++ [n])) r) : Under t (pathOf q) r := by
  obtain ⟨time, htime⟩ := isDirectoryAt_iff.1 hdir
  have habove := ht.above _ _ _ htime
  obtain ⟨time', htime'⟩ := isDirectoryAt_iff.1 habove
  have hdown := ht.leadsDown hnamed htime' (isPlain_directory time')
  have hq : ∀ m ∈ q, IsName m := fun m hm => (hdown.named m hm).1
  have hn : IsName n := (hnamed q n _ htime).1
  have hdirect := isDirect_pathOf hq
  have hjoin : pathOf (q ++ [n]) = (pathOf q).join n :=
    (joins_pathOf hq (by simp) (by simpa using hn)).symm
  rw [hjoin] at h
  obtain ⟨htext, -⟩ := isDirectory_iff.1 h.isDirectory
  have htext' := textError?_of_join hn hdirect.ne_empty htext
  have hreach : Reaches t (pathOf q) q :=
    (reaches_iff htext').2 ⟨hdown.place?_pathOf htext', habove⟩
  refine .deeper ((mem_children htext' hreach).2 ⟨n, ?_, ?_⟩) h.isDirectory h
  · exact (below_of_isDirect hdirect n).symm
  · rw [htime]
    rfl

/-- and so **from every directory above it**. -/
theorem Under.of_above (ht : IsTree t) (hdir : t.isDirectoryAt (q ++ ns) = true)
    (h : Under t (pathOf (q ++ ns)) r) : Under t (pathOf q) r := by
  induction ns using List.reverseRecOn with
  | nil => rwa [List.append_nil] at h
  | append_singleton ns n ih =>
    rw [← List.append_assoc] at hdir h
    obtain ⟨time, htime⟩ := isDirectoryAt_iff.1 hdir
    exact ih (ht.above _ _ _ htime) (h.up hnamed ht hdir)

end Named

/-! ## Searches -/

/-- Something is under a path if a search at any depth finds something from it. -/
theorem exists_under_of_mem_search (h : r ∈ search t b (.anyDepth :: rest) x) :
    ∃ z, Under t x z := by
  rw [search.eq_def] at h
  cases rest with
  | nil => exact ⟨r, under_of_mem_descendants (List.mem_filter.1 h).1⟩
  | cons part rest =>
    obtain ⟨z, hz, -⟩ := List.mem_flatMap.1 h
    exact ⟨z, under_of_mem_descendants (List.mem_filter.1 hz).1⟩

theorem exists_mergeDepths_anyDepth (parts : List Part) :
    ∃ rest, mergeDepths (.anyDepth :: parts) = .anyDepth :: rest := by
  induction parts with
  | nil => exact ⟨[], rfl⟩
  | cons part parts ih =>
    cases part with
    | anyDepth => exact ih
    | literal name => exact ⟨_, rfl⟩
    | names ts => exact ⟨_, rfl⟩

/-- A search spells the path of a place as it is. -/
theorem spelled_pathOf (hq : ∀ n ∈ q, IsName n) : spelled (pathOf q) = pathOf q := by
  have habs := isAbsolute_pathOf q
  unfold spelled tailOf spelledHead
  rw [habs, if_pos rfl, if_pos rfl]
  by_cases hne : q = []
  · subst hne
    decide
  · have hparts : partsOf (pathOf q) = q.map String.toList := by
      have htext : searchText (pathOf q) = Text.joinWith '/' (q.map String.toList) := by
        unfold searchText
        rw [habs, if_pos rfl]
        simp [pathOf, Text.joinStrings]
      unfold partsOf
      rw [htext, Text.split_joinWith (by simpa using hne)]
      intro s hs
      obtain ⟨n, hn, rfl⟩ := List.mem_map.1 hs
      exact (hq n hn).no_slash
    rw [hparts, List.foldl_map, ← joins_root hne hq]
    unfold joins joinPart
    simp only [String.ofList_toList]

section Named

variable (hnamed : ∀ q n e, t.at? (q ++ [n]) = some e → IsName n ∧ IsShort n)
include hnamed

/-- What is found for an escaped part is found behind it. -/
theorem mem_search_of_part (hx : x.IsDirect) {s : List Char} (hs : '/' ∉ s)
    (h : r ∈ search t b (partOf s :: rest) x) : r ∈ search t b rest (joinPart x s) := by
  have hbelow : below x (String.ofList s) = joinPart x s := below_of_isDirect hx _
  unfold partOf at h
  split at h
  next hspecial =>
    rw [search.eq_def] at h
    dsimp only at h
    rw [dots_map_tokenOf hs hspecial, List.nil_append] at h
    obtain ⟨y, hy, hr⟩ := List.mem_flatMap.1 h
    obtain ⟨hchild, hmatch⟩ := List.mem_filter.1 hy
    obtain ⟨n, hn, rfl⟩ := exists_of_mem_children hnamed hx hchild
    unfold matchesLast at hmatch
    rw [fileName?_join hx hn] at hmatch
    obtain rfl := tokensMatch_iff_eq_ofList.1 hmatch
    exact hr
  next =>
    rw [search.eq_def] at h
    dsimp only at h
    split at h
    · rwa [hbelow] at h
    · exact absurd h List.not_mem_nil

/-- **What is found for an escaped path is found behind it**, also if the path leads nowhere. -/
theorem mem_search_of_parts {parts : List (List Char)} (hparts : ∀ s ∈ parts, '/' ∉ s)
    (hx : x.IsDirect) (h : r ∈ search t b (parts.map partOf ++ rest) x) :
    r ∈ search t b rest (parts.foldl joinPart x) := by
  induction parts generalizing x with
  | nil => exact h
  | cons s parts ih =>
    obtain ⟨hs, hparts⟩ := List.forall_mem_cons.1 hparts
    exact ih hparts (isDirect_joinPart hx hs) (mem_search_of_part hnamed hx hs h)

/-- What a search at any depth finds depends on what steps down lead to. -/
theorem mem_search_anyDepth (hx : x.IsDirect) (hy : y.IsDirect)
    (hunder : ∀ z, Under t x z → Under t y z) (h : r ∈ search t b (.anyDepth :: rest) x) :
    r ∈ search t b (.anyDepth :: rest) y := by
  have hlisted : ∀ z ∈ descendants t maxPathLength x, z ∈ descendants t maxPathLength y := by
    intro z hz
    exact (mem_descendants_iff hnamed hy).2 (hunder z ((mem_descendants_iff hnamed hx).1 hz))
  rw [search.eq_def] at h ⊢
  cases rest with
  | nil =>
    obtain ⟨hz, hdir⟩ := List.mem_filter.1 h
    exact List.mem_filter.2 ⟨hlisted _ hz, hdir⟩
  | cons part rest =>
    obtain ⟨z, hz, hr⟩ := List.mem_flatMap.1 h
    obtain ⟨hz, hmatch⟩ := List.mem_filter.1 hz
    exact List.mem_flatMap.2 ⟨z, List.mem_filter.2 ⟨hlisted z hz, hmatch⟩, hr⟩

/-- A search that goes down to a directory goes through those above it. -/
theorem mem_search_of_above (ht : IsTree t) (hdir : t.isDirectoryAt (q ++ ns) = true)
    (h : r ∈ search t b ((partsOf (pathOf (q ++ ns))).map partOf ++ .anyDepth :: rest)
      (searchStart (pathOf (q ++ ns)))) :
    r ∈ search t b ((partsOf (pathOf q)).map partOf ++ .anyDepth :: rest)
      (searchStart (pathOf q)) := by
  obtain ⟨time, htime⟩ := isDirectoryAt_iff.1 hdir
  have hdown := ht.leadsDown hnamed htime (isPlain_directory time)
  have hnames : ∀ n ∈ q ++ ns, IsName n := fun n hn => (hdown.named n hn).1
  have hnames' : ∀ n ∈ q, IsName n := fun n hn => hnames n (List.mem_append_left _ hn)
  have hdirect := isDirect_pathOf hnames
  have hdirect' := isDirect_pathOf hnames'
  -- The path of the lower directory may be too long to lead there. Then nothing is found from it.
  have hfound : r ∈ search t b (.anyDepth :: rest) (pathOf (q ++ ns)) := by
    rw [← spelled_pathOf hnames]
    unfold spelled tailOf spelledHead
    unfold searchStart at h
    rw [isAbsolute_pathOf, if_pos rfl] at h ⊢
    exact mem_search_of_parts hnamed (fun s => not_mem_of_mem_partsOf) (by decide) h
  obtain ⟨z, hz⟩ := exists_under_of_mem_search hfound
  obtain ⟨htext, d, hreach⟩ := isDirectory_iff.1 (hz.of_above hnamed ht hdir).isDirectory
  rw [search_spelled ht.current hnamed hdirect' hreach htext, spelled_pathOf hnames']
  exact mem_search_anyDepth hnamed hdirect hdirect' (fun z hz => hz.of_above hnamed ht hdir) hfound

/-- **What is found below a directory is found in the same way below every directory above it.** -/
theorem exists_pathsBelow?_of_above (ht : IsTree t) (hdir : t.isDirectoryAt (q ++ ns) = true)
    {u : List Char} {paths : List Path}
    (h : pathsBelow? t (pathOf q) ('*' :: '*' :: '/' :: u) = some paths) :
    ∃ paths', pathsBelow? t (pathOf (q ++ ns)) ('*' :: '*' :: '/' :: u) = some paths' ∧
      ∀ r ∈ paths', r ∈ paths := by
  rw [pathsBelow?_deep (text_pathOf_ne_empty q)] at h
  rw [pathsBelow?_deep (text_pathOf_ne_empty (q ++ ns))]
  obtain ⟨parts, hparts, rfl⟩ := Option.map_eq_some_iff.1 h
  obtain ⟨rest, hrest⟩ := exists_mergeDepths_anyDepth parts
  rw [hparts, hrest]
  refine ⟨_, rfl, fun r hr => ?_⟩
  dsimp only at hr
  rw [hrest] at hr
  exact mem_search_of_above hnamed ht hdir hr

end Named

end Glob

end QmlStubs
