import QmlStubs.Proofs.Globbing

/-!
# The names that a search finds

A pattern is put together from a directory and a text behind it. However the directory is written,
the text behind the last slash is the last part of the pattern (`Glob.getLast?_parts_of_ofChars?`),
and what is found has a name that this part matches (`Glob.matchesLast_of_mem_search_names`). So

> **the plain characters behind the last slash are in the name of whatever is found**
> (`Glob.exists_mem_fileName?`).
-/

set_option autoImplicit false

namespace QmlStubs

namespace Glob

variable {ts : List Token} {r : Path}

/-! ## Parts -/

/-- Plain characters of a pattern are in the names that it matches. -/
theorem mem_of_tokensMatch {c : Char} (hc : .char c ∈ ts) {s : List Char}
    (h : tokensMatch ts s = true) : c ∈ s := by
  induction ts generalizing s with
  | nil => exact absurd hc List.not_mem_nil
  | cons token ts ih =>
    cases token with
    | anyRow =>
      obtain ⟨u, v, rfl, hmatch⟩ := anyEnd_iff.1 h
      exact List.mem_append_right u (ih (by simpa using hc) hmatch)
    | _ => cases s <;> grind [tokensMatch]

theorem getLast?_mergeDepths (parts : List Part) :
    (mergeDepths parts).getLast? = parts.getLast? := by
  induction parts using mergeDepths.induct with
  | case1 rest ih => rw [mergeDepths, ih, List.getLast?_cons_cons]
  | case2 p rest hp ih => rw [mergeDepths.eq_2 p rest hp, List.getLast?_cons, List.getLast?_cons, ih]
  | case3 => rfl

theorem getLast?_partTexts {last : List Char} (hlast : '/' ∉ last) (hne : last ≠ [])
    (before : List Char) : (partTexts (before ++ '/' :: last)).getLast? = some last ∧
      (partTexts last).getLast? = some last := by
  unfold partTexts
  rw [Text.split_append, Text.split_eq_singleton hlast]
  simp [hne]

theorem getLast?_of_mapM {texts : List (List Char)} {parts : List Part} {last : List Char}
    (h : texts.mapM part? = some parts) (hlast : texts.getLast? = some last) :
    ∃ part, part? last = some part ∧ parts.getLast? = some part := by
  obtain ⟨init, rfl⟩ := List.getLast?_eq_some_iff.1 hlast
  rw [List.mapM_append, List.mapM_cons, List.mapM_nil] at h
  cases hinit : init.mapM part? with
  | none => rw [hinit] at h; exact absurd h (by simp)
  | some before =>
    cases hpart : part? last with
    | none => rw [hinit, hpart] at h; exact absurd h (by simp)
    | some part =>
      rw [hinit, hpart] at h
      obtain rfl := Option.some.inj h
      exact ⟨part, rfl, List.getLast?_concat⟩

/-- **A pattern ends in the part behind its last slash**, which can be read. -/
theorem getLast?_parts_of_ofChars? {before last : List Char} (hlast : '/' ∉ last)
    (hne : last ≠ []) {p : Pattern} (h : Pattern.ofChars? (before ++ '/' :: last) = some p) :
    ∃ part, part? last = some part ∧ p.parts.getLast? = some part ∧ p.directoriesOnly = false := by
  have hend : (before ++ '/' :: last).getLast? ≠ some '/' := by
    rw [List.getLast?_append_cons, List.getLast?_cons]
    cases he : last.getLast? with
    | none => exact absurd (List.getLast?_eq_none_iff.1 he) hne
    | some c =>
      rintro ⟨⟩
      exact hlast (List.mem_of_getLast? he)
  have hof : ∀ {texts : List (List Char)} {start : Path}, texts.getLast? = some last →
      ((texts.mapM part?).map fun parts => (⟨start, mergeDepths parts,
        (before ++ '/' :: last).getLast? = some '/'⟩ : Pattern)) = some p →
      ∃ part, part? last = some part ∧ p.parts.getLast? = some part ∧
        p.directoriesOnly = false := by
    intro texts start htexts hp
    obtain ⟨parts, hparts, rfl⟩ := Option.map_eq_some_iff.1 hp
    obtain ⟨part, hpart, hgetLast⟩ := getLast?_of_mapM hparts htexts
    exact ⟨part, hpart, (getLast?_mergeDepths parts).trans hgetLast, decide_eq_false hend⟩
  cases before with
  | nil =>
    rw [List.nil_append, ofChars?_slash] at h
    exact hof (getLast?_partTexts hlast hne []).2 h
  | cons c before =>
    by_cases hc : c = '/'
    · subst hc
      rw [List.cons_append, ofChars?_slash] at h
      exact hof (getLast?_partTexts hlast hne before).1 h
    · rw [ofChars?_relative (by simpa using hc)] at h
      exact hof (getLast?_partTexts hlast hne (c :: before)).1 h

/-! ## The search -/

/-- **What is found has a name that the last part of the pattern matches.** The recursion is that of
the search, which takes two parts at once where directories at any depth are looked through. -/
theorem matchesLast_of_mem_search_names (t : FileTree) (hts : ts.head? ≠ some (.char '.')) :
    ∀ (parts : List Part) (p : Path), r ∈ search t false (parts ++ [.names ts]) p →
      matchesLast (.names ts) r = true
  | [], p, h => by
    have hdots : dots t ts p = [] := by
      unfold dots
      simp [hts]
    rw [List.nil_append, search.eq_def] at h
    dsimp only at h
    rw [hdots, List.nil_append, flatMap_search_nil] at h
    exact (List.mem_filter.1 h).2
  | .literal name :: rest, p, h => by
    rw [List.cons_append, search.eq_def] at h
    dsimp only at h
    split at h
    · exact matchesLast_of_mem_search_names t hts rest _ h
    · exact absurd h List.not_mem_nil
  | .names _ :: rest, p, h => by
    rw [List.cons_append, search.eq_def] at h
    obtain ⟨x, -, hr⟩ := List.mem_flatMap.1 h
    exact matchesLast_of_mem_search_names t hts rest x hr
  | [.anyDepth], p, h => by
    rw [List.singleton_append, search.eq_def] at h
    dsimp only at h
    rw [flatMap_search_nil] at h
    exact (List.mem_filter.1 h).2
  | .anyDepth :: _ :: rest, p, h => by
    rw [List.cons_append, List.cons_append, search.eq_def] at h
    obtain ⟨x, -, hr⟩ := List.mem_flatMap.1 h
    exact matchesLast_of_mem_search_names t hts rest x hr

/-- **What a pattern finds has a name that the text behind its last slash matches.** -/
theorem exists_fileName?_of_mem_paths {t : FileTree} {before last : List Char} (hlast : '/' ∉ last)
    (hne : last ≠ []) (hpart : part? last = some (.names ts)) (hts : ts.head? ≠ some (.char '.'))
    {pattern : Pattern} (h : Pattern.ofChars? (before ++ '/' :: last) = some pattern)
    (hr : r ∈ pattern.paths t) :
    ∃ name, r.fileName? = some name ∧ tokensMatch ts name.toList = true := by
  obtain ⟨part, hpart', hend, honly⟩ := getLast?_parts_of_ofChars? hlast hne h
  obtain rfl := Option.some.inj (hpart.symm.trans hpart')
  obtain ⟨init, hinit⟩ := List.getLast?_eq_some_iff.1 hend
  unfold Pattern.paths at hr
  rw [honly, hinit] at hr
  have hmatch := matchesLast_of_mem_search_names t hts init _ hr
  unfold matchesLast at hmatch
  split at hmatch
  next name hname => exact ⟨name, hname, hmatch⟩
  next => exact absurd hmatch (by simp)

/-- **A plain character of the last part is in the name of whatever is found**, in any directory. -/
theorem exists_mem_fileName? {t : FileTree} {p : Path} {last : List Char} (hlast : '/' ∉ last)
    (hne : last ≠ []) (hpart : part? last = some (.names ts)) (hts : ts.head? ≠ some (.char '.'))
    {c : Char} (hc : .char c ∈ ts) {paths : List Path} (h : pathsBelow? t p last = some paths)
    (hr : r ∈ paths) : ∃ name, r.fileName? = some name ∧ c ∈ name.toList := by
  obtain ⟨pattern, hpattern, rfl⟩ := Option.map_eq_some_iff.1 h
  obtain ⟨name, hname, hmatch⟩ := exists_fileName?_of_mem_paths hlast hne hpart hts hpattern hr
  exact ⟨name, hname, mem_of_tokensMatch hc hmatch⟩

end Glob

end QmlStubs
