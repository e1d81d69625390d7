import QmlStubs.Proofs.FoundNames
import QmlStubs.Proofs.SourceListing
import QmlStubs.Settings

/-!
# Source extensions

Settings accept every text without a slash and a star as the extension of source files
(`Settings.isExtension_iff`). The search reads it as the end of a pattern, in which question marks
and brackets have a meaning too. So

> **an extension without `[` does not fail the search, and what counts is called
> `<stem>.<extension>`, up to characters where the extension has a `?`**
> (`Discovery.sources_of_validate`).

A bracket that is left open has no meaning. Then nothing can be listed if the first input directory
is there (`Discovery.sources_of_open`), although the settings are valid.
-/

set_option autoImplicit false

namespace QmlStubs

open FileTree

/-! ## What settings accept -/

theorem Settings.isExtension_iff {e : String} :
    isExtension e = true ↔ e ≠ "" ∧ '/' ∉ e.toList ∧ '*' ∉ e.toList := by
  unfold isExtension
  simp only [Bool.and_eq_true, decide_eq_true_eq, Bool.not_eq_true', List.any_eq_false,
    Bool.or_eq_true]
  refine and_congr_right fun _ => ⟨fun h => ?_, ?_⟩
  · exact ⟨fun hslash => h _ hslash (.inl rfl), fun hstar => h _ hstar (.inr rfl)⟩
  · rintro ⟨hslash, hstar⟩ c hc (rfl | rfl)
    · exact hslash hc
    · exact hstar hc

/-- **Settings are valid** with input directories, a command, such an extension and search roots. -/
theorem Settings.validate_eq_ok_iff {s : Settings} : s.validate = .ok () ↔
    s.inDirs ≠ [] ∧ s.interpreter.head?.getD "" ≠ "" ∧ isExtension s.extension = true ∧
      s.searchRoots ≠ [] := by
  unfold validate
  split_ifs <;> simp_all

namespace Glob

variable {s : List Char} {fuel : Nat}

/-! ## Reading extensions -/

/-- The last part of the pattern of an extension. -/
def extensionPart (ts : List Token) : Part := .names (.anyRow :: .char '.' :: ts)

theorem part?_extension (s : List Char) :
    part? ('*' :: '.' :: s) = (tokens? s.length s).map extensionPart := by
  have htokens : tokens? (s.length + 2) ('*' :: '.' :: s) =
      (tokens? s.length s).map fun ts => .anyRow :: .char '.' :: ts := by
    show (tokens? (s.length + 1) ('.' :: s)).map (.anyRow :: ·) = _
    rw [tokens?_char (by decide), Option.map_map]
    rfl
  unfold part?
  rw [if_neg (by simp)]
  show (tokens? (s.length + 2) ('*' :: '.' :: s)).map _ = _
  rw [htokens, Option.map_map]
  rfl

theorem part?_of_tokens? {ts : List Token} (h : tokens? s.length s = some ts) :
    part? ('*' :: '.' :: s) = some (extensionPart ts) := by
  rw [part?_extension, h, Option.map_some]

/-- A question mark stands for every character, and other characters for themselves. -/
def StandsFor (c d : Char) : Prop := c = '?' ∨ c = d

/-- **Without stars and brackets every text can be read**, and it matches what it stands for, one
character after the other. -/
theorem exists_tokens? (hstar : '*' ∉ s) (hopen : '[' ∉ s) (hfuel : s.length ≤ fuel) :
    ∃ ts, tokens? fuel s = some ts ∧
      ∀ e, tokensMatch ts e = true ↔ List.Forall₂ StandsFor s e := by
  induction s generalizing fuel with
  | nil => exact ⟨[], by cases fuel <;> rfl, fun e => by simp [tokensMatch]⟩
  | cons c s ih =>
    rw [List.mem_cons, not_or] at hstar hopen
    obtain ⟨fuel, rfl⟩ : ∃ n, fuel = n + 1 := ⟨fuel - 1, by simp at hfuel; omega⟩
    obtain ⟨ts, hts, hmatch⟩ := ih hstar.2 hopen.2 (by simpa using hfuel)
    by_cases hc : c = '?'
    · subst hc
      refine ⟨.anyChar :: ts, by rw [tokens?, hts]; rfl, fun e => ?_⟩
      cases e <;> simp [tokensMatch, StandsFor, hmatch]
    · refine ⟨.char c :: ts, ?_, fun e => ?_⟩
      · rw [tokens?_char ⟨hc, Ne.symm hstar.1, Ne.symm hopen.1⟩, hts]
        rfl
      · cases e <;> simp [tokensMatch, StandsFor, hmatch, hc]

theorem eq_of_standsFor {e : List Char} (hmark : '?' ∉ s) (h : List.Forall₂ StandsFor s e) :
    e = s := by
  induction h with
  | nil => rfl
  | cons hc _ ih =>
    rw [List.mem_cons, not_or] at hmark
    rw [ih hmark.2, hc.resolve_left (Ne.symm hmark.1)]

theorem untilBracket?_eq_none (h : ']' ∉ s) : untilBracket? s = none := by
  unfold untilBracket?
  have hdrop : s.dropWhile (· ≠ ']') = [] := by
    rw [List.dropWhile_eq_nil_iff]
    intro c hc
    simpa using fun hce : c = ']' => h (hce ▸ hc)
  rw [hdrop]

theorem tokens?_open (h : ']' ∉ s) : tokens? fuel ('[' :: s) = none := by
  cases fuel with
  | zero => rfl
  | succ fuel =>
    cases s with
    | nil => rfl
    | cons c s =>
      rw [tokens?.eq_def]
      split <;> grind [untilBracket?_eq_none]

/-- A bracket without a partner cannot be read. -/
theorem tokens?_eq_none (hopen : '[' ∈ s) (hclosed : ']' ∉ s) : tokens? fuel s = none := by
  induction s generalizing fuel with
  | nil => exact absurd hopen List.not_mem_nil
  | cons c s ih =>
    rw [List.mem_cons, not_or] at hclosed
    by_cases hc : c = '['
    · subst hc
      exact tokens?_open hclosed.2
    · have hs : ∀ fuel, tokens? fuel s = none := fun fuel =>
        ih (by simpa [Ne.symm hc] using hopen) hclosed.2
      rw [tokens?.eq_def]
      split <;> simp_all

/-! ## Matching extensions -/

theorem tokensMatch_extension {ts : List Token} :
    tokensMatch (.anyRow :: .char '.' :: ts) s = true ↔
      ∃ stem e, s = stem ++ '.' :: e ∧ tokensMatch ts e = true := by
  have hdot : ∀ v, tokensMatch (['.'].map .char ++ ts) v = true ↔
      ∃ e, v = ['.'] ++ e ∧ tokensMatch ts e = true := fun v => tokensMatch_chars
  rw [tokensMatch, anyEnd_iff]
  constructor
  · rintro ⟨stem, v, rfl, h⟩
    obtain ⟨e, rfl, he⟩ := (hdot v).1 h
    exact ⟨stem, e, rfl, he⟩
  · rintro ⟨stem, e, rfl, he⟩
    exact ⟨stem, '.' :: e, rfl, (hdot _).2 ⟨e, rfl, he⟩⟩

end Glob

namespace Discovery

variable {t : FileTree} {ignored ignore inDirs found : List Path} {extension : String}
  {directory p r : Path}

/-! ## Searching for extensions -/

/-- The pattern of an extension ends in a part behind a slash. -/
theorem escape_sourcePattern : Glob.escape p.text.toList ++ '/' :: sourcePattern extension =
    (Glob.escape p.text.toList ++ ['/', '*', '*']) ++ '/' :: ('*' :: '.' :: extension.toList) := by
  unfold sourcePattern
  simp

/-- **What is searched for can be read**, and what is found has a name that it matches. -/
theorem exists_tokens?_of_pathsBelow? {paths : List Path} (hslash : '/' ∉ extension.toList)
    (h : Glob.pathsBelow? t p (sourcePattern extension) = some paths) :
    ∃ ts, Glob.tokens? extension.toList.length extension.toList = some ts ∧
      ∀ r ∈ paths, ∃ stem e : String, r.fileName? = some (stem ++ "." ++ e) ∧
        Glob.tokensMatch ts e.toList = true := by
  obtain ⟨pattern, hpattern, rfl⟩ := Option.map_eq_some_iff.1 h
  rw [escape_sourcePattern] at hpattern
  have hlast : '/' ∉ '*' :: '.' :: extension.toList := by simpa using hslash
  obtain ⟨part, hpart, -⟩ := Glob.getLast?_parts_of_ofChars? hlast (by simp) hpattern
  rw [Glob.part?_extension] at hpart
  obtain ⟨ts, hts, -⟩ := Option.map_eq_some_iff.1 hpart
  refine ⟨ts, hts, fun r hr => ?_⟩
  obtain ⟨name, hname, hmatch⟩ := Glob.exists_fileName?_of_mem_paths hlast (by simp)
    (Glob.part?_of_tokens? hts) (by simp) hpattern hr
  obtain ⟨stem, e, hsplit, he⟩ := Glob.tokensMatch_extension.1 hmatch
  refine ⟨.ofList stem, .ofList e, ?_, by rwa [String.toList_ofList]⟩
  rw [hname, Option.some.injEq, ← String.toList_inj, hsplit]
  simp

/-- **An extension can be searched for exactly if it can be read.** -/
theorem pathsBelow?_eq_none_iff (hp : p.text ≠ "") (hslash : '/' ∉ extension.toList) :
    Glob.pathsBelow? t p (sourcePattern extension) = none ↔
      Glob.tokens? extension.toList.length extension.toList = none := by
  have hlast : '/' ∉ '*' :: '.' :: extension.toList := by simpa using hslash
  have htexts := Glob.partTexts_of_not_mem hlast (by simp)
  show Glob.pathsBelow? t p ('*' :: '*' :: '/' :: '*' :: '.' :: extension.toList) = none ↔ _
  rw [Glob.pathsBelow?_deep hp, Option.map_eq_none_iff, htexts, List.mapM_cons, List.mapM_nil,
    Glob.part?_extension]
  cases Glob.tokens? extension.toList.length extension.toList <;> simp

/-- **What counts has an extension that the configured one matches.** -/
theorem exists_fileName?_of_matchesIn (hslash : '/' ∉ extension.toList)
    (h : matchesIn t ignored extension directory = .ok found) :
    ∃ ts, Glob.tokens? extension.toList.length extension.toList = some ts ∧
      ∀ r ∈ found, ∃ stem e : String, r.fileName? = some (stem ++ "." ++ e) ∧
        Glob.tokensMatch ts e.toList = true := by
  obtain ⟨q, paths, -, -, hpaths, rfl⟩ := exists_of_matchesIn h
  obtain ⟨ts, hts, hnames⟩ := exists_tokens?_of_pathsBelow? hslash hpaths
  exact ⟨ts, hts, fun r hr => hnames r (List.mem_filter.1 hr).1⟩

/-- Below a directory the search fails exactly if the extension cannot be read. -/
theorem matchesIn_eq_badPattern_iff (hslash : '/' ∉ extension.toList) :
    matchesIn t ignored extension directory = .error .badPattern ↔
      t.isDirectory directory = true ∧
        Glob.tokens? extension.toList.length extension.toList = none := by
  cases hdir : t.isDirectory directory with
  | false =>
    rw [matchesIn_of_not_isDirectory hdir]
    simp
  | true =>
    obtain ⟨q, hplace, hat⟩ := exists_place?_of_isDirectory hdir
    rw [matchesIn_of_place? hplace hat, ← pathsBelow?_eq_none_iff (text_pathOf_ne_empty q) hslash]
    cases Glob.pathsBelow? t (pathOf q) (sourcePattern extension) <;> simp

/-- **The source files cannot be searched for** exactly if the extension cannot be read and the
first input directory is there. -/
theorem sources_eq_badPattern_iff (hslash : '/' ∉ extension.toList) :
    sources t inDirs ignore extension = .error .badPattern ↔
      (∃ first, inDirs.head? = some first ∧ t.isDirectory first = true) ∧
        Glob.tokens? extension.toList.length extension.toList = none := by
  rw [sources_eq]
  cases inDirs with
  | nil => exact ⟨nofun, nofun⟩
  | cons first inDirs =>
    rw [List.mapM_cons]
    cases hfirst : matchesIn t (ignore.map t.canonicalOr) extension first with
    | error e =>
      show Except.error e = .error .badPattern ↔ _
      rw [← hfirst, matchesIn_eq_badPattern_iff hslash]
      simp
    | ok found =>
      obtain ⟨ts, hts, -⟩ := exists_fileName?_of_matchesIn hslash hfirst
      refine ⟨fun h => ?_, fun h => absurd (h.2.symm.trans hts) nofun⟩
      cases hrest : inDirs.mapM (matchesIn t (ignore.map t.canonicalOr) extension) with
      | ok founds =>
        rw [hrest] at h
        cases h
      | error e =>
        rw [hrest] at h
        obtain rfl := Except.error.inj h
        obtain ⟨directory, -, hbad⟩ := exists_of_mapM_eq_error hrest
        exact absurd (((matchesIn_eq_badPattern_iff hslash).1 hbad).2.symm.trans hts) nofun

/-- **With valid settings the search does not fail**, if there is no bracket in the extension, and
what counts has the extension, up to what its question marks stand for. -/
theorem sources_of_validate {s : Settings} (h : s.validate = .ok ())
    (hopen : '[' ∉ s.extension.toList) (t : FileTree) :
    sources t s.inDirs s.ignore s.extension ≠ .error .badPattern ∧
      ∀ directory found,
        matchesIn t (s.ignore.map t.canonicalOr) s.extension directory = .ok found →
        ∀ r ∈ found, ∃ stem e, r.fileName? = some (stem ++ "." ++ e) ∧
          List.Forall₂ Glob.StandsFor s.extension.toList e.toList ∧
          ('?' ∉ s.extension.toList → e = s.extension) := by
  obtain ⟨-, -, hextension, -⟩ := Settings.validate_eq_ok_iff.1 h
  obtain ⟨-, hslash, hstar⟩ := Settings.isExtension_iff.1 hextension
  obtain ⟨ts, hts, hmatch⟩ := Glob.exists_tokens? hstar hopen (Nat.le_refl _)
  refine ⟨fun hbad => ?_, fun directory found hfound r hr => ?_⟩
  · have hnone := ((sources_eq_badPattern_iff hslash).1 hbad).2
    exact absurd (hnone.symm.trans hts) nofun
  · obtain ⟨ts', hts', hnames⟩ := exists_fileName?_of_matchesIn hslash hfound
    obtain rfl := Option.some.inj (hts.symm.trans hts')
    obtain ⟨stem, e, hname, he⟩ := hnames r hr
    have hstands := (hmatch e.toList).1 he
    exact ⟨stem, e, hname, hstands, fun hmark =>
      String.toList_inj.1 (Glob.eq_of_standsFor hmark hstands)⟩

/-- **With valid settings the search fails** if a bracket in the extension has no partner. -/
theorem sources_of_open {s : Settings} (h : s.validate = .ok ())
    (hopen : '[' ∈ s.extension.toList) (hclosed : ']' ∉ s.extension.toList) (t : FileTree) :
    sources t s.inDirs s.ignore s.extension = .error .badPattern ↔
      ∃ first, s.inDirs.head? = some first ∧ t.isDirectory first = true := by
  obtain ⟨-, -, hextension, -⟩ := Settings.validate_eq_ok_iff.1 h
  obtain ⟨-, hslash, -⟩ := Settings.isExtension_iff.1 hextension
  rw [sources_eq_badPattern_iff hslash, Glob.tokens?_eq_none hopen hclosed]
  simp

/-- Two files in `/in`. -/
def markedTree : FileTree where
  entries := .ofList [
    (["in"], .directory ⟨100, 0⟩), (["in", "app.p?"], .file .empty ⟨100, 0⟩ false),
    (["in", "app.py"], .file .empty ⟨100, 0⟩ false)]
  current := []
  clock := ⟨200, 0⟩

/-- A question mark finds more than itself, and an open bracket fails the search. Both are valid. -/
example : (∀ e ∈ ["p?", "p["],
    ({ Settings.default with inDirs := [⟨"in"⟩], extension := e } : Settings).validate = .ok ()) ∧
    (sources markedTree [⟨"in"⟩] [] "p?").toOption = some [⟨"/in/app.p?"⟩, ⟨"/in/app.py"⟩] ∧
    sources markedTree [⟨"in"⟩] [] "p[" = .error .badPattern := by
  refine ⟨by decide, by decide +kernel, ?_⟩
  exact (sources_eq_badPattern_iff (by decide)).2
    ⟨⟨_, rfl, by decide +kernel⟩, Glob.tokens?_eq_none (by decide) (by decide)⟩

end Discovery

end QmlStubs
