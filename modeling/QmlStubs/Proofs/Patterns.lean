import Mathlib.Tactic.Common
import QmlStubs.Glob.Search
import QmlStubs.Proofs.Places

/-!
# Patterns below a directory

A refresh looks for files by patterns of the form `<directory>/**/<name>`, with the directory's own
text escaped. An escaped part matches itself alone (`tokensMatch_map_tokenOf`), whatever characters
are in it, so **the pattern has one part for each part of the directory's path, and two more**
(`ofChars?_below`).
-/

set_option autoImplicit false

namespace QmlStubs

open FileTree

namespace Text

/-- A text without the separator goes to the first part. -/
theorem split_append_left {sep : Char} {s : List Char} (hs : sep ∉ s) {u part : List Char}
    {parts : List (List Char)} (hu : split sep u = part :: parts) :
    split sep (s ++ u) = (s ++ part) :: parts := by
  induction s with
  | nil => exact hu
  | cons c s ih =>
    rw [List.mem_cons, not_or] at hs
    rw [List.cons_append, split, if_neg (Ne.symm hs.1), ih hs.2]
    rfl

end Text

namespace Glob

/-! ## Escaped parts -/

-- A text is searched for a character, also where all characters can be searched.
attribute [local instance (high)] List.decidableBEx

/-- A character that has a meaning in patterns. -/
def IsSpecial (c : Char) : Prop := c = '?' ∨ c = '*' ∨ c = '[' ∨ c = ']'

instance (c : Char) : Decidable (IsSpecial c) :=
  inferInstanceAs (Decidable (c = '?' ∨ c = '*' ∨ c = '[' ∨ c = ']'))

/-- The token that an escaped character becomes. -/
def tokenOf (c : Char) : Token := if IsSpecial c then .oneOf [.one c] else .char c

theorem escape_nil : escape [] = [] := rfl

theorem escape_cons (c : Char) (s : List Char) :
    escape (c :: s) = (if IsSpecial c then ['[', c, ']'] else [c]) ++ escape s := by
  unfold escape
  rw [List.flatMap_cons]
  congr 1
  have hiff : (decide (c = '?') || decide (c = '*') || decide (c = '[') || decide (c = ']')) =
      true ↔ IsSpecial c := by
    unfold IsSpecial
    simp [or_assoc]
  by_cases hc : IsSpecial c
  · rw [if_pos hc, if_pos (hiff.2 hc)]
  · rw [if_neg hc, if_neg (hiff.not.2 hc)]

theorem tokens?_char {c : Char} (h : c ≠ '?' ∧ c ≠ '*' ∧ c ≠ '[') (fuel : Nat) (rest : List Char) :
    tokens? (fuel + 1) (c :: rest) = (tokens? fuel rest).map (.char c :: ·) := by
  rw [tokens?.eq_def]
  split <;> simp_all

theorem tokens?_plain {c : Char} (h : ¬ IsSpecial c) (fuel : Nat) (rest : List Char) :
    tokens? (fuel + 1) (c :: rest) = (tokens? fuel rest).map (.char c :: ·) := by
  unfold IsSpecial at h
  simp only [not_or] at h
  obtain ⟨hq, hs, ho, -⟩ := h
  exact tokens?_char ⟨hq, hs, ho⟩ fuel rest

theorem tokens?_special {c : Char} (h : IsSpecial c) (fuel : Nat) (rest : List Char) :
    tokens? (fuel + 1) ('[' :: c :: ']' :: rest) =
      (tokens? fuel rest).map (.oneOf [.one c] :: ·) := by
  rcases h with rfl | rfl | rfl | rfl <;>
    cases hr : tokens? fuel rest <;>
    simp [tokens?, untilBracket?, charSpecs, hr]

/-- **An escaped part has one token for each character.** -/
theorem tokens?_escape (s : List Char) {fuel : Nat} (h : s.length ≤ fuel) :
    tokens? fuel (escape s) = some (s.map tokenOf) := by
  induction s generalizing fuel with
  | nil => cases fuel <;> rfl
  | cons c s ih =>
    obtain ⟨fuel, rfl⟩ : ∃ n, fuel = n + 1 := ⟨fuel - 1, by simp at h; omega⟩
    have ih : tokens? fuel (escape s) = some (s.map tokenOf) := ih (by simpa using h)
    rw [escape_cons, List.map_cons]
    by_cases hc : IsSpecial c
    · rw [if_pos hc, List.cons_append, List.cons_append, List.cons_append, List.nil_append,
        tokens?_special hc, ih, tokenOf, if_pos hc]
      rfl
    · rw [if_neg hc, List.singleton_append, tokens?_plain hc, ih, tokenOf, if_neg hc]
      rfl

theorem literalChars?_map_tokenOf (s : List Char) :
    literalChars? (s.map tokenOf) = if ∃ c ∈ s, IsSpecial c then none else some s := by
  induction s with
  | nil => simp [literalChars?]
  | cons c s ih =>
    rw [List.map_cons, tokenOf]
    by_cases hc : IsSpecial c
    · rw [if_pos hc, literalChars?, if_pos ⟨c, List.mem_cons_self .., hc⟩]
      exact nofun
    · rw [if_neg hc, literalChars?, ih]
      by_cases hs : ∃ c ∈ s, IsSpecial c
      · rw [if_pos hs, if_pos (hs.imp fun d hd => ⟨List.mem_cons_of_mem _ hd.1, hd.2⟩)]
        rfl
      · rw [if_neg hs, if_neg]
        · rfl
        · rintro ⟨d, hd, hspecial⟩
          rcases List.mem_cons.1 hd with rfl | hd
          · exact hc hspecial
          · exact hs ⟨d, hd, hspecial⟩

/-- **Escaped tokens match the text alone.** -/
theorem tokensMatch_map_tokenOf (s u : List Char) :
    tokensMatch (s.map tokenOf) u = true ↔ u = s := by
  induction s generalizing u with
  | nil => simp [tokensMatch]
  | cons c s ih =>
    rw [List.map_cons, tokenOf]
    cases u with
    | nil => split <;> simp [tokensMatch]
    | cons a u =>
      have hrest := ih u
      split
      · simp [tokensMatch, CharSpec.holds, hrest]
      · simp [tokensMatch, hrest, eq_comm (a := c)]

/-- The part of a pattern that an escaped part becomes. -/
def partOf (s : List Char) : Part :=
  if ∃ c ∈ s, IsSpecial c then .names (s.map tokenOf) else .literal (String.ofList s)

theorem length_le_escape (s : List Char) : s.length ≤ (escape s).length := by
  induction s with
  | nil => exact Nat.le_refl _
  | cons c s ih =>
    rw [escape_cons, List.length_cons, List.length_append]
    split <;> simp <;> omega

theorem part?_escape (s : List Char) : part? (escape s) = some (partOf s) := by
  have hstars : escape s ≠ ['*', '*'] := by
    cases s with
    | nil => simp [escape_nil]
    | cons c s =>
      rw [escape_cons]
      by_cases hc : IsSpecial c
      · rw [if_pos hc]
        intro h
        exact absurd (List.cons.inj h).1 (by decide)
      · rw [if_neg hc]
        intro h
        exact hc (.inr (.inl (List.cons.inj h).1))
  unfold part? partOf
  rw [if_neg hstars, tokens?_escape s (length_le_escape s), Option.map_some,
    literalChars?_map_tokenOf]
  by_cases hs : ∃ c ∈ s, IsSpecial c
  · rw [if_pos hs, if_pos hs]
  · rw [if_neg hs, if_neg hs]

theorem partOf_ne_anyDepth (s : List Char) : partOf s ≠ .anyDepth := by
  unfold partOf
  split <;> simp

/-! ## Matching -/

theorem anyEnd_iff {test : List Char → Bool} {s : List Char} :
    anyEnd test s = true ↔ ∃ u v, s = u ++ v ∧ test v = true := by
  induction s with
  | nil => simp [anyEnd]
  | cons c s ih =>
    rw [anyEnd, Bool.or_eq_true, ih]
    constructor
    · rintro (h | ⟨u, v, rfl, h⟩)
      · exact ⟨[], c :: s, rfl, h⟩
      · exact ⟨c :: u, v, rfl, h⟩
    · rintro ⟨u, v, hs, h⟩
      rcases List.cons_eq_append_iff.1 hs with ⟨rfl, rfl⟩ | ⟨u, rfl, rfl⟩
      · exact .inl h
      · exact .inr ⟨u, v, rfl, h⟩

/-- Plain characters match themselves. -/
theorem tokensMatch_chars {cs s : List Char} {ts : List Token} :
    tokensMatch (cs.map .char ++ ts) s = true ↔ ∃ u, s = cs ++ u ∧ tokensMatch ts u = true := by
  induction cs generalizing s with
  | nil => simp
  | cons c cs ih =>
    rw [List.map_cons, List.cons_append]
    cases s with
    | nil => simp [tokensMatch]
    | cons d s =>
      rw [tokensMatch, Bool.and_eq_true, decide_eq_true_iff, ih]
      constructor
      · rintro ⟨rfl, u, rfl, h⟩
        exact ⟨u, rfl, h⟩
      · rintro ⟨u, hs, h⟩
        obtain ⟨rfl, rfl⟩ := List.cons.inj hs
        exact ⟨rfl, u, rfl, h⟩

/-! ## The pattern of a directory -/

theorem split_escape (s : List Char) :
    Text.split '/' (escape s) = (Text.split '/' s).map escape := by
  induction s with
  | nil => rfl
  | cons c s ih =>
    obtain ⟨part, parts, hparts⟩ := List.exists_cons_of_ne_nil (Text.split_ne_nil '/' s)
    rw [hparts, List.map_cons] at ih
    by_cases hc : c = '/'
    · subst hc
      have hplain : ¬ IsSpecial '/' := by decide
      rw [escape_cons, if_neg hplain, List.singleton_append, Text.split, if_pos rfl, ih, Text.split,
        if_pos rfl, hparts]
      rfl
    · have hpiece : '/' ∉ (if IsSpecial c then ['[', c, ']'] else [c]) := by
        split <;> simp [Ne.symm hc]
      rw [escape_cons, Text.split_append_left hpiece ih, Text.split, if_neg hc, hparts]
      dsimp only
      rw [List.map_cons, escape_cons]

theorem mergeDepths_append {parts : List Part} (h : ∀ x ∈ parts, x ≠ .anyDepth) (rest : List Part) :
    mergeDepths (parts ++ rest) = parts ++ mergeDepths rest := by
  induction parts with
  | nil => rfl
  | cons x parts ih =>
    have hx := h x (List.mem_cons_self ..)
    have ih := ih fun y hy => h y (List.mem_cons_of_mem _ hy)
    rw [List.cons_append, List.cons_append, ← ih]
    cases x with
    | anyDepth => exact absurd rfl hx
    | literal name => rw [mergeDepths]; simp
    | names ts => rw [mergeDepths]; simp

theorem mapM_map_some {α β γ : Type} {f : β → Option γ} {g : α → β} {k : α → γ}
    (h : ∀ a, f (g a) = some (k a)) (l : List α) : (l.map g).mapM f = some (l.map k) := by
  induction l with
  | nil => rfl
  | cons a l ih =>
    rw [List.map_cons, List.mapM_cons, h, ih]
    rfl

/-- Where the search for a path starts. -/
def searchStart (p : Path) : Path := ⟨if p.isAbsolute then "/" else "."⟩

/-- The text of a path from where its search starts. -/
def searchText (p : Path) : List Char :=
  if p.isAbsolute then p.text.toList.drop 1 else p.text.toList

/-- The parts between the slashes of a path. -/
def partsOf (p : Path) : List (List Char) := Text.split '/' (searchText p)

theorem ofChars?_slash (s : List Char) :
    Pattern.ofChars? ('/' :: s) = ((partTexts s).mapM part?).map fun parts =>
      ⟨⟨"/"⟩, mergeDepths parts, ('/' :: s).getLast? = some '/'⟩ := by
  unfold Pattern.ofChars?
  split
  next start rest hstart =>
    have hslash : (start, rest) = ("/", s) := hstart.symm
    obtain ⟨rfl, rfl⟩ := Prod.mk.inj hslash
    cases (partTexts rest).mapM part? <;> rfl

theorem ofChars?_relative {s : List Char} (h : s.head? ≠ some '/') :
    Pattern.ofChars? s = ((partTexts s).mapM part?).map fun parts =>
      ⟨⟨"."⟩, mergeDepths parts, s.getLast? = some '/'⟩ := by
  unfold Pattern.ofChars?
  split
  next start rest hstart =>
    have hdot : (start, rest) = (".", s) := by
      rw [← hstart]
      split
      next => exact absurd rfl h
      next => rfl
    obtain ⟨rfl, rfl⟩ := Prod.mk.inj hdot
    cases (partTexts rest).mapM part? <;> rfl

theorem head?_escape {s : List Char} (h : s.head? ≠ some '/') (hne : s ≠ []) (u : List Char) :
    (escape s ++ u).head? ≠ some '/' := by
  obtain ⟨c, r, rfl⟩ := List.exists_cons_of_ne_nil hne
  rw [escape_cons]
  split
  · simp
  · simpa using h

/-- The parts behind a slash are read by themselves. -/
theorem partTexts_append (s u : List Char) :
    partTexts (s ++ '/' :: u) = Text.split '/' s ++ partTexts u := by
  have hne := Text.split_ne_nil '/' u
  unfold partTexts
  dsimp only
  rw [Text.split_append, List.getLast?_append_of_ne_nil _ hne]
  split
  · exact List.dropLast_append_of_ne_nil hne
  · rfl

/-- The parts of a directory's own text, and those of what follows it. -/
theorem mapM_partTexts_escape (r u : List Char) :
    (partTexts (escape r ++ '/' :: u)).mapM part? =
      ((partTexts u).mapM part?).map ((Text.split '/' r).map partOf ++ ·) := by
  rw [partTexts_append, split_escape, List.mapM_append, mapM_map_some part?_escape]
  cases (partTexts u).mapM part? <;> rfl

theorem mergeDepths_map_partOf (parts : List (List Char)) (rest : List Part) :
    mergeDepths (parts.map partOf ++ rest) = parts.map partOf ++ mergeDepths rest := by
  refine mergeDepths_append (fun x hx => ?_) rest
  obtain ⟨s, -, rfl⟩ := List.mem_map.1 hx
  exact partOf_ne_anyDepth s

/-- **The pattern of a directory and a text behind it.** -/
theorem ofChars?_escape {p : Path} (hp : p.text ≠ "") (u : List Char) :
    Pattern.ofChars? (escape p.text.toList ++ '/' :: u) =
      ((partTexts u).mapM part?).map fun parts =>
        ⟨searchStart p, (partsOf p).map partOf ++ mergeDepths parts,
          ('/' :: u).getLast? = some '/'⟩ := by
  have hend : ∀ s : List Char, (s ++ '/' :: u).getLast? = ('/' :: u).getLast? := fun s =>
    List.getLast?_append_of_ne_nil s (by simp)
  unfold partsOf searchText searchStart
  cases habs : p.isAbsolute with
  | true =>
    obtain ⟨r, hr⟩ : ∃ r, p.text.toList = '/' :: r := by
      unfold Path.isAbsolute at habs
      obtain ⟨c, r, hcons⟩ := List.exists_cons_of_ne_nil (toList_ne_nil hp)
      rw [hcons] at habs ⊢
      exact ⟨r, by simpa using habs⟩
    have htext : escape p.text.toList ++ '/' :: u = '/' :: (escape r ++ '/' :: u) := by
      rw [hr, escape_cons, if_neg (by decide)]
      rfl
    rw [← hend (escape p.text.toList), htext, hr, ofChars?_slash, mapM_partTexts_escape,
      Option.map_map]
    simp only [Function.comp_def, mergeDepths_map_partOf]
    rfl
  | false =>
    have hhead : p.text.toList.head? ≠ some '/' := by
      unfold Path.isAbsolute at habs
      simpa using habs
    rw [← hend (escape p.text.toList), ofChars?_relative (head?_escape hhead (toList_ne_nil hp) _),
      mapM_partTexts_escape, Option.map_map]
    simp only [Function.comp_def, mergeDepths_map_partOf]
    rfl

section Below

variable {last : List Char} {part : Part}

theorem partTexts_of_not_mem (hlast : '/' ∉ last) (hne : last ≠ []) : partTexts last = [last] := by
  unfold partTexts
  simp [Text.split_eq_singleton hlast, hne]

/-- The pattern for a text at any depth has one part more. -/
theorem mapM_partTexts_anyDepth (u : List Char) :
    (partTexts ('*' :: '*' :: '/' :: u)).mapM part? =
      ((partTexts u).mapM part?).map (.anyDepth :: ·) := by
  have hstars : '*' :: '*' :: '/' :: u = ['*', '*'] ++ '/' :: u := rfl
  rw [hstars, partTexts_append, Text.split_eq_singleton (s := ['*', '*']) (by decide),
    List.singleton_append, List.mapM_cons]
  cases (partTexts u).mapM part? <;> rfl

/-- The pattern for a name at any depth has two parts. -/
theorem mapM_partTexts_deep (hlast : '/' ∉ last) (hne : last ≠ []) (hpart : part? last = some part) :
    (partTexts ('*' :: '*' :: '/' :: last)).mapM part? = some [.anyDepth, part] := by
  rw [mapM_partTexts_anyDepth, partTexts_of_not_mem hlast hne, List.mapM_cons, hpart]
  rfl

theorem mergeDepths_deep (hany : part ≠ .anyDepth) :
    mergeDepths [.anyDepth, part] = [.anyDepth, part] := by
  cases part with
  | anyDepth => exact absurd rfl hany
  | literal name => rfl
  | names ts => rfl

/-- Its text does not end in a slash. -/
theorem getLast?_deep (hlast : '/' ∉ last) (hne : last ≠ []) :
    ('/' :: '*' :: '*' :: '/' :: last).getLast? ≠ some '/' := by
  intro h
  have hmem : last.getLast? = some '/' := by
    rwa [show '/' :: '*' :: '*' :: '/' :: last = ['/', '*', '*', '/'] ++ last from rfl,
      List.getLast?_append_of_ne_nil _ hne] at h
  exact hlast (List.mem_of_getLast? hmem)

/-- **The pattern for a name at any depth below a directory.** -/
theorem ofChars?_below {p : Path} (hp : p.text ≠ "") (hlast : '/' ∉ last) (hne : last ≠ [])
    (hpart : part? last = some part) (hany : part ≠ .anyDepth) :
    Pattern.ofChars? (escape p.text.toList ++ '/' :: '*' :: '*' :: '/' :: last) =
      some ⟨searchStart p, (partsOf p).map partOf ++ [.anyDepth, part], false⟩ := by
  rw [ofChars?_escape hp, mapM_partTexts_deep hlast hne hpart, Option.map_some,
    mergeDepths_deep hany, decide_eq_false (getLast?_deep hlast hne)]

end Below

/-- **The search for a text at any depth**, from the start of the directory's path. -/
theorem pathsBelow?_deep {t : FileTree} {p : Path} (hp : p.text ≠ "") (u : List Char) :
    pathsBelow? t p ('*' :: '*' :: '/' :: u) = ((partTexts u).mapM part?).map fun parts =>
      search t (('/' :: '*' :: '*' :: '/' :: u).getLast? = some '/')
        ((partsOf p).map partOf ++ mergeDepths (.anyDepth :: parts)) (searchStart p) := by
  unfold pathsBelow?
  rw [ofChars?_escape hp, mapM_partTexts_anyDepth, Option.map_map, Option.map_map]
  rfl

end Glob

end QmlStubs
