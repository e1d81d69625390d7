import Mathlib.Data.List.Nodup
import QmlStubs.Proofs.Patterns
import QmlStubs.Proofs.Sites

/-!
# Searching below a site

A search goes down to its directory part by part and lists what lies below. Its results are spelled
with a tidier text than the directory was given in (`spelled`), but with the same steps and
components. The main fact is what a refresh rests on:

> **exactly the entries below the site whose names match are found** (`exists_pathsBelow?`),
> except those whose paths would be too long to use.
-/

set_option autoImplicit false

namespace QmlStubs

open FileTree

namespace Glob

/-! ## How a search spells a path -/

/-- A text without one slash at its end. -/
def stem (s : List Char) : List Char := if s.getLast? = some '/' then s.dropLast else s

theorem stem_concat_slash (s : List Char) : stem (s ++ ['/']) = s := by
  unfold stem
  rw [List.getLast?_concat, if_pos rfl, List.dropLast_concat]

theorem stem_of_not_mem {s x : List Char} (hx : '/' ∉ x) (hne : x ≠ []) :
    stem (s ++ x) = s ++ x := by
  unfold stem
  rw [if_neg]
  intro h
  rw [List.getLast?_append] at h
  cases hl : x.getLast? with
  | none => exact hne (List.getLast?_eq_none_iff.1 hl)
  | some c =>
    rw [hl] at h
    exact hx (List.mem_of_getLast? (hl.trans h))

section Spelling

variable {p q : Path}

/-- A relative path goes behind another one with one slash between them. -/
theorem text_join_stem (hp : p.text ≠ "") {x : String} (hx : x.toList.head? ≠ some '/') :
    (p.join x).text.toList = stem p.text.toList ++ '/' :: x.toList := by
  unfold Path.join stem
  rw [if_neg hx]
  split
  next h =>
    rw [List.getLast?_eq_none_iff] at h
    exact absurd h (toList_ne_nil hp)
  next h =>
    obtain ⟨s, hs⟩ := List.getLast?_eq_some_iff.1 h
    rw [if_pos h, String.toList_append, hs, List.dropLast_concat, List.append_assoc]
    rfl
  next c hc h =>
    rw [if_neg (by rw [h]; simpa using hc)]
    simp

/-- A part behind a path. -/
def joinPart (p : Path) (s : List Char) : Path := p.join (String.ofList s)

variable {s : List Char}

theorem isDirect_joinPart (hp : p.IsDirect) (hs : '/' ∉ s) : (joinPart p s).IsDirect :=
  isDirect_join hp (by rwa [String.toList_ofList])

theorem isAbsolute_joinPart (hp : p.text ≠ "") (hs : '/' ∉ s) :
    (joinPart p s).isAbsolute = p.isAbsolute :=
  isAbsolute_join_part hp (by rwa [String.toList_ofList])

theorem coreSteps_joinPart (hp : p.text ≠ "") (hs : '/' ∉ s) :
    coreSteps (joinPart p s) = coreSteps p ++ (stepOf? s).toList := by
  unfold joinPart
  rw [coreSteps_join hp (by rwa [String.toList_ofList]), String.toList_ofList]

theorem components_joinPart (hp : p.text ≠ "") (hs : '/' ∉ s) :
    (joinPart p s).components = p.components ++ (Path.componentOf? s).toList := by
  unfold joinPart
  rw [components_join hp (by rwa [String.toList_ofList]), String.toList_ofList]

theorem text_joinPart (hp : p.text ≠ "") (hs : '/' ∉ s) :
    (joinPart p s).text.toList = stem p.text.toList ++ '/' :: s := by
  unfold joinPart
  rw [text_join_stem hp (head?_ne_slash (by rwa [String.toList_ofList])), String.toList_ofList]

variable {parts : List (List Char)}

theorem isDirect_foldl_joinPart (hp : p.IsDirect) (hparts : ∀ s ∈ parts, '/' ∉ s) :
    (parts.foldl joinPart p).IsDirect ∧
      (parts.foldl joinPart p).isAbsolute = p.isAbsolute := by
  induction parts generalizing p with
  | nil => exact ⟨hp, rfl⟩
  | cons s parts ih =>
    have hs := hparts s (List.mem_cons_self ..)
    obtain ⟨hdirect, habs⟩ := ih (isDirect_joinPart hp hs) fun u hu =>
      hparts u (List.mem_cons_of_mem _ hu)
    exact ⟨hdirect, habs.trans (isAbsolute_joinPart hp.ne_empty hs)⟩

theorem coreSteps_foldl_joinPart (hp : p.IsDirect) (hparts : ∀ s ∈ parts, '/' ∉ s) :
    coreSteps (parts.foldl joinPart p) = coreSteps p ++ parts.filterMap stepOf? := by
  induction parts generalizing p with
  | nil => exact (List.append_nil _).symm
  | cons s parts ih =>
    have hs := hparts s (List.mem_cons_self ..)
    rw [List.foldl_cons, ih (isDirect_joinPart hp hs) fun u hu =>
      hparts u (List.mem_cons_of_mem _ hu), coreSteps_joinPart hp.ne_empty hs, List.append_assoc]
    cases h : stepOf? s <;> simp [h]

theorem components_foldl_joinPart (hp : p.IsDirect) (hparts : ∀ s ∈ parts, '/' ∉ s) :
    (parts.foldl joinPart p).components =
      p.components ++ parts.filterMap Path.componentOf? := by
  induction parts generalizing p with
  | nil => exact (List.append_nil _).symm
  | cons s parts ih =>
    have hs := hparts s (List.mem_cons_self ..)
    rw [List.foldl_cons, ih (isDirect_joinPart hp hs) fun u hu =>
      hparts u (List.mem_cons_of_mem _ hu), components_joinPart hp.ne_empty hs, List.append_assoc]
    cases h : Path.componentOf? s <;> simp [h]

/-- Empty parts leave no trace before the last part. -/
theorem stem_foldl_joinPart (hp : p.IsDirect) (hparts : ∀ s ∈ parts, '/' ∉ s) :
    stem (parts.foldl joinPart p).text.toList =
      stem p.text.toList ++ (parts.filter (· ≠ [])).flatMap ('/' :: ·) := by
  induction parts using List.reverseRecOn with
  | nil => exact (List.append_nil _).symm
  | append_singleton parts s ih =>
    have hparts' : ∀ u ∈ parts, '/' ∉ u := fun u hu => hparts u (by simp [hu])
    have hs : '/' ∉ s := hparts s (by simp)
    rw [List.foldl_append, List.foldl_cons, List.foldl_nil,
      text_joinPart (isDirect_foldl_joinPart hp hparts').1.ne_empty hs, ih hparts',
      List.filter_append, List.flatMap_append]
    by_cases hnil : s = []
    · rw [hnil, stem_concat_slash]
      simp
    · rw [List.append_cons, stem_of_not_mem hs hnil]
      simp [hnil]

theorem not_mem_of_mem_partsOf (h : s ∈ partsOf p) : '/' ∉ s :=
  Text.not_mem_of_mem_split h

theorem slash_joinWith {parts : List (List Char)} (hne : parts ≠ []) :
    '/' :: Text.joinWith '/' parts = parts.flatMap ('/' :: ·) := by
  induction parts with
  | nil => exact absurd rfl hne
  | cons s parts ih =>
    cases parts with
    | nil => simp [Text.joinWith]
    | cons u parts =>
      rw [Text.joinWith, List.flatMap_cons, ← ih (by simp)]
      · rfl
      · simp

theorem joinWith_cons (first : List Char) (rest : List (List Char)) :
    Text.joinWith '/' (first :: rest) = first ++ rest.flatMap ('/' :: ·) := by
  cases rest with
  | nil => simp [Text.joinWith]
  | cons s rest =>
    rw [← slash_joinWith (by simp)]
    rfl

/-- How a search spells the start of a path: the root, or the first part. -/
def spelledHead (p : Path) : Path :=
  if p.isAbsolute then ⟨"/"⟩ else ⟨String.ofList ((partsOf p).headD [])⟩

/-- The parts after the start of a path. -/
def tailOf (p : Path) : List (List Char) :=
  if p.isAbsolute then partsOf p else (partsOf p).tail

/-- How a search spells a path: part by part from its start. -/
def spelled (p : Path) : Path := (tailOf p).foldl joinPart (spelledHead p)

/-- What a path is put together from. -/
structure SplitsOff (p first : Path) (parts : List (List Char)) : Prop where
  direct : first.IsDirect
  absolute : first.isAbsolute = p.isAbsolute
  plain : ∀ s ∈ parts, '/' ∉ s
  text : p.text.toList = stem first.text.toList ++ parts.flatMap ('/' :: ·)
  alone : parts = [] → p.text.toList = first.text.toList
  steps : coreSteps p = coreSteps first ++ parts.filterMap stepOf?
  components : p.components = first.components ++ parts.filterMap Path.componentOf?

/-- The first part of a relative path that is direct is neither empty nor a dot. -/
theorem exists_first (hp : p.IsDirect) (habs : p.isAbsolute = false) :
    ∃ first rest, partsOf p = first :: rest ∧ first ≠ [] ∧ first ≠ ['.'] ∧ '/' ∉ first := by
  obtain ⟨first, rest, hparts, hfirst⟩ := exists_split_relative habs hp.ne_empty
  have hof : partsOf p = first :: rest := by
    unfold partsOf searchText
    rw [habs]
    exact hparts
  refine ⟨first, rest, hof, hfirst, ?_, not_mem_of_mem_partsOf (hof ▸ List.mem_cons_self ..)⟩
  rintro rfl
  have hlead := leadOf_direct hp
  rw [hparts, habs] at hlead
  exact absurd hlead (by simp [leadOf])

/-- A part by itself is a relative path. -/
theorem split_part (hs : '/' ∉ s) : Text.split '/' (Path.mk (String.ofList s)).text.toList = [s] := by
  rw [String.toList_ofList, Text.split_eq_singleton hs]

theorem isAbsolute_part (hs : '/' ∉ s) : (Path.mk (String.ofList s)).isAbsolute = false := by
  unfold Path.isAbsolute
  rw [String.toList_ofList]
  refine beq_eq_false_iff_ne.2 fun h => hs ?_
  exact List.mem_of_mem_head? h

theorem components_part (hs : '/' ∉ s) (hdot : s ≠ ['.']) :
    (Path.mk (String.ofList s)).components = (Path.componentOf? s).toList := by
  rw [components_eq, split_part hs]
  have hlead : leadOf [s] = [] := by
    unfold leadOf
    split
    next h => exact absurd (List.cons.inj h).1 hdot
    next h => exact absurd (List.cons.inj h).2 (by simp)
    next => rfl
  rw [hlead, List.nil_append]
  cases h : Path.componentOf? s <;> simp [h]

theorem coreSteps_part (hs : '/' ∉ s) :
    coreSteps ⟨String.ofList s⟩ = (stepOf? s).toList := by
  unfold coreSteps
  rw [split_part hs]
  cases h : stepOf? s <;> simp [h]

theorem isDirect_part (hs : '/' ∉ s) (hne : s ≠ []) (hdot : s ≠ ['.']) :
    (Path.mk (String.ofList s)).IsDirect := by
  refine ⟨fun he => hne ?_, ?_⟩
  · have hlist := congrArg String.toList he
    rwa [String.toList_ofList] at hlist
  · rw [components_part hs hdot]
    cases hc : Path.componentOf? s with
    | none => simp
    | some c =>
      intro hhere
      obtain rfl : c = .here := by simpa using hhere
      cases isInner_of_componentOf? hs hc

/-- **A direct path is put together from its start and its parts.** -/
theorem splitsOff (hp : p.IsDirect) : SplitsOff p (spelledHead p) (tailOf p) := by
  unfold spelledHead tailOf
  cases habs : p.isAbsolute with
  | true =>
    obtain ⟨r, hr⟩ := exists_text_absolute habs
    have hparts : partsOf p = Text.split '/' r := by
      unfold partsOf searchText
      rw [habs, hr]
      rfl
    have hsplit : Text.split '/' p.text.toList = [] :: partsOf p := by
      rw [hr, Text.split, if_pos rfl, hparts]
    rw [if_pos rfl, if_pos rfl]
    refine ⟨by decide, habs.symm, fun _ => not_mem_of_mem_partsOf, ?_, fun hnil => ?_, ?_, ?_⟩
    · rw [hparts, ← slash_joinWith (Text.split_ne_nil '/' r),
        Text.joinWith_split, hr]
      rfl
    · rw [hparts] at hnil
      exact absurd hnil (Text.split_ne_nil '/' r)
    · unfold coreSteps
      rw [hsplit]
      rfl
    · rw [components_eq, leadOf_absolute habs, hsplit]
      rfl
  | false =>
    obtain ⟨first, rest, hparts, hfirst, hdot, hslash⟩ := exists_first hp habs
    have hsplit : Text.split '/' p.text.toList = first :: rest := by
      rw [← hparts]
      unfold partsOf searchText
      rw [habs]
      rfl
    have htext : p.text.toList = first ++ rest.flatMap ('/' :: ·) := by
      rw [← joinWith_cons, ← hsplit, Text.joinWith_split]
    simp only [Bool.false_eq_true, if_false, hparts, List.headD_cons, List.tail_cons]
    refine ⟨isDirect_part hslash hfirst hdot, (isAbsolute_part hslash).trans habs.symm,
      fun s hs => not_mem_of_mem_partsOf (p := p) (hparts ▸ List.mem_cons_of_mem _ hs), ?_,
      fun hnil => ?_, ?_, ?_⟩
    · have hstem : stem (String.ofList first).toList = first := by
        rw [String.toList_ofList]
        exact stem_of_not_mem (s := []) hslash hfirst
      rw [hstem, htext]
    · rw [htext, hnil, String.toList_ofList]
      simp
    · rw [coreSteps_part hslash]
      unfold coreSteps
      rw [hsplit]
      cases h : stepOf? first <;> simp [h]
    · rw [components_part hslash hdot, components_eq, leadOf_direct hp, habs, hsplit]
      cases h : Path.componentOf? first <;> simp [h]

theorem isDirect_spelled (hp : p.IsDirect) : (spelled p).IsDirect :=
  (isDirect_foldl_joinPart (splitsOff hp).direct (splitsOff hp).plain).1

theorem isAbsolute_spelled (hp : p.IsDirect) : (spelled p).isAbsolute = p.isAbsolute :=
  (isDirect_foldl_joinPart (splitsOff hp).direct (splitsOff hp).plain).2.trans
    (splitsOff hp).absolute

/-- **A search takes the same steps**, -/
theorem coreSteps_spelled (hp : p.IsDirect) : coreSteps (spelled p) = coreSteps p := by
  have h := splitsOff hp
  unfold spelled
  rw [coreSteps_foldl_joinPart h.direct h.plain, ← h.steps]

/-- and **spells the same components**. -/
theorem components_spelled (hp : p.IsDirect) : (spelled p).components = p.components := by
  have h := splitsOff hp
  unfold spelled
  rw [components_foldl_joinPart h.direct h.plain, ← h.components]

theorem flatMap_filter_sublist (parts : List (List Char)) :
    ((parts.filter (· ≠ [])).flatMap ('/' :: ·)).Sublist (parts.flatMap ('/' :: ·)) := by
  induction parts with
  | nil => exact List.Sublist.refl _
  | cons s parts ih =>
    rw [List.flatMap_cons]
    by_cases hs : s = []
    · rw [List.filter_cons_of_neg (by simpa using hs)]
      exact ih.trans (List.sublist_append_right ..)
    · rw [List.filter_cons_of_pos (by simpa using hs), List.flatMap_cons]
      exact List.Sublist.append_left ih _

/-- The text of a search is not longer, with or without a slash at its end. -/
theorem text_spelled_sublist (hp : p.IsDirect) :
    (spelled p).text.toList.Sublist p.text.toList ∧
      (stem (spelled p).text.toList).Sublist (stem p.text.toList) := by
  have h := splitsOff hp
  unfold spelled
  rcases List.eq_nil_or_concat' (tailOf p) with hnil | ⟨init, last, hparts⟩
  · rw [h.alone hnil, hnil]
    exact ⟨List.Sublist.refl _, List.Sublist.refl _⟩
  · have hinit : ∀ s ∈ init, '/' ∉ s := fun s hs => h.plain s (by rw [hparts]; simp [hs])
    have hlast : '/' ∉ last := h.plain last (by rw [hparts]; simp)
    have htext : p.text.toList =
        stem (spelledHead p).text.toList ++ init.flatMap ('/' :: ·) ++ '/' :: last := by
      rw [h.text, hparts]
      simp
    have hspelled : ((tailOf p).foldl joinPart (spelledHead p)).text.toList =
        stem (spelledHead p).text.toList ++ (init.filter (· ≠ [])).flatMap ('/' :: ·) ++
          '/' :: last := by
      rw [hparts, List.foldl_append, List.foldl_cons, List.foldl_nil,
        text_joinPart (isDirect_foldl_joinPart h.direct hinit).1.ne_empty hlast,
        stem_foldl_joinPart h.direct hinit]
    have hsub := List.Sublist.append_left (flatMap_filter_sublist init)
      (stem (spelledHead p).text.toList)
    rw [htext, hspelled]
    refine ⟨hsub.append_right _, ?_⟩
    by_cases hnil : last = []
    · rw [hnil, stem_concat_slash, stem_concat_slash]
      exact hsub
    · rw [List.append_cons, stem_of_not_mem hlast hnil, List.append_cons (_ ++ init.flatMap _),
        stem_of_not_mem hlast hnil]
      exact (hsub.append_right _).append_right _

theorem text_joins (hp : p.IsDirect) {ns : List String} (hne : ns ≠ [])
    (hns : ∀ n ∈ ns, IsName n) :
    (joins p ns).text.toList = stem p.text.toList ++ ns.flatMap fun n => '/' :: n.toList := by
  induction ns using List.reverseRecOn with
  | nil => exact absurd rfl hne
  | append_singleton ns n ih =>
    have hns' : ∀ m ∈ ns, IsName m := fun m hm => hns m (by simp [hm])
    have hn := hns n (by simp)
    rw [joins_concat, text_join_stem (isDirect_joins hp hns').ne_empty (head?_ne_slash hn.no_slash),
      List.flatMap_append, List.flatMap_singleton, ← List.append_assoc]
    congr 1
    by_cases hnil : ns = []
    · rw [hnil]
      exact (List.append_nil _).symm
    · obtain ⟨init, m, rfl⟩ := (List.eq_nil_or_concat' ns).resolve_left hnil
      have hm := hns' m (by simp)
      rw [ih hnil hns', List.flatMap_append, List.flatMap_singleton, ← List.append_assoc,
        List.append_cons _ '/', stem_of_not_mem hm.no_slash (toList_ne_nil hm.ne_empty)]

theorem utf8ByteSize_ofList_cons (c : Char) (l : List Char) :
    (String.ofList (c :: l)).utf8ByteSize = c.utf8Size + (String.ofList l).utf8ByteSize := by
  have hcons : String.ofList (c :: l) = String.singleton c ++ String.ofList l :=
    String.toList_injective (by simp)
  rw [hcons, String.utf8ByteSize_append, String.utf8ByteSize_singleton]

theorem utf8ByteSize_le_of_sublist {l m : List Char} (h : l.Sublist m) :
    (String.ofList l).utf8ByteSize ≤ (String.ofList m).utf8ByteSize := by
  induction h with
  | slnil => exact Nat.le_refl _
  | cons c h ih =>
    rw [utf8ByteSize_ofList_cons]
    omega
  | cons_cons c h ih =>
    rw [utf8ByteSize_ofList_cons, utf8ByteSize_ofList_cons]
    omega

/-- A shorter text has no more wrong with it. -/
theorem textError?_of_sublist (h : q.text.toList.Sublist p.text.toList) (hq : q.text ≠ "")
    (hp : textError? p = none) : textError? q = none := by
  rw [textError?_eq_none] at hp ⊢
  have hsize := utf8ByteSize_le_of_sublist h
  rw [String.ofList_toList, String.ofList_toList] at hsize
  exact ⟨fun hmem => hp.1 (h.subset hmem), hq, Nat.le_trans hsize hp.2.2⟩

theorem textError?_spelled (hp : p.IsDirect) (h : textError? p = none) :
    textError? (spelled p) = none :=
  textError?_of_sublist (text_spelled_sublist hp).1 (isDirect_spelled hp).ne_empty h

/-- What can be used behind a path can be used behind its spelling. -/
theorem textError?_joins_spelled (hp : p.IsDirect) {ns : List String} (hne : ns ≠ [])
    (hns : ∀ n ∈ ns, IsName n) (h : textError? (joins p ns) = none) :
    textError? (joins (spelled p) ns) = none := by
  refine textError?_of_sublist ?_ (isDirect_joins (isDirect_spelled hp) hns).ne_empty h
  rw [text_joins hp hne hns, text_joins (isDirect_spelled hp) hne hns]
  exact (text_spelled_sublist hp).2.append_right _

theorem textError?_of_joinPart (hp : p.text ≠ "") (hs : '/' ∉ s)
    (h : textError? (joinPart p s) = none) : textError? p = none := by
  refine textError?_of_sublist ?_ hp h
  rw [text_joinPart hp hs]
  unfold stem
  split
  next hend =>
    obtain ⟨u, hu⟩ := List.getLast?_eq_some_iff.1 hend
    rw [hu, List.dropLast_concat, List.append_cons u '/' s]
    exact List.sublist_append_left ..
  next => exact List.sublist_append_left ..

theorem textError?_of_foldl_joinPart (hp : p.IsDirect) (hparts : ∀ s ∈ parts, '/' ∉ s)
    (h : textError? (parts.foldl joinPart p) = none) : textError? p = none := by
  induction parts generalizing p with
  | nil => exact h
  | cons s parts ih =>
    have hs := hparts s (List.mem_cons_self ..)
    exact textError?_of_joinPart hp.ne_empty hs (ih (isDirect_joinPart hp hs)
      (fun u hu => hparts u (List.mem_cons_of_mem _ hu)) h)

end Spelling

/-! ## Going down to the directory -/

section Search

variable {t : FileTree} {p q : Path} {c d : Place}

/-- The name of a place in a directory, if it is directly below the directory. -/
def nameIn? (c k : Place) : Option String :=
  match k.getLast? with
  | some n => if k.dropLast = c then some n else none
  | none => none

theorem nameIn?_eq_some {k : Place} {n : String} : nameIn? c k = some n ↔ k = c ++ [n] := by
  unfold nameIn?
  constructor
  · intro hn
    cases hlast : k.getLast? with
    | none =>
      rw [hlast] at hn
      exact absurd hn (by simp)
    | some m =>
      rw [hlast] at hn
      dsimp only at hn
      split at hn
      next hc =>
        obtain ⟨init, rfl⟩ := List.getLast?_eq_some_iff.1 hlast
        rw [List.dropLast_concat] at hc
        rw [hc, Option.some.inj hn]
      next => exact absurd hn (by simp)
  · rintro rfl
    rw [List.getLast?_concat]
    dsimp only
    rw [List.dropLast_concat, if_pos rfl]

theorem namesIn_eq : t.namesIn c = t.entries.keys.filterMap (nameIn? c) := rfl

theorem mem_namesIn {n : String} : n ∈ t.namesIn c ↔ (t.at? (c ++ [n])).isSome = true := by
  have hat : (t.at? (c ++ [n])).isSome = t.entries.contains (c ++ [n]) := by
    unfold at? SortedMap.contains
    rw [if_neg (by simp)]
  rw [namesIn_eq, hat, ← SortedMap.mem_keys, List.mem_filterMap]
  simp only [nameIn?_eq_some]
  constructor
  · rintro ⟨k, hk, rfl⟩
    exact hk
  · intro hk
    exact ⟨c ++ [n], hk, rfl⟩

theorem below_of_isDirect (hq : q.IsDirect) (n : String) : below q n = q.join n := by
  unfold below
  rw [if_neg]
  intro h
  refine hq.ne_here ?_
  rw [h]
  rfl

/-- **The children of a directory are its entries.** -/
theorem mem_children (ht : textError? q = none) (h : Reaches t q c) {r : Path} :
    r ∈ children t q ↔ ∃ n, r = below q n ∧ (t.at? (c ++ [n])).isSome = true := by
  obtain ⟨hplace, hdir⟩ := (reaches_iff ht).1 h
  unfold children list?
  rw [hplace]
  dsimp only
  rw [if_pos hdir, Option.getD_some, List.mem_map]
  constructor
  · rintro ⟨n, hn, rfl⟩
    exact ⟨n, rfl, mem_namesIn.1 hn⟩
  · rintro ⟨n, rfl, hn⟩
    exact ⟨n, mem_namesIn.2 hn, rfl⟩

/-- Nothing is listed in a directory whose path cannot be used. -/
theorem textError?_of_mem_children {r : Path} (hr : r ∈ children t q) : textError? q = none := by
  cases ht : textError? q with
  | none => rfl
  | some e =>
    have hnone : children t q = [] := by
      unfold children list? place? follow?
      rw [ht]
      rfl
    rw [hnone] at hr
    exact absurd hr (by simp)

theorem fileName?_join (hq : q.IsDirect) {n : String} (hn : IsName n) :
    (q.join n).fileName? = some n := by
  unfold Path.fileName?
  rw [components_join hq.ne_empty hn.no_slash, componentOf?_name hn, Option.toList_some,
    List.getLast?_concat]

theorem isName_of_isSpecial {s : List Char} (hs : '/' ∉ s) (h : ∃ c ∈ s, IsSpecial c) :
    IsName (String.ofList s) := by
  obtain ⟨c, hc, hspecial⟩ := h
  have hne : ∀ u : String, (∀ a ∈ u.toList, ¬ IsSpecial a) → String.ofList s ≠ u := by
    intro u hu he
    exact hu c (by rw [← he, String.toList_ofList]; exact hc) hspecial
  exact ⟨hne "" (by simp), by rwa [String.toList_ofList], hne "." (by simp [IsSpecial]),
    hne ".." (by simp [IsSpecial])⟩

/-- A part behind a path leads to an entry when the walk goes on. -/
theorem isPresent_joinPart (hq : q.text ≠ "") {s : List Char} (hs : '/' ∉ s)
    (ht : textError? (joinPart q s) = none) {k m : Nat} {e : Place}
    (w : Walk t (t.startOf q) (coreSteps q) k c []) (hc : t.isDirectoryAt c = true)
    (w' : Walk t c (stepOf? s).toList m e []) (hle : k + m ≤ maxLinks) :
    t.isPresent (joinPart q s) = true := by
  have hplace : t.place? (joinPart q s) = .ok e := by
    refine place?_eq_ok.2 ⟨ht, k + m, hle, ?_⟩
    have hcore := (w.append (stepOf? s).toList).trans w'
    have hstart : t.startOf (joinPart q s) = t.startOf q :=
      startOf_join_part hq (by rwa [String.toList_ofList])
    rw [hstart, stepsOf_eq, coreSteps_joinPart hq hs, text_joinPart hq hs, Text.split_append,
      Text.split_eq_singleton hs, List.getLast?_concat]
    by_cases hnil : s = []
    · subst hnil
      rw [if_pos rfl]
      have hend : e = c := by
        cases w'
        rfl
      have hstay : Walk t e [.stay] 0 e [] := .stay (hend ▸ hc) (.refl _ _)
      exact (hcore.append [.stay]).trans hstay
    · rw [if_neg (by simpa using hnil), List.append_nil]
      exact hcore
  unfold isPresent
  rw [hplace]
  rfl

/-- A first part leads to an entry when the walk starts with it. -/
theorem isPresent_part {s : List Char} (hs : '/' ∉ s) (hne : s ≠ [])
    (ht : textError? ⟨String.ofList s⟩ = none) {m : Nat} {e : Place}
    (w : Walk t t.current (stepOf? s).toList m e []) (hle : m ≤ maxLinks) :
    t.isPresent ⟨String.ofList s⟩ = true := by
  have hplace : t.place? ⟨String.ofList s⟩ = .ok e := by
    refine place?_eq_ok.2 ⟨ht, m, hle, ?_⟩
    have hstart : t.startOf ⟨String.ofList s⟩ = t.current := by
      unfold FileTree.startOf
      rw [isAbsolute_part hs]
      rfl
    rw [hstart, stepsOf_eq, coreSteps_part hs, split_part hs]
    rw [if_neg (by simpa using hne), List.append_nil]
    exact w
  unfold isPresent
  rw [hplace]
  rfl

theorem nodup_namesIn (t : FileTree) (c : Place) : (t.namesIn c).Nodup := by
  have hkeys : t.entries.keys.Nodup := (SortedMap.keys_pairwise t.entries).imp fun {a b} hlt he => by
    rw [he] at hlt
    exact absurd hlt (by simp)
  rw [namesIn_eq]
  refine List.Nodup.filterMap (fun k k' n hk hk' => ?_) hkeys
  rw [nameIn?_eq_some.1 hk, nameIn?_eq_some.1 hk']

/-- No directory is listed with the same entry twice. -/
theorem nodup_children (hnamed : ∀ q n e, t.at? (q ++ [n]) = some e → IsName n ∧ IsShort n)
    (hfile : ∀ n, IsName n → (below q n).fileName? = some n) (h : Reaches t q c) :
    (children t q).Nodup := by
  rcases List.eq_nil_or_concat' (children t q) with hnil | ⟨init, r, hconcat⟩
  · rw [hnil]
    exact List.nodup_nil
  have ht : textError? q = none := textError?_of_mem_children (hconcat ▸ List.mem_concat_self)
  obtain ⟨hplace, hdir⟩ := (reaches_iff ht).1 h
  have hname : ∀ n ∈ t.namesIn c, IsName n := by
    intro n hn
    obtain ⟨e, he⟩ := Option.isSome_iff_exists.1 (mem_namesIn.1 hn)
    exact (hnamed c n e he).1
  unfold children list?
  rw [hplace]
  dsimp only
  rw [if_pos hdir, Option.getD_some]
  refine List.Nodup.map_on (fun n hn m hm he => ?_) (nodup_namesIn t c)
  have hfiles := hfile n (hname n hn)
  rw [he, hfile m (hname m hm)] at hfiles
  exact (Option.some.inj hfiles).symm

/-- Without further parts a search stays where it is. -/
theorem flatMap_search_nil (paths : List Path) : paths.flatMap (search t false []) = paths := by
  have hself : ∀ p, search t false [] p = [p] := fun p => by simp [search]
  rw [funext hself, List.flatMap_singleton']

/-- What one member of a list without repetitions passes is that member. -/
theorem filter_eq_singleton {α : Type} {l : List α} (hl : l.Nodup) {a : α} (ha : a ∈ l)
    {f : α → Bool} (hf : ∀ x ∈ l, f x = true ↔ x = a) : l.filter f = [a] := by
  have hnodup : (l.filter f).Nodup := hl.filter f
  have hmem : ∀ x, x ∈ l.filter f ↔ x ∈ [a] := by
    intro x
    rw [List.mem_filter, List.mem_singleton]
    exact ⟨fun h => (hf x h.1).1 h.2, fun h => by rw [h]; exact ⟨ha, (hf a ha).2 rfl⟩⟩
  exact List.perm_singleton.1 ((List.perm_ext_iff_of_nodup hnodup (List.nodup_singleton a)).2 hmem)

/-- An escaped part matches one name. -/
theorem tokensMatch_iff_eq_ofList {s : List Char} {n : String} :
    tokensMatch (s.map tokenOf) n.toList = true ↔ n = String.ofList s := by
  rw [tokensMatch_map_tokenOf]
  constructor
  · intro h
    rw [← h, String.ofList_toList]
  · intro h
    rw [h, String.toList_ofList]

/-- An escaped part with a special character matches no dots. -/
theorem dots_map_tokenOf {s : List Char} (hs : '/' ∉ s) (hspecial : ∃ c ∈ s, IsSpecial c) :
    dots t (s.map tokenOf) q = [] := by
  have hn := isName_of_isSpecial hs hspecial
  have hnone : ["..", "."].filter (fun n => tokensMatch (s.map tokenOf) n.toList) = [] := by
    refine List.filter_eq_nil_iff.2 fun n hmem hmatch => ?_
    rw [tokensMatch_iff_eq_ofList.1 hmatch] at hmem
    simp only [List.mem_cons, List.not_mem_nil, or_false] at hmem
    exact absurd hmem (not_or.2 ⟨hn.ne_dots, hn.ne_dot⟩)
  unfold dots
  rw [hnone]
  split <;> rfl

/-- **A search takes a part of a path as the path does**: looked up or listed, one entry is found. -/
theorem search_part (hnamed : ∀ q n e, t.at? (q ++ [n]) = some e → IsName n ∧ IsShort n)
    {s : List Char} (hs : '/' ∉ s)
    (hfile : ∀ n, IsName n → (below q n).fileName? = some n) (ht : textError? q = none)
    (hreach : Reaches t q c) (hpresent : t.isPresent (below q (String.ofList s)) = true)
    (hsome : stepOf? s = some (.down (String.ofList s)) →
      (t.at? (c ++ [String.ofList s])).isSome = true) (b : Bool) (rest : List Part) :
    search t b (partOf s :: rest) q = search t b rest (below q (String.ofList s)) := by
  unfold partOf
  split
  next hspecial =>
    have hn := isName_of_isSpecial hs hspecial
    have hstep : stepOf? s = some (.down (String.ofList s)) := by
      rw [← stepOf?_name hn, String.toList_ofList]
    have hone : (children t q).filter (matchesLast (.names (s.map tokenOf))) =
        [below q (String.ofList s)] := by
      refine filter_eq_singleton (nodup_children hnamed hfile hreach)
        ((mem_children ht hreach).2 ⟨_, rfl, hsome hstep⟩) fun x hx => ?_
      obtain ⟨n, rfl, hat⟩ := (mem_children ht hreach).1 hx
      obtain ⟨e, he⟩ := Option.isSome_iff_exists.1 hat
      unfold matchesLast
      rw [hfile n (hnamed _ _ _ he).1]
      refine tokensMatch_iff_eq_ofList.trans ⟨fun h => by rw [h], fun h => ?_⟩
      have hfiles := hfile n (hnamed _ _ _ he).1
      rw [h, hfile _ hn] at hfiles
      exact (Option.some.inj hfiles).symm
    rw [search.eq_def]
    dsimp only
    rw [dots_map_tokenOf hs hspecial, hone, List.nil_append, List.flatMap_singleton]
  next =>
    have hleads : leadsOn t q (String.ofList s) = true := by
      unfold leadsOn
      split
      · exact isDirectory_iff.2 ⟨ht, c, hreach⟩
      · exact hpresent
    rw [search.eq_def]
    dsimp only
    rw [if_pos hleads]

/-- A walk down takes an entry. -/
theorem isSome_of_walk_down {s : List Char} {m : Nat} {e : Place}
    (w : Walk t c (stepOf? s).toList m e []) (hstep : stepOf? s = some (.down (String.ofList s))) :
    (t.at? (c ++ [String.ofList s])).isSome = true := by
  rw [hstep] at w
  cases w with
  | down _ _ he _ _ => rw [he]; rfl
  | link _ _ he _ => rw [he]; rfl

/-- A search takes a part behind a path as the path does. -/
theorem search_cons (hnamed : ∀ q n e, t.at? (q ++ [n]) = some e → IsName n ∧ IsShort n)
    (hq : q.IsDirect) {s : List Char} (hs : '/' ∉ s)
    (ht : textError? (joinPart q s) = none) {k m : Nat} {e : Place}
    (w : Walk t (t.startOf q) (coreSteps q) k c []) (hc : t.isDirectoryAt c = true)
    (w' : Walk t c (stepOf? s).toList m e []) (hle : k + m ≤ maxLinks) (b : Bool)
    (rest : List Part) : search t b (partOf s :: rest) q = search t b rest (joinPart q s) := by
  have hbelow : below q (String.ofList s) = joinPart q s := below_of_isDirect hq _
  rw [← hbelow]
  refine search_part hnamed hs (fun n hn => ?_) (textError?_of_joinPart hq.ne_empty hs ht)
    ⟨k, by omega, w, hc⟩ ?_ (isSome_of_walk_down w') b rest
  · rw [below_of_isDirect hq]
    exact fileName?_join hq hn
  · rw [hbelow]
    exact isPresent_joinPart hq.ne_empty hs ht w hc w' hle

/-- A search takes the first part of a relative path as the path does. -/
theorem search_first (hnamed : ∀ q n e, t.at? (q ++ [n]) = some e → IsName n ∧ IsShort n)
    {s : List Char} (hs : '/' ∉ s) (hne : s ≠ []) (ht : textError? ⟨String.ofList s⟩ = none)
    {m : Nat} {e : Place} (hc : t.isDirectoryAt t.current = true)
    (w : Walk t t.current (stepOf? s).toList m e []) (hle : m ≤ maxLinks) (b : Bool)
    (rest : List Part) :
    search t b (partOf s :: rest) ⟨"."⟩ = search t b rest ⟨String.ofList s⟩ := by
  have hbelow : ∀ n, below ⟨"."⟩ n = ⟨n⟩ := fun n => if_pos (by decide)
  have hreach : Reaches t ⟨"."⟩ t.current := ⟨0, Nat.zero_le _, .stay hc (.refl _ _), hc⟩
  rw [← hbelow (String.ofList s)]
  refine search_part hnamed hs (fun n hn => ?_) (by decide) hreach ?_ (isSome_of_walk_down w) b rest
  · have hcomponents := components_part (s := n.toList) hn.no_slash
      fun he => hn.ne_dot (String.toList_injective (he.trans rfl))
    rw [String.ofList_toList, componentOf?_name hn] at hcomponents
    unfold Path.fileName?
    rw [hbelow, hcomponents]
    rfl
  · rw [hbelow]
    exact isPresent_part hs hne ht w hle

theorem search_parts (hnamed : ∀ q n e, t.at? (q ++ [n]) = some e → IsName n ∧ IsShort n)
    {parts : List (List Char)} (hparts : ∀ s ∈ parts, '/' ∉ s) (hq : q.IsDirect)
    (ht : textError? (parts.foldl joinPart q) = none) {k m : Nat}
    (w : Walk t (t.startOf q) (coreSteps q) k c [])
    (w' : Walk t c (parts.filterMap stepOf?) m d []) (hd : t.isDirectoryAt d = true)
    (hle : k + m ≤ maxLinks) (b : Bool) (rest : List Part) :
    search t b (parts.map partOf ++ rest) q = search t b rest (parts.foldl joinPart q) := by
  induction parts generalizing q c k m with
  | nil => rfl
  | cons s parts ih =>
    have hs := hparts s (List.mem_cons_self ..)
    have hparts' : ∀ u ∈ parts, '/' ∉ u := fun u hu => hparts u (List.mem_cons_of_mem _ hu)
    have hdirect := isDirect_joinPart hq hs
    have hcons : (s :: parts).filterMap stepOf? =
        (stepOf? s).toList ++ parts.filterMap stepOf? := by
      cases h : stepOf? s <;> simp [h]
    have hc := w'.isDirectoryAt_start hd
    rw [hcons] at w'
    obtain ⟨m₁, m₂, e, rfl, w₁, w₂⟩ := w'.split_end
    rw [List.foldl_cons] at ht ⊢
    have hstep := textError?_of_foldl_joinPart hdirect hparts' ht
    rw [List.map_cons, List.cons_append,
      search_cons hnamed hq hs hstep w hc w₁ (by omega)]
    have wnext := (w.append (stepOf? s).toList).trans w₁
    have hstart : t.startOf (joinPart q s) = t.startOf q :=
      startOf_join_part hq.ne_empty (by rwa [String.toList_ofList])
    rw [← coreSteps_joinPart hq.ne_empty hs, ← hstart] at wnext
    exact ih hparts' hdirect ht wnext w₂ (by omega)

/-- **A search for the path of a directory goes on from the path.** -/
theorem search_spelled (hcurrent : t.isDirectoryAt t.current = true)
    (hnamed : ∀ q n e, t.at? (q ++ [n]) = some e → IsName n ∧ IsShort n) (hp : p.IsDirect)
    (hreach : Reaches t p d) (ht : textError? p = none) (b : Bool) (rest : List Part) :
    search t b ((partsOf p).map partOf ++ rest) (searchStart p) = search t b rest (spelled p) := by
  obtain ⟨k, hk, w, hd⟩ := hreach
  have hsplit := splitsOff hp
  have htext := textError?_spelled hp ht
  rw [hsplit.steps] at w
  obtain ⟨k₁, k₂, c, rfl, w₁, w₂⟩ := w.split_end
  have hstart : t.startOf (spelledHead p) = t.startOf p := by
    unfold FileTree.startOf
    rw [hsplit.absolute]
  rw [← hstart] at w₁
  have htail : search t b ((tailOf p).map partOf ++ rest) (spelledHead p) =
      search t b rest (spelled p) :=
    search_parts hnamed hsplit.plain hsplit.direct htext w₁ w₂ hd hk b rest
  rw [← htail]
  unfold searchStart tailOf spelledHead
  cases habs : p.isAbsolute with
  | true => rfl
  | false =>
    obtain ⟨first, tail, hparts, hfirst, -, hslash⟩ := exists_first hp habs
    have hhead : spelledHead p = ⟨String.ofList first⟩ := by
      unfold spelledHead
      rw [habs, hparts]
      rfl
    have hfirsttext := textError?_of_foldl_joinPart hsplit.direct hsplit.plain htext
    rw [hhead] at hfirsttext w₁
    have hrelative : t.startOf ⟨String.ofList first⟩ = t.current := by
      unfold FileTree.startOf
      rw [isAbsolute_part hslash]
      rfl
    rw [hrelative, coreSteps_part hslash] at w₁
    rw [hparts]
    exact search_first hnamed hslash hfirst hfirsttext hcurrent w₁ (by omega) b _

/-! ## Listing what is below -/

/-- The names behind a path are told by the components of the joined path, -/
theorem components_joins_injective {ns ms : List String}
    (hns : ∀ n ∈ ns, IsName n) (hms : ∀ m ∈ ms, IsName m)
    (h : (joins q ns).components = (joins q ms).components) : ns = ms := by
  rw [components_joins q hns, components_joins q hms] at h
  have hname : Function.Injective Component.name := fun a b hab => Component.name.inj hab
  exact List.map_injective_iff.2 hname (List.append_cancel_left h)

/-- and by the path. -/
theorem joins_injective {ns ms : List String} (hns : ∀ n ∈ ns, IsName n)
    (hms : ∀ m ∈ ms, IsName m) (h : joins q ns = joins q ms) : ns = ms :=
  components_joins_injective hns hms (congrArg Path.components h)

/-- A child that is a directory is a site. -/
theorem ground_child (h : Ground t q c) {n : String} (hn : IsName n)
    (hdir : t.isDirectory (q.join n) = true) : Ground t (q.join n) (c ++ [n]) := by
  obtain ⟨ht, e, he⟩ := isDirectory_iff.1 hdir
  obtain ⟨hplace, hat⟩ := (reaches_iff ht).1 he
  have hjoin : q.join n = joins q [n] := rfl
  rw [hjoin] at hplace
  obtain ⟨-, rfl, -⟩ := (h.place?_joins (by simp) (by simpa using hn)).1 hplace
  exact h.joins hat

/-- What is listed lies below, in a directory whose path can be used. -/
theorem exists_of_mem_descendants (h : Ground t q c) {depth : Nat} {r : Path}
    (hr : r ∈ descendants t depth q) :
    ∃ ns f, r = joins q (ns ++ [f]) ∧ (t.at? (c ++ (ns ++ [f]))).isSome = true ∧
      textError? (joins q ns) = none := by
  induction depth generalizing q c with
  | zero => exact absurd hr (by simp [descendants])
  | succ depth ih =>
    rw [descendants, List.mem_flatMap] at hr
    obtain ⟨y, hy, hr⟩ := hr
    have ht := textError?_of_mem_children hy
    obtain ⟨n, rfl, hsome⟩ := (mem_children ht h.reaches).1 hy
    rw [below_of_isDirect h.direct] at hr
    rcases List.mem_cons.1 hr with rfl | hr
    · exact ⟨[], n, rfl, hsome, ht⟩
    · split at hr
      next hdir =>
        obtain ⟨e, he⟩ := Option.isSome_iff_exists.1 hsome
        obtain ⟨ns, f, rfl, hsome', htext⟩ := ih (ground_child h (h.named _ _ _ he).1 hdir) hr
        refine ⟨n :: ns, f, rfl, ?_, htext⟩
        rwa [List.append_assoc] at hsome'
      next => exact absurd hr (by simp)

/-- What lies below in such a directory is listed. -/
theorem mem_descendants (h : Ground t q c) {ns : List String} {f : String}
    (hsome : (t.at? (c ++ (ns ++ [f]))).isSome = true) (ht : textError? (joins q ns) = none)
    {depth : Nat} (hdepth : ns.length < depth) : joins q (ns ++ [f]) ∈ descendants t depth q := by
  induction ns generalizing q c depth with
  | nil =>
    obtain ⟨depth, rfl⟩ : ∃ k, depth = k + 1 := ⟨depth - 1, by omega⟩
    rw [descendants, List.mem_flatMap]
    exact ⟨q.join f, (mem_children ht h.reaches).2 ⟨f, (below_of_isDirect h.direct f).symm, hsome⟩,
      List.mem_cons_self ..⟩
  | cons n ns ih =>
    obtain ⟨depth, rfl⟩ : ∃ k, depth = k + 1 := ⟨depth - 1, by omega⟩
    have hns : ∀ m ∈ n :: ns, IsName m := fun m hm =>
      (h.names hsome m (List.mem_append_left _ hm)).1
    have hq := textError?_of_joins h.direct hns ht
    have hsome' : (t.at? (c ++ [n] ++ (ns ++ [f]))).isSome = true := by
      rw [List.append_assoc]
      exact hsome
    have hdir := h.above (by simp) hsome'
    have hground : Ground t (q.join n) (c ++ [n]) := Ground.joins h hdir
    have htn : textError? (q.join n) = none :=
      textError?_of_joins hground.direct (fun m hm => hns m (List.mem_cons_of_mem _ hm)) ht
    obtain ⟨time, htime⟩ := isDirectoryAt_iff.1 hdir
    rw [descendants, List.mem_flatMap]
    refine ⟨q.join n, (mem_children hq h.reaches).2
      ⟨n, (below_of_isDirect h.direct n).symm, by rw [htime]; rfl⟩, ?_⟩
    rw [if_pos (isDirectory_iff.2 ⟨htn, c ++ [n], hground.reaches⟩)]
    exact List.mem_cons_of_mem _ (ih hground hsome' ht (by simpa using hdepth))

/-- What lies below a child has its name. -/
theorem exists_of_mem_child (h : Ground t q c) {n : String} (hn : IsName n) {depth : Nat} {r : Path}
    (hr : r ∈ q.join n :: if t.isDirectory (q.join n) then descendants t depth (q.join n) else []) :
    ∃ ns, r = joins q (n :: ns) ∧ ∀ m ∈ ns, IsName m := by
  rcases List.mem_cons.1 hr with rfl | hr
  · exact ⟨[], rfl, nofun⟩
  · split at hr
    next hdir =>
      have hground := ground_child h hn hdir
      obtain ⟨ns, f, rfl, hsome, -⟩ := exists_of_mem_descendants hground hr
      exact ⟨ns ++ [f], rfl, fun m hm => (hground.names hsome m hm).1⟩
    next => exact absurd hr (by simp)

/-- Nothing is listed twice. -/
theorem nodup_descendants (h : Ground t q c) (depth : Nat) : (descendants t depth q).Nodup := by
  induction depth generalizing q c with
  | zero => exact List.nodup_nil
  | succ depth ih =>
    have hchild : ∀ r ∈ children t q, ∃ n, r = q.join n ∧ IsName n := by
      intro r hr
      obtain ⟨n, rfl, hsome⟩ := (mem_children (textError?_of_mem_children hr) h.reaches).1 hr
      obtain ⟨e, he⟩ := Option.isSome_iff_exists.1 hsome
      exact ⟨n, below_of_isDirect h.direct n, (h.named _ _ _ he).1⟩
    have hfile : ∀ n, IsName n → (below q n).fileName? = some n := fun n hn => by
      rw [below_of_isDirect h.direct]
      exact fileName?_join h.direct hn
    rw [descendants, List.nodup_flatMap]
    refine ⟨fun r hr => ?_, ?_⟩
    · obtain ⟨n, rfl, hn⟩ := hchild r hr
      split
      next hdir =>
        have hground := ground_child h hn hdir
        refine List.nodup_cons.2 ⟨fun hmem => ?_, ih hground⟩
        -- A path is shorter than those below it.
        obtain ⟨ns, f, he, hsome, -⟩ := exists_of_mem_descendants hground hmem
        have hnil : [] = ns ++ [f] := joins_injective
          (fun m hm => absurd hm List.not_mem_nil) (fun m hm => (hground.names hsome m hm).1) he
        exact absurd hnil (by simp)
      next => exact List.nodup_singleton _
    · refine (nodup_children h.named hfile h.reaches).pairwise_of_forall_ne fun r hr r' hr' hne => ?_
      obtain ⟨n, rfl, hn⟩ := hchild r hr
      obtain ⟨n', rfl, hn'⟩ := hchild r' hr'
      intro x hx hx'
      obtain ⟨ns, rfl, hns⟩ := exists_of_mem_child h hn hx
      obtain ⟨ns', he, hns'⟩ := exists_of_mem_child h hn' hx'
      have hnames := joins_injective
        (fun m hm => (List.mem_cons.1 hm).elim (fun he => he ▸ hn) (hns m))
        (fun m hm => (List.mem_cons.1 hm).elim (fun he => he ▸ hn') (hns' m)) he
      exact hne (by rw [(List.cons.inj hnames).1])

/-- A path that can be used has few names. -/
theorem length_lt_of_textError? (hq : q.IsDirect) {ns : List String}
    (hns : ∀ n ∈ ns, IsName n) (h : textError? (joins q ns) = none) :
    ns.length < maxPathLength := by
  by_cases hne : ns = []
  · rw [hne]
    decide
  · have hsize : ∀ l : List Char, l.length ≤ (String.ofList l).utf8ByteSize := by
      intro l
      induction l with
      | nil => exact Nat.zero_le _
      | cons a l ih =>
        have := a.utf8Size_pos
        rw [utf8ByteSize_ofList_cons, List.length_cons]
        omega
    have hlen : ∀ l : List String, (∀ n ∈ l, IsName n) →
        2 * l.length ≤ (l.flatMap fun n => '/' :: n.toList).length := by
      intro l hl
      induction l with
      | nil => exact Nat.le_refl _
      | cons n l ih =>
        have hrest := ih fun m hm => hl m (List.mem_cons_of_mem _ hm)
        have hname := List.length_pos_of_ne_nil
          (toList_ne_nil (hl n (List.mem_cons_self ..)).ne_empty)
        rw [List.flatMap_cons, List.length_append, List.length_cons, List.length_cons]
        omega
    have htext := text_joins hq hne hns
    have hbytes := hsize (joins q ns).text.toList
    rw [String.ofList_toList] at hbytes
    have hchars : ns.length < (joins q ns).text.toList.length := by
      have hpos := List.length_pos_of_ne_nil hne
      have hnames := hlen ns hns
      rw [htext, List.length_append]
      omega
    exact Nat.lt_of_lt_of_le hchars (Nat.le_trans hbytes (textError?_eq_none.1 h).2.2)

/-- An entry that a search for names below a site finds: its name is matched, and the path of its
directory can be used. -/
structure IsFound (t : FileTree) (p : Path) (d : Place) (part : Part) (ns : List String)
    (f : String) : Prop where
  isSome : (t.at? (d ++ (ns ++ [f]))).isSome = true
  matched : part.matchesName f = true
  text : textError? (joins (spelled p) ns) = none

/-- **The search for a name below a site finds the entries with such names**, each once. -/
theorem exists_pathsBelow? (h : Ground t p d) (ht : textError? p = none) {last : List Char}
    {part : Part} (hlast : '/' ∉ last) (hne : last ≠ []) (hpart : part? last = some part)
    (hany : part ≠ .anyDepth) :
    ∃ paths, pathsBelow? t p ('*' :: '*' :: '/' :: last) = some paths ∧ paths.Nodup ∧
      ∀ r, r ∈ paths ↔ ∃ ns f, r = joins (spelled p) (ns ++ [f]) ∧ IsFound t p d part ns f := by
  have hdirect := isDirect_spelled h.direct
  have hground : Ground t (spelled p) d :=
    h.of_coreSteps hdirect (isAbsolute_spelled h.direct) (coreSteps_spelled h.direct)
  have hpaths : pathsBelow? t p ('*' :: '*' :: '/' :: last) =
      some ((descendants t maxPathLength (spelled p)).filter (matchesLast part)) := by
    unfold pathsBelow?
    rw [ofChars?_below h.direct.ne_empty hlast hne hpart hany, Option.map_some]
    unfold Pattern.paths
    dsimp only
    rw [search_spelled h.isTree.current h.named h.direct h.reaches ht, search.eq_def]
    dsimp only
    rw [flatMap_search_nil]
  refine ⟨_, hpaths, (nodup_descendants hground _).filter _, fun r => ?_⟩
  have hfile : ∀ ns f, (t.at? (d ++ (ns ++ [f]))).isSome = true →
      matchesLast part (joins (spelled p) (ns ++ [f])) = part.matchesName f := by
    intro ns f hsome
    have hall := h.names hsome
    unfold matchesLast
    rw [joins_concat, fileName?_join (isDirect_joins hdirect fun n hn =>
      (hall n (List.mem_append_left _ hn)).1) (hall f (by simp)).1]
  rw [List.mem_filter]
  constructor
  · rintro ⟨hdesc, hmatch⟩
    obtain ⟨ns, f, rfl, hsome, htext⟩ := exists_of_mem_descendants hground hdesc
    exact ⟨ns, f, rfl, hsome, by rwa [hfile ns f hsome] at hmatch, htext⟩
  · rintro ⟨ns, f, rfl, hsome, hmatch, htext⟩
    have hns : ∀ n ∈ ns, IsName n := fun n hn => (h.names hsome n (List.mem_append_left _ hn)).1
    exact ⟨mem_descendants hground hsome htext (length_lt_of_textError? hdirect hns htext),
      by rwa [hfile ns f hsome]⟩

/-- What a search for a part at any depth finds has a name that the part matches. -/
theorem matchesLast_of_mem_search {parts : List Part} (hparts : ∀ x ∈ parts, x ≠ .anyDepth)
    {part : Part} {r : Path} (h : r ∈ search t false (parts ++ [.anyDepth, part]) q) :
    matchesLast part r = true := by
  induction parts generalizing q with
  | nil =>
    rw [List.nil_append, search.eq_def] at h
    dsimp only at h
    rw [flatMap_search_nil] at h
    exact (List.mem_filter.1 h).2
  | cons x parts ih =>
    obtain ⟨hx, hrest⟩ := List.forall_mem_cons.1 hparts
    rw [List.cons_append, search.eq_def] at h
    cases x with
    | anyDepth => exact absurd rfl hx
    | literal name =>
      dsimp only at h
      split at h
      · exact ih hrest h
      · exact absurd h List.not_mem_nil
    | names ts =>
      obtain ⟨x, -, hr⟩ := List.mem_flatMap.1 h
      exact ih hrest hr

/-- **What is found below a directory has a name that the pattern ends in**, however the directory is
written. -/
theorem matchesLast_of_mem_pathsBelow? {last : List Char} {part : Part} (hlast : '/' ∉ last)
    (hne : last ≠ []) (hpart : part? last = some part) (hany : part ≠ .anyDepth)
    {paths : List Path} (h : pathsBelow? t p ('*' :: '*' :: '/' :: last) = some paths) {r : Path}
    (hr : r ∈ paths) : matchesLast part r = true := by
  have hpattern : ∃ start parts, (∀ x ∈ parts, x ≠ .anyDepth) ∧
      Pattern.ofChars? (escape p.text.toList ++ '/' :: '*' :: '*' :: '/' :: last) =
        some ⟨start, parts ++ [.anyDepth, part], false⟩ := by
    by_cases hp : p.text = ""
    · -- Without a directory the search starts at the root.
      refine ⟨⟨"/"⟩, [], nofun, ?_⟩
      rw [hp]
      show Pattern.ofChars? ('/' :: '*' :: '*' :: '/' :: last) = _
      rw [ofChars?_slash, mapM_partTexts_deep hlast hne hpart, Option.map_some,
        mergeDepths_deep hany, decide_eq_false (getLast?_deep hlast hne)]
      rfl
    · refine ⟨searchStart p, (partsOf p).map partOf, fun x hx => ?_,
        ofChars?_below hp hlast hne hpart hany⟩
      obtain ⟨s, -, rfl⟩ := List.mem_map.1 hx
      exact partOf_ne_anyDepth s
  obtain ⟨start, parts, hparts, hpattern⟩ := hpattern
  unfold pathsBelow? at h
  rw [hpattern, Option.map_some, Option.some.injEq] at h
  rw [← h] at hr
  exact matchesLast_of_mem_search hparts hr

end Search

end Glob

end QmlStubs
