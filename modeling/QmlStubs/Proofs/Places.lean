import Mathlib.Data.List.TakeWhile
import QmlStubs.Proofs.Walks

/-!
# Paths below a directory

Most paths that the generator uses are names put behind a directory's path. This file says what
such a path leads to (`follow?_join`): the directory's own walk, and one step down from where it
ends, whatever slashes the directory's path was written with.
-/

set_option autoImplicit false

namespace QmlStubs

namespace Text

/-- Splitting at a separator that is there. -/
theorem split_append (sep : Char) (s u : List Char) :
    split sep (s ++ sep :: u) = split sep s ++ split sep u := by
  induction s with
  | nil =>
    rw [List.nil_append, split.eq_def]
    simp [split]
  | cons c s ih =>
    rw [List.cons_append, split, split, ih]
    by_cases hc : c = sep
    · rw [if_pos hc, if_pos hc]
      rfl
    · rw [if_neg hc, if_neg hc]
      cases hs : split sep s with
      | nil => exact absurd hs (split_ne_nil sep s)
      | cons part parts => rfl

/-- A text without the separator is one part. -/
theorem split_eq_singleton {sep : Char} {s : List Char} (h : sep ∉ s) : split sep s = [s] := by
  induction s with
  | nil => rfl
  | cons c s ih =>
    rw [List.mem_cons, not_or] at h
    rw [split, if_neg (Ne.symm h.1), ih h.2]

end Text

/-- A text that is one name: not empty, without a slash, and no dots of a path. -/
structure IsName (s : String) : Prop where
  ne_empty : s ≠ ""
  no_slash : '/' ∉ s.toList
  ne_dot : s ≠ "."
  ne_dots : s ≠ ".."

instance (s : String) : Decidable (IsName s) :=
  decidable_of_iff (s ≠ "" ∧ '/' ∉ s.toList ∧ s ≠ "." ∧ s ≠ "..")
    ⟨fun h => ⟨h.1, h.2.1, h.2.2.1, h.2.2.2⟩, fun h => ⟨h.1, h.2, h.3, h.4⟩⟩

/-- A part between slashes that is not empty and has no dots is a name. -/
theorem isName_of_undotted {part : List Char} (hne : part ≠ []) (hdot : '.' ∉ part)
    (hslash : '/' ∉ part) : IsName (String.ofList part) := by
  have hback : ∀ {s : String}, String.ofList part = s → part = s.toList := by
    rintro s rfl
    exact String.toList_ofList.symm
  refine ⟨fun he => hne (hback he), by rwa [String.toList_ofList], fun he => ?_, fun he => ?_⟩
  · exact hdot (by rw [hback he]; decide)
  · exact hdot (by rw [hback he]; decide)

namespace FileTree

variable {t : FileTree}

/-! ## Steps of a path -/

/-- The steps of a path without the one that a slash at the end asks for. -/
def coreSteps (p : Path) : List Step := (Text.split '/' p.text.toList).filterMap stepOf?

theorem stepsOf_eq (p : Path) : stepsOf p = coreSteps p ++
    if (Text.split '/' p.text.toList).getLast? = some [] then [.stay] else [] := rfl

theorem toList_ne_nil {s : String} (h : s ≠ "") : s.toList ≠ [] := fun hs =>
  h (String.toList_injective (by rw [hs]; rfl))

theorem stepOf?_nil : stepOf? [] = none := rfl

theorem stepOf?_name {n : String} (hn : IsName n) : stepOf? n.toList = some (.down n) := by
  have hback : String.ofList n.toList = n := String.ofList_toList
  unfold stepOf?
  split
  next h => exact absurd h (toList_ne_nil hn.ne_empty)
  next h => exact absurd (by rw [← hback, h]) hn.ne_dot
  next h => exact absurd (by rw [← hback, h]) hn.ne_dots
  next => rw [hback]

/-- The text of a path below a directory. -/
theorem text_join {p : Path} {n : String} (hn : IsName n) :
    (p.text = "" ∧ (p.join n).text = n) ∨
      ∃ s, (p.text.toList = s ∨ p.text.toList = s ++ ['/']) ∧ p.text ≠ "" ∧
        (p.join n).text.toList = s ++ '/' :: n.toList := by
  have hhead : n.toList.head? ≠ some '/' := by
    intro h
    exact hn.no_slash (List.mem_of_mem_head? h)
  unfold Path.join
  rw [if_neg hhead]
  split
  next h =>
    rw [List.getLast?_eq_none_iff] at h
    exact .inl ⟨String.toList_injective (by rw [h]; rfl), rfl⟩
  next h =>
    obtain ⟨s, hs⟩ := List.getLast?_eq_some_iff.1 h
    refine .inr ⟨s, .inr hs, ?_, ?_⟩
    · intro he
      rw [he] at h
      exact absurd h (by simp)
    · rw [String.toList_append, hs, List.append_assoc]
      rfl
  next h =>
    refine .inr ⟨p.text.toList, .inl rfl, ?_, ?_⟩
    · intro he
      rw [he] at h
      exact absurd h (by simp)
    · simp

theorem text_join_ne_empty {p : Path} {n : String} (hn : IsName n) : (p.join n).text ≠ "" := by
  rcases text_join (p := p) hn with ⟨-, hjoin⟩ | ⟨s, -, -, hjoin⟩
  · rw [hjoin]
    exact hn.ne_empty
  · intro he
    rw [he] at hjoin
    exact absurd hjoin (by simp)

/-- **A name behind a path is one step down.** -/
theorem stepsOf_join {p : Path} {n : String} (hn : IsName n) :
    stepsOf (p.join n) = coreSteps p ++ [.down n] := by
  have hname := Text.split_eq_singleton hn.no_slash
  have hlast : ¬ (n.toList = []) := toList_ne_nil hn.ne_empty
  rcases text_join (p := p) hn with ⟨hp, hjoin⟩ | ⟨s, hs, -, hjoin⟩
  · unfold stepsOf coreSteps
    rw [hjoin, hp, hname]
    simp [stepOf?_name hn, hlast, Text.split, stepOf?_nil]
  · have hcore : coreSteps p = (Text.split '/' s).filterMap stepOf? := by
      unfold coreSteps
      rcases hs with hs | hs
      · rw [hs]
      · rw [hs, Text.split_append]
        simp [Text.split, stepOf?_nil]
    unfold stepsOf
    rw [hjoin, Text.split_append, hname, hcore]
    simp [stepOf?_name hn, hlast]

/-- A longer name makes a longer text. -/
theorem toList_join_append {p : Path} {n : String} (hn : IsName n) (m : String) :
    (p.join (n ++ m)).text.toList = (p.join n).text.toList ++ m.toList := by
  have hhead : n.toList.head? ≠ some '/' := fun h => hn.no_slash (List.mem_of_mem_head? h)
  have hhead' : (n ++ m).toList.head? ≠ some '/' := by
    rwa [String.toList_append, List.head?_append_of_ne_nil _ (toList_ne_nil hn.ne_empty)]
  unfold Path.join
  rw [if_neg hhead, if_neg hhead']
  split <;> simp

theorem startOf_join {p : Path} {n : String} (hn : IsName n) :
    t.startOf (p.join n) = t.startOf p := by
  have habs : (p.join n).isAbsolute = p.isAbsolute := by
    unfold Path.isAbsolute
    rcases text_join (p := p) hn with ⟨hp, hjoin⟩ | ⟨s, hs, hne, hjoin⟩
    · have hhead : n.toList.head? ≠ some '/' := fun h => hn.no_slash (List.mem_of_mem_head? h)
      rw [hjoin, hp]
      simp [hhead]
    · rw [hjoin]
      cases s with
      | nil =>
        rcases hs with hs | hs
        · exact absurd hs (toList_ne_nil hne)
        · rw [hs]
          rfl
      | cons c s =>
        rcases hs with hs | hs
        · rw [hs]
          rfl
        · rw [hs]
          rfl
  unfold startOf
  rw [habs]

/-! ## Slashes at the end -/

theorem filterMap_split_slashes {s : List Char} (h : ∀ c ∈ s, c = '/') :
    (Text.split '/' s).filterMap stepOf? = [] := by
  induction s with
  | nil => rfl
  | cons c s ih =>
    obtain rfl := h c (List.mem_cons_self ..)
    rw [Text.split, if_pos rfl, List.filterMap_cons, stepOf?_nil]
    exact ih fun c hc => h c (List.mem_cons_of_mem _ hc)

/-- What a path without its last slashes is: the path itself when nothing else is in it. -/
theorem trimSlashes_cases (p : Path) :
    (trimSlashes p = p ∧ ∀ c ∈ p.text.toList, c = '/') ∨
      ∃ m, p.text.toList = (trimSlashes p).text.toList ++ List.replicate m '/' ∧
        (trimSlashes p).text.toList ≠ [] ∧ (trimSlashes p).text.toList.getLast? ≠ some '/' := by
  have htake := List.takeWhile_append_dropWhile (p := fun c => decide (c = '/'))
    (l := p.text.toList.reverse)
  have hslashes : ∀ c ∈ p.text.toList.reverse.takeWhile fun c => decide (c = '/'), c = '/' :=
    fun c hc => by simpa using List.mem_takeWhile_imp hc
  unfold trimSlashes
  dsimp only
  by_cases hnil : p.text.toList.reverse.dropWhile (fun c => decide (c = '/')) = []
  · refine .inl ⟨by rw [hnil]; rfl, fun c hc => ?_⟩
    rw [hnil, List.append_nil] at htake
    exact hslashes c (by rw [htake]; exact List.mem_reverse.2 hc)
  · refine .inr ⟨(p.text.toList.reverse.takeWhile fun c => decide (c = '/')).length, ?_⟩
    rw [if_neg (by simpa using hnil), String.toList_ofList]
    refine ⟨?_, by simpa using hnil, ?_⟩
    · conv_lhs => rw [← List.reverse_reverse p.text.toList, ← htake, List.reverse_append]
      congr 1
      rw [← List.reverse_replicate]
      congr 1
      exact List.eq_replicate_iff.2 ⟨rfl, hslashes⟩
    · rw [List.getLast?_reverse]
      intro hhead
      have := List.head?_dropWhile_not (fun c => decide (c = '/')) p.text.toList.reverse
      rw [hhead] at this
      exact absurd this (by simp)

theorem coreSteps_append_slashes {p q : Path} {m : Nat}
    (h : p.text.toList = q.text.toList ++ List.replicate m '/') : coreSteps p = coreSteps q := by
  unfold coreSteps
  cases m with
  | zero => rw [h, List.replicate_zero, List.append_nil]
  | succ m =>
    rw [h, List.replicate_succ, Text.split_append, List.filterMap_append,
      filterMap_split_slashes fun c hc => List.eq_of_mem_replicate hc, List.append_nil]

theorem coreSteps_trimSlashes (p : Path) : coreSteps (trimSlashes p) = coreSteps p := by
  rcases trimSlashes_cases p with ⟨h, -⟩ | ⟨m, h, -⟩
  · rw [h]
  · exact (coreSteps_append_slashes h).symm

theorem startOf_trimSlashes (p : Path) : t.startOf (trimSlashes p) = t.startOf p := by
  rcases trimSlashes_cases p with ⟨h, -⟩ | ⟨m, h, hne, -⟩
  · rw [h]
  · unfold startOf Path.isAbsolute
    rw [h, List.head?_append_of_ne_nil _ hne]

theorem textError?_eq_none {p : Path} :
    textError? p = none ↔
      '\x00' ∉ p.text.toList ∧ p.text ≠ "" ∧ p.text.utf8ByteSize ≤ maxPathLength := by
  unfold textError?
  by_cases hzero : '\x00' ∈ p.text.toList
  · simp [hzero]
  · by_cases hempty : p.text = ""
    · simp [hempty]
    · by_cases hlong : maxPathLength < p.text.utf8ByteSize
      · simp [hzero, hempty, hlong]
      · simp [hzero, hempty, hlong, Nat.le_of_not_lt hlong]

/-- What is a part of a path's text has no more wrong with it. -/
theorem textError?_of_append {p q : Path} {s : List Char} (h : p.text.toList = q.text.toList ++ s)
    (hq : q.text ≠ "") (hp : textError? p = none) : textError? q = none := by
  rw [textError?_eq_none] at hp ⊢
  have htext : p.text = q.text ++ String.ofList s :=
    String.toList_injective (by rw [h, String.toList_append, String.toList_ofList])
  refine ⟨fun hmem => hp.1 (by rw [h]; exact List.mem_append_left _ hmem), hq, ?_⟩
  have hlen := hp.2.2
  rw [htext, String.utf8ByteSize_append] at hlen
  exact Nat.le_trans (Nat.le_add_right _ _) hlen

theorem textError?_trimSlashes {p : Path} (h : textError? p = none) :
    textError? (trimSlashes p) = none := by
  rcases trimSlashes_cases p with ⟨htrim, -⟩ | ⟨m, hm, hne, -⟩
  · rw [htrim]
    exact h
  · refine textError?_of_append hm ?_ h
    intro he
    rw [he] at hne
    exact hne rfl

/-- A path below another one has a text that goes on after the other's. -/
theorem textError?_of_join {p : Path} {n : String} (hn : IsName n) (hp : p.text ≠ "")
    (h : textError? (p.join n) = none) : textError? p = none := by
  rcases text_join (p := p) hn with ⟨he, -⟩ | ⟨s, hs, -, hjoin⟩
  · exact absurd he hp
  · rcases hs with hs | hs
    · exact textError?_of_append (s := '/' :: n.toList) (by rw [hjoin, hs]) hp h
    · exact textError?_of_append (s := n.toList) (by rw [hjoin, hs]; simp) hp h

/-! ## Where paths lead -/

/-- **Where a path leads, as a walk.** -/
theorem place?_eq_ok {p : Path} {q : Place} :
    t.place? p = .ok q ↔
      textError? p = none ∧ ∃ k ≤ maxLinks, Walk t (t.startOf p) (stepsOf p) k q [] := by
  unfold place? follow?
  cases ht : textError? p with
  | some e =>
    constructor
    · intro h
      exact absurd h (by simp [bind, Except.bind])
    · exact fun h => absurd h.1 (by simp)
  | none =>
    dsimp only
    constructor
    · intro h
      refine ⟨rfl, followSteps_eq_found.1 ?_⟩
      cases hf : t.followSteps maxLinks (t.startOf p) (stepsOf p) with
      | error e =>
        rw [hf] at h
        exact absurd h (by simp [bind, Except.bind])
      | ok d =>
        rw [hf] at h
        cases d with
        | found place =>
          have h : (.ok place : Except FileError Place) = .ok q := h
          rw [Except.ok.injEq] at h
          rw [h]
        | free place => exact absurd h (by simp [bind, Except.bind, throw, throwThe, MonadExceptOf.throw])
    · rintro ⟨-, h⟩
      rw [followSteps_eq_found.2 h]
      rfl

/-- The directory that a path's own steps lead to, with the links that they take. -/
structure LeadsTo (t : FileTree) (p : Path) (k : Nat) (directory : Place) : Prop where
  walk : Walk t (t.startOf p) (coreSteps p) k directory []
  isDirectory : t.isDirectoryAt directory = true

/-- The directory that names behind a path are looked up in. -/
def Reaches (t : FileTree) (p : Path) (directory : Place) : Prop :=
  ∃ k ≤ maxLinks, LeadsTo t p k directory

theorem Reaches.unique {p : Path} {d d' : Place} (h : Reaches t p d) (h' : Reaches t p d') :
    d = d' := by
  obtain ⟨k, -, hk⟩ := h
  obtain ⟨k', -, hk'⟩ := h'
  exact hk.walk.unique hk'.walk

theorem Reaches.isDirectory {p : Path} {d : Place} (h : Reaches t p d) :
    t.isDirectoryAt d = true := by
  obtain ⟨k, -, hk⟩ := h
  exact hk.isDirectory

/-- A slash at the end asks for the directory that is reached anyway. -/
theorem reaches_iff {p : Path} {d : Place} (ht : textError? p = none) :
    Reaches t p d ↔ t.place? p = .ok d ∧ t.isDirectoryAt d = true := by
  rw [place?_eq_ok]
  constructor
  · rintro ⟨k, hk, w, hd⟩
    refine ⟨⟨ht, k, hk, ?_⟩, hd⟩
    rw [stepsOf_eq]
    have hw := w.append (if (Text.split '/' p.text.toList).getLast? = some [] then [.stay] else [])
    rw [List.nil_append] at hw
    refine hw.trans (m := 0) ?_
    split
    · exact .stay hd (.refl d [])
    · exact .refl d []
  · rintro ⟨⟨-, k, hk, w⟩, hd⟩
    rw [stepsOf_eq] at w
    obtain ⟨k₁, k₂, q, rfl, w₁, w₂⟩ := w.split_end
    split at w₂
    · cases w₂ with
      | stay h w₂ =>
        cases w₂
        exact ⟨k₁, by omega, w₁, hd⟩
    · cases w₂
      exact ⟨k₁, by omega, w₁, hd⟩

/-- What a path reaches is a matter of its steps. -/
theorem reaches_trimSlashes {p : Path} {d : Place} :
    Reaches t (trimSlashes p) d ↔ Reaches t p d := by
  have hleads : ∀ k, LeadsTo t (trimSlashes p) k d ↔ LeadsTo t p k d := by
    intro k
    constructor
    · rintro ⟨w, hd⟩
      rw [startOf_trimSlashes, coreSteps_trimSlashes] at w
      exact ⟨w, hd⟩
    · rintro ⟨w, hd⟩
      rw [← startOf_trimSlashes, ← coreSteps_trimSlashes] at w
      exact ⟨w, hd⟩
  unfold Reaches
  simp only [hleads]

theorem isDirectory_iff {p : Path} :
    t.isDirectory p = true ↔ textError? p = none ∧ ∃ d, Reaches t p d := by
  unfold isDirectory
  constructor
  · intro h
    cases hp : t.place? p with
    | error e =>
      rw [hp] at h
      exact absurd h (by simp)
    | ok d =>
      rw [hp] at h
      have ht := (place?_eq_ok.1 hp).1
      exact ⟨ht, d, (reaches_iff ht).2 ⟨hp, h⟩⟩
  · rintro ⟨ht, d, hd⟩
    obtain ⟨hp, hdir⟩ := (reaches_iff ht).1 hd
    rw [hp]
    exact hdir

/-- A name that can be looked up behind a path: neither is too long. -/
structure Fits (p : Path) (n : String) : Prop where
  text : textError? (p.join n) = none
  short : IsShort n

/-- Writing files changes no directory that a path reaches. -/
theorem Reaches.frame {u : FileTree} {changed : Place → Prop} (hsame : AgreesOff changed t u)
    (hchanged : ∀ p, changed p → Writable t p) (hcurrent : u.current = t.current) {p : Path} {d : Place} (h : Reaches t p d) :
    Reaches u p d := by
  obtain ⟨k, hk, hleads⟩ := h
  have hd : ¬ changed d := fun hd => by
    have := (hchanged d hd).not_directory
    rw [hleads.isDirectory] at this
    exact absurd this (by simp)
  have hstart : u.startOf p = t.startOf p := by
    unfold startOf
    rw [hcurrent]
  obtain ⟨time, htime⟩ := isDirectoryAt_iff.1 hleads.isDirectory
  refine ⟨k, hk, ?_, isDirectoryAt_iff.2 ⟨time, hsame d _ hd htime⟩⟩
  rw [hstart]
  exact hleads.walk.frame hsame hchanged hd

/-- **Writing files changes no other path's place.** -/
theorem place?_frame {u : FileTree} {changed : Place → Prop} (hsame : AgreesOff changed t u)
    (hchanged : ∀ p, changed p → Writable t p) (hcurrent : u.current = t.current) {p : Path}
    {q : Place} (h : t.place? p = .ok q) (hq : ¬ changed q) : u.place? p = .ok q := by
  obtain ⟨ht, k, hk, w⟩ := place?_eq_ok.1 h
  have hstart : u.startOf p = t.startOf p := by
    unfold startOf
    rw [hcurrent]
  refine place?_eq_ok.2 ⟨ht, k, hk, ?_⟩
  rw [hstart]
  exact w.frame hsame hchanged hq

/-- A path with a time leads to an entry. -/
theorem exists_of_modified? {p : Path} {m : Binary64} (h : t.modified? p = some m) :
    ∃ q e, t.place? p = .ok q ∧ t.at? q = some e := by
  unfold modified? at h
  cases hp : t.place? p with
  | error e =>
    rw [hp] at h
    exact absurd h (by simp)
  | ok q =>
    cases he : t.at? q with
    | some e => exact ⟨q, e, rfl, he⟩
    | none =>
      rw [hp] at h
      dsimp only at h
      rw [he] at h
      exact absurd h (by simp)

/-- What can be read is a file. -/
theorem exists_of_read? {p : Path} {content : ByteArray} (h : t.read? p = .ok content) :
    ∃ q time x, t.place? p = .ok q ∧ t.at? q = some (.file content time x) := by
  unfold read? at h
  cases hplace : t.place? p with
  | error e =>
    rw [hplace] at h
    exact absurd h (by simp [bind, Except.bind])
  | ok q =>
    rw [hplace] at h
    dsimp only [bind, Except.bind] at h
    split at h
    next bytes time x hat =>
      obtain rfl := Except.ok.inj h
      exact ⟨q, time, x, rfl, hat⟩
    next => exact absurd h (by simp [throw, throwThe, MonadExceptOf.throw])
    next => exact absurd h (by simp [throw, throwThe, MonadExceptOf.throw])

theorem read?_of_place? {p : Path} {content : ByteArray} {q : Place} {time : FileTime} {x : Bool}
    (h : t.place? p = .ok q) (hat : t.at? q = some (.file content time x)) :
    t.read? p = .ok content := by
  unfold read?
  rw [h]
  dsimp only [bind, Except.bind]
  rw [hat]
  rfl

/-- **Writing files changes no other file's time.** -/
theorem modified?_frame {u : FileTree} {changed : Place → Prop} (hsame : AgreesOff changed t u)
    (hchanged : ∀ p, changed p → Writable t p) (hcurrent : u.current = t.current) {p : Path}
    {m : Binary64} (h : t.modified? p = some m)
    (hoff : ∀ q, t.place? p = .ok q → ¬ changed q) : u.modified? p = t.modified? p := by
  obtain ⟨q, e, hp, he⟩ := exists_of_modified? h
  unfold modified?
  rw [place?_frame hsame hchanged hcurrent hp (hoff q hp), hp]
  dsimp only
  rw [hsame q e (hoff q hp) he, he]

/-! ## Following a name behind a path -/

section Join

variable {p : Path} {n : String} {d : Place}

theorem follow?_of_textError? {q : Path} (h : textError? q = none) :
    t.follow? q = t.followSteps maxLinks (t.startOf q) (stepsOf q) := by
  unfold follow?
  rw [h]

/-- What leads anywhere has a text that can be followed. -/
theorem textError?_of_follow? {q : Path} {r : Destination} (h : t.follow? q = .ok r) :
    textError? q = none := by
  unfold follow? at h
  cases ht : textError? q with
  | none => rfl
  | some e =>
    rw [ht] at h
    exact absurd h (by simp)

/-- What is at a place is found there. -/
theorem follow?_of_place? {q : Path} {e : Place} (h : t.place? q = .ok e) :
    t.follow? q = .ok (.found e) := by
  obtain ⟨ht, hwalk⟩ := place?_eq_ok.1 h
  rw [follow?_of_textError? ht]
  exact followSteps_eq_found.2 hwalk

theorem place?_of_follow? {q : Path} {e : Place} (h : t.follow? q = .ok (.found e)) :
    t.place? q = .ok e := by
  unfold place?
  rw [h]
  rfl

theorem follow?_join (hn : IsName n) (ht : textError? (p.join n) = none) :
    t.follow? (p.join n) =
      t.followSteps maxLinks (t.startOf p) (coreSteps p ++ [.down n]) := by
  rw [follow?_of_textError? ht, stepsOf_join hn, startOf_join hn]

/-- From the directory that the path leads to, one name is left. -/
theorem exists_followSteps_last (h : Reaches t p d) :
    ∃ links, ∀ steps, t.followSteps maxLinks (t.startOf p) (coreSteps p ++ steps) =
      t.followSteps links d steps := by
  obtain ⟨k, hk, hleads⟩ := h
  refine ⟨maxLinks - k, fun steps => ?_⟩
  have hw := hleads.walk.append steps
  rw [List.nil_append] at hw
  conv_lhs => rw [← Nat.add_sub_cancel' hk]
  exact followSteps_walk hw _

/-- A name that is taken by something else than a link is found. -/
theorem follow?_join_found (hn : IsName n) (hfits : Fits p n) (h : Reaches t p d) {e : Entry}
    (he : t.at? (d ++ [n]) = some e) (hplain : IsPlain e) :
    t.follow? (p.join n) = .ok (.found (d ++ [n])) := by
  obtain ⟨links, hlinks⟩ := exists_followSteps_last h
  rw [follow?_join hn hfits.text, hlinks, followSteps_down h.isDirectory hfits.short he hplain,
    followSteps_nil]

/-- A name that is not taken is free. -/
theorem follow?_join_free (hn : IsName n) (hfits : Fits p n) (h : Reaches t p d)
    (he : t.at? (d ++ [n]) = none) : t.follow? (p.join n) = .ok (.free (d ++ [n])) := by
  obtain ⟨links, hlinks⟩ := exists_followSteps_last h
  rw [follow?_join hn hfits.text, hlinks, followSteps_free h.isDirectory hfits.short he]

/-- What leads anywhere goes through the directory. -/
theorem reaches_of_follow? (hn : IsName n) {r : Destination} (h : t.follow? (p.join n) = .ok r) :
    Fits p n ∧ ∃ d, Reaches t p d := by
  have ht := textError?_of_follow? h
  rw [follow?_join hn ht] at h
  rcases exists_walk (t := t) maxLinks (t.startOf p) (coreSteps p ++ [.down n]) with
    hmany | ⟨k, hk, q, rest, r', w, hstop, hr⟩
  · rw [h] at hmany
    exact absurd hmany (by simp)
  · rw [h] at hr
    subst hr
    rcases w.split with ⟨k₁, k₂, d, rfl, w₁, w₂⟩ | ⟨left, hne, rfl, -⟩
    · have hd : t.isDirectoryAt d = true ∧ IsShort n := by
        cases w₂ with
        | refl =>
          rcases hstop.cases_ok with ⟨hnil, -⟩ | ⟨name, hname, -, hdir, hshort, -⟩
          · exact absurd hnil (by simp)
          · obtain rfl : n = name := by simpa using hname
            exact ⟨hdir, hshort⟩
        | down hdir hshort _ _ _ => exact ⟨hdir, hshort⟩
        | link hdir hshort _ _ => exact ⟨hdir, hshort⟩
      exact ⟨⟨ht, hd.2⟩, d, k₁, by omega, w₁, hd.1⟩
    · -- A walk that leads anywhere has one step left at most.
      obtain ⟨step, left, rfl⟩ := List.exists_cons_of_ne_nil hne
      rcases hstop.cases_ok with ⟨hnil, -⟩ | ⟨name, hname, -⟩
      · exact absurd hnil (by simp)
      · exact absurd hname (by simp)

end Join

/-! ## Following a path up to its last name -/

section LastName

variable {p : Path} {name : String} {d q : Place}

/-- A path that ends in a name has no slash at its end. -/
theorem coreSteps_eq_stepsOf (h : (stepsOf p).getLast? = some (.down name)) :
    coreSteps p = stepsOf p := by
  rw [stepsOf_eq] at h ⊢
  split at h
  · rw [List.getLast?_concat] at h
    exact absurd h (by simp)
  next hlast => rw [if_neg hlast, List.append_nil]

theorem followParent?_of_last (ht : textError? p = none)
    (hlast : (stepsOf p).getLast? = some (.down name)) (hn : IsShort name) :
    t.followParent? p =
      match t.followSteps maxLinks (t.startOf p) (stepsOf p).dropLast with
      | .error e => .error e
      | .ok (.free _) => .error .notFound
      | .ok (.found d) =>
        if t.isDirectoryAt d then
          .ok (if (t.at? (d ++ [name])).isSome then .found (d ++ [name]) else .free (d ++ [name]))
        else .error .notADirectory := by
  unfold followParent?
  rw [ht]
  dsimp only
  rw [hlast]
  dsimp only
  rw [if_neg hn]
  cases t.followSteps maxLinks (t.startOf p) (stepsOf p).dropLast with
  | error e => rfl
  | ok r => cases r <;> rfl

theorem followParent?_of_down (ht : textError? p = none)
    (hlast : (stepsOf p).getLast? = some (.down name)) (hn : IsShort name)
    (hd : t.followSteps maxLinks (t.startOf p) (stepsOf p).dropLast = .ok (.found d))
    (hdir : t.isDirectoryAt d = true) :
    t.followParent? p =
      .ok (if (t.at? (d ++ [name])).isSome then .found (d ++ [name]) else .free (d ++ [name])) := by
  rw [followParent?_of_last ht hlast hn, hd]
  dsimp only
  rw [if_pos hdir]

theorem followParent?_of_other (ht : textError? p = none)
    (hlast : ∀ name, (stepsOf p).getLast? ≠ some (.down name)) :
    t.followParent? p = t.followSteps maxLinks (t.startOf p) (stepsOf p) := by
  unfold followParent?
  rw [ht]
  dsimp only
  split
  next name h => exact absurd h (hlast name)
  next => rfl

/-- **A free name lies in a directory that the steps before it lead to.** -/
theorem exists_of_followParent?_free (h : t.followParent? p = .ok (.free q)) :
    ∃ init name d, coreSteps p = init ++ [.down name] ∧ IsShort name ∧ q = d ++ [name] ∧
      (∃ k ≤ maxLinks, Walk t (t.startOf p) init k d []) ∧ t.isDirectoryAt d = true ∧
      t.at? q = none := by
  have ht : textError? p = none := by
    cases ht : textError? p with
    | none => rfl
    | some e =>
      unfold followParent? at h
      rw [ht] at h
      exact absurd h (by simp)
  by_cases hlast : ∃ name, (stepsOf p).getLast? = some (.down name)
  · obtain ⟨name, hlast⟩ := hlast
    obtain ⟨init, hinit⟩ := List.getLast?_eq_some_iff.1 hlast
    have hcore := coreSteps_eq_stepsOf hlast
    by_cases hn : IsShort name
    · rw [followParent?_of_last ht hlast hn] at h
      split at h
      · exact absurd h (by simp)
      · exact absurd h (by simp)
      next d hf =>
        split at h
        next hdir =>
          rw [Except.ok.injEq] at h
          split at h
          · exact absurd h (by simp)
          next hnone =>
            obtain rfl : d ++ [name] = q := by simpa using h
            rw [hinit, List.dropLast_concat] at hf
            exact ⟨init, name, d, by rw [hcore, hinit], hn, rfl, followSteps_eq_found.1 hf, hdir,
              by simpa using hnone⟩
        next => exact absurd h (by simp)
    · unfold followParent? at h
      rw [ht] at h
      dsimp only at h
      rw [hlast] at h
      dsimp only at h
      rw [if_pos (by simpa [IsShort] using hn)] at h
      exact absurd h (by simp)
  · -- Another last step is still there when the walk stops, so nothing free is found.
    have hother : ∀ name, (stepsOf p).getLast? ≠ some (.down name) :=
      fun name hn => hlast ⟨name, hn⟩
    rw [followParent?_of_other ht hother, followSteps_eq_free] at h
    obtain ⟨k, -, d, name, w, -⟩ := h
    cases hs : (stepsOf p).getLast? with
    | none =>
      rw [List.getLast?_eq_none_iff] at hs
      rw [hs] at w
      exact absurd w.eq_nil (by simp)
    | some step =>
      have hstep : ∀ name, step ≠ .down name := by
        rintro name rfl
        exact hother name hs
      have := w.getLast?_eq (by simp) hs hstep
      exact absurd (by simpa using this.symm) (hstep name)

/-- A path to a directory leads to an entry when a link at its end is not taken. -/
theorem exists_followParent?_of_reaches (ht : textError? p = none) (h : Reaches t p d) :
    ∃ q, t.followParent? p = .ok (.found q) := by
  by_cases hlast : ∃ name, (stepsOf p).getLast? = some (.down name)
  · obtain ⟨name, hlast⟩ := hlast
    obtain ⟨init, hinit⟩ := List.getLast?_eq_some_iff.1 hlast
    obtain ⟨k, hk, w, hd⟩ := h
    rw [coreSteps_eq_stepsOf hlast, hinit] at w
    obtain ⟨k₁, k₂, c, rfl, w₁, w₂⟩ := w.split_end
    have hc : t.isDirectoryAt c = true ∧ IsShort name ∧ (t.at? (c ++ [name])).isSome = true := by
      cases w₂ with
      | down hdir hshort he _ _ => exact ⟨hdir, hshort, by rw [he]; rfl⟩
      | link hdir hshort he _ => exact ⟨hdir, hshort, by rw [he]; rfl⟩
    have hfound : t.followSteps maxLinks (t.startOf p) (stepsOf p).dropLast = .ok (.found c) := by
      rw [hinit, List.dropLast_concat]
      exact followSteps_eq_found.2 ⟨k₁, by omega, w₁⟩
    refine ⟨c ++ [name], ?_⟩
    rw [followParent?_of_down ht hlast hc.2.1 hfound hc.1, if_pos hc.2.2]
  · rw [followParent?_of_other ht fun name hn => hlast ⟨name, hn⟩]
    obtain ⟨-, hw⟩ := place?_eq_ok.1 ((reaches_iff ht).1 h).1
    exact ⟨d, followSteps_eq_found.2 hw⟩

/-- Where a name behind a path leads when no link at its end is taken. -/
theorem followParent?_join (hn : IsName name) (hfits : Fits p name) (h : Reaches t p d) :
    t.followParent? (p.join name) =
      .ok (if (t.at? (d ++ [name])).isSome then .found (d ++ [name]) else .free (d ++ [name])) := by
  obtain ⟨links, hlinks⟩ := exists_followSteps_last h
  refine followParent?_of_down hfits.text ?_ hfits.short ?_ h.isDirectory
  · rw [stepsOf_join hn, List.getLast?_concat]
  · rw [stepsOf_join hn, List.dropLast_concat, startOf_join hn]
    have := hlinks []
    rwa [List.append_nil, followSteps_nil] at this

end LastName

end FileTree

end QmlStubs
