import QmlStubs.Proofs.Numerals
import QmlStubs.Proofs.Sites
import QmlStubs.QmlModule

/-!
# The places of a module's files

A module whose name has parts without slashes has its files at one place, and a place belongs to
one module: **two modules never share a types file** (`typesNames_injective`). A path is read by its
components (`ofTypesPath?_eq_some_iff`), so a foreign directory may have dots in its name. Then the
path leads to the module with all the parts (`parts_joinStrings`), whose types file lies elsewhere.
-/

set_option autoImplicit false

namespace QmlStubs

namespace Text

/-- Splitting joined parts splits each of them. -/
theorem split_joinWith_flatMap {sep : Char} {parts : List (List Char)} (hne : parts ≠ []) :
    split sep (joinWith sep parts) = parts.flatMap (split sep) := by
  induction parts with
  | nil => exact absurd rfl hne
  | cons part parts ih =>
    cases parts with
    | nil => simp [joinWith]
    | cons next parts =>
      rw [joinWith, split_append, ih (by simp), List.flatMap_cons]
      · simp
      · simp

theorem splitString_joinStrings {sep : Char} {parts : List String} (hne : parts ≠ []) :
    splitString sep (joinStrings sep parts) = parts.flatMap (splitString sep) := by
  unfold splitString joinStrings
  rw [String.toList_ofList, split_joinWith_flatMap (by simpa using hne), List.map_flatMap,
    List.flatMap_map]

theorem splitString_ne_nil (sep : Char) (s : String) : splitString sep s ≠ [] := by
  unfold splitString
  simp [split_ne_nil sep]

theorem mem_toList_of_mem_splitString {sep c : Char} {s part : String}
    (h : part ∈ splitString sep s) (hc : c ∈ part.toList) : c ∈ s.toList := by
  obtain ⟨cs, hcs, rfl⟩ := List.mem_map.1 h
  rw [String.toList_ofList] at hc
  have hjoin : ∀ {parts : List (List Char)}, cs ∈ parts → c ∈ joinWith sep parts := by
    intro parts
    induction parts with
    | nil => simp
    | cons part parts ih =>
      intro hmem
      cases parts with
      | nil =>
        rw [List.mem_singleton.1 hmem] at hc
        exact hc
      | cons next parts =>
        rw [joinWith]
        · rcases List.mem_cons.1 hmem with rfl | hmem
          · exact List.mem_append_left _ hc
          · exact List.mem_append_right _ (List.mem_cons_of_mem _ (ih hmem))
        · simp
  have := hjoin hcs
  rwa [joinWith_split] at this

/-- Decimal digits are read back. -/
theorem digits?_toDigits (n : Nat) : digits? (Nat.toDigits 10 n) = some n := by
  have hfold : ∀ (ds : List Char) (m : Nat), (∀ c ∈ ds, c.isDigit = true) →
      ds.foldl (fun n c => do return 10 * (← n) + (← digit? c)) (some m) =
        some (Nat.ofDigitChars 10 ds m) := by
    intro ds
    induction ds with
    | nil => exact fun m _ => rfl
    | cons c ds ih =>
      intro m hds
      rw [List.foldl_cons, Json.digit?_of_isDigit (hds c (List.mem_cons_self ..)),
        Nat.ofDigitChars_cons]
      exact ih _ fun d hd => hds d (List.mem_cons_of_mem _ hd)
  have hrow := Json.isRow_toDigits n
  unfold digits?
  rw [if_neg (by simp), hfold _ _ hrow.digits, Nat.ofDigitChars_ten_toDigits]

end Text

namespace QmlModule

open FileTree

variable {m k : QmlModule} {p : Path}

/-! ## The directory of a module -/

/-- The parts of a module's name. -/
def parts (m : QmlModule) : List String := Text.splitString '.' m.uri

/-- A module whose name has parts that directories can have as names. -/
def IsWellNamed (m : QmlModule) : Prop := ∀ part ∈ m.parts, part ≠ "" ∧ '/' ∉ part.toList

instance (m : QmlModule) : Decidable m.IsWellNamed :=
  inferInstanceAs (Decidable (∀ part ∈ m.parts, part ≠ "" ∧ '/' ∉ part.toList))

theorem directoryIn_eq : m.directoryIn p = joins p m.parts := rfl

theorem parts_ne_nil (m : QmlModule) : m.parts ≠ [] := Text.splitString_ne_nil '.' m.uri

theorem joinStrings_parts (m : QmlModule) : Text.joinStrings '.' m.parts = m.uri :=
  Text.joinStrings_splitString '.' m.uri

theorem not_dot_mem_of_mem_parts {part : String} (h : part ∈ m.parts) : '.' ∉ part.toList := by
  obtain ⟨cs, hcs, rfl⟩ := List.mem_map.1 h
  rw [String.toList_ofList]
  exact Text.not_mem_of_mem_split hcs

theorem IsWellNamed.isName (h : m.IsWellNamed) : ∀ part ∈ m.parts, IsName part := by
  intro part hpart
  have hdot := not_dot_mem_of_mem_parts hpart
  refine ⟨(h part hpart).1, (h part hpart).2, ?_, ?_⟩
  · rintro rfl
    exact hdot (by simp)
  · rintro rfl
    exact hdot (by simp)

/-- **A directory that is named with dots is read as several parts.** -/
theorem parts_joinStrings {ns : List String} (hne : ns ≠ []) (major minor : UInt32) :
    (QmlModule.mk (Text.joinStrings '.' ns) major minor).parts =
      ns.flatMap (Text.splitString '.') := Text.splitString_joinStrings hne

theorem isWellNamed_joinStrings {ns : List String} (hns : ∀ n ∈ ns, IsName n)
    (hdots : ∀ n ∈ ns, ∀ part ∈ Text.splitString '.' n, part ≠ "") (hne : ns ≠ [])
    (major minor : UInt32) : (QmlModule.mk (Text.joinStrings '.' ns) major minor).IsWellNamed := by
  intro part hpart
  rw [parts_joinStrings hne] at hpart
  obtain ⟨n, hn, hpart⟩ := List.mem_flatMap.1 hpart
  exact ⟨hdots n hn part hpart, fun hslash =>
    (hns n hn).no_slash (Text.mem_toList_of_mem_splitString hpart hslash)⟩

/-! ## The names of the files -/

/-- The characters of the version in a file name. -/
def versionChars (m : QmlModule) : List Char :=
  Nat.toDigits 10 m.major.toNat ++ '-' :: Nat.toDigits 10 m.minor.toNat

theorem toList_versionText (m : QmlModule) : (m.versionText "-").toList = m.versionChars := by
  unfold versionText versionChars Text.ofNat
  simp only [String.toList_append, String.toList_ofList, List.append_assoc]
  rfl

theorem toList_typesFileName (m : QmlModule) :
    m.typesFileName.toList = "types".toList ++ (m.versionChars ++ ".json".toList) := by
  unfold typesFileName
  rw [String.toList_append, String.toList_append, toList_versionText, List.append_assoc]

theorem toList_qmltypesFileName (m : QmlModule) :
    m.qmltypesFileName.toList = "types".toList ++ (m.versionChars ++ ".qmltypes".toList) := by
  unfold qmltypesFileName
  rw [String.toList_append, String.toList_append, toList_versionText, List.append_assoc]

theorem toList_registrationsFileName (m : QmlModule) :
    m.registrationsFileName.toList =
      "qmltyperegistrations".toList ++ (m.versionChars ++ ".cpp".toList) := by
  unfold registrationsFileName
  rw [String.toList_append, String.toList_append, toList_versionText, List.append_assoc]

theorem not_slash_mem_versionChars (m : QmlModule) : '/' ∉ m.versionChars := by
  have hrow : ∀ n, '/' ∉ Nat.toDigits 10 n := fun n h =>
    absurd ((Json.isRow_toDigits n).digits _ h) (by decide)
  unfold versionChars
  simp [hrow]

/-- A text without a slash that does not start with a dot is a name. -/
theorem isName_of_head? {s : String} {c : Char} (h : s.toList.head? = some c) (hc : c ≠ '.')
    (hslash : '/' ∉ s.toList) : IsName s := by
  refine ⟨?_, hslash, ?_, ?_⟩
  · rintro rfl
    exact absurd h (by simp)
  · rintro rfl
    exact hc (Option.some.inj h).symm
  · rintro rfl
    exact hc (Option.some.inj h).symm

theorem isName_typesFileName (m : QmlModule) : IsName m.typesFileName := by
  have htext := m.toList_typesFileName
  refine isName_of_head? (c := 't') (by rw [htext]; simp) (by decide) ?_
  rw [htext]
  simp [not_slash_mem_versionChars]

theorem isName_qmltypesFileName (m : QmlModule) : IsName m.qmltypesFileName := by
  have htext := m.toList_qmltypesFileName
  refine isName_of_head? (c := 't') (by rw [htext]; simp) (by decide) ?_
  rw [htext]
  simp [not_slash_mem_versionChars]

theorem isName_registrationsFileName (m : QmlModule) : IsName m.registrationsFileName := by
  have htext := m.toList_registrationsFileName
  refine isName_of_head? (c := 'q') (by rw [htext]; simp) (by decide) ?_
  rw [htext]
  simp [not_slash_mem_versionChars]

theorem isName_qmldir : IsName "qmldir" := by decide

theorem getLast?_of_toList {s : String} {l r : List Char} (h : s.toList = l ++ r) (hr : r ≠ []) :
    s.toList.getLast? = r.getLast? := by
  rw [h, List.getLast?_append]
  cases hl : r.getLast? with
  | none => exact absurd (List.getLast?_eq_none_iff.1 hl) hr
  | some c => rfl

theorem getLast?_typesFileName (m : QmlModule) : m.typesFileName.toList.getLast? = some 'n' := by
  have h := m.toList_typesFileName
  rw [← List.append_assoc] at h
  exact getLast?_of_toList h (by decide)

theorem getLast?_qmltypesFileName (m : QmlModule) :
    m.qmltypesFileName.toList.getLast? = some 's' := by
  have h := m.toList_qmltypesFileName
  rw [← List.append_assoc] at h
  exact getLast?_of_toList h (by decide)

theorem getLast?_registrationsFileName (m : QmlModule) :
    m.registrationsFileName.toList.getLast? = some 'p' := by
  have h := m.toList_registrationsFileName
  rw [← List.append_assoc] at h
  exact getLast?_of_toList h (by decide)

/-- The other files of a module. -/
def otherNames (m : QmlModule) : List String := [m.registrationsFileName, m.qmltypesFileName]

theorem isName_of_mem_otherNames {n : String} (h : n ∈ m.otherNames) : IsName n := by
  unfold otherNames at h
  simp only [List.mem_cons, List.not_mem_nil, or_false] at h
  rcases h with rfl | rfl
  · exact isName_registrationsFileName m
  · exact isName_qmltypesFileName m

/-- No other file of a module is a types file. -/
theorem ne_typesFileName_of_mem_otherNames {n : String} (h : n ∈ m.otherNames) (k : QmlModule) :
    n ≠ k.typesFileName := by
  have hlast := k.getLast?_typesFileName
  unfold otherNames at h
  simp only [List.mem_cons, List.not_mem_nil, or_false] at h
  rintro rfl
  rcases h with h | h
  · rw [h, getLast?_registrationsFileName] at hlast
    exact absurd hlast (by decide)
  · rw [h, getLast?_qmltypesFileName] at hlast
    exact absurd hlast (by decide)

/-- All files of a module. -/
def fileNames (m : QmlModule) : List String := m.typesFileName :: m.otherNames

theorem mem_fileNames {n : String} : n ∈ m.fileNames ↔
    n = m.typesFileName ∨ n = m.registrationsFileName ∨ n = m.qmltypesFileName := by
  unfold fileNames otherNames
  simp

theorem isName_of_mem_fileNames {n : String} (h : n ∈ m.fileNames) : IsName n :=
  (List.mem_cons.1 h).elim (fun he => he ▸ m.isName_typesFileName) isName_of_mem_otherNames

/-- Every file of a module has a name with a dot. -/
theorem dot_mem_of_mem_fileNames {n : String} (h : n ∈ m.fileNames) : '.' ∈ n.toList := by
  rcases mem_fileNames.1 h with rfl | rfl | rfl
  · rw [toList_typesFileName]
    simp
  · rw [toList_registrationsFileName]
    simp
  · rw [toList_qmltypesFileName]
    simp

theorem qmldir_not_mem_fileNames (m : QmlModule) : "qmldir" ∉ m.fileNames := fun h =>
  absurd (dot_mem_of_mem_fileNames h) (by decide)

/-- A file name tells the version. -/
theorem versionChars_eq_of_mem_fileNames {n : String} (h : n ∈ m.fileNames)
    (h' : n ∈ k.fileNames) : m.versionChars = k.versionChars := by
  have hcancel : ∀ {a b b' c : List Char}, a ++ (b ++ c) = a ++ (b' ++ c) → b = b' := fun he =>
    List.append_cancel_right (List.append_cancel_left he)
  have hlast : ∀ {s s' : String}, s = s' → s.toList.getLast? = s'.toList.getLast? :=
    fun he => by rw [he]
  -- Names of different kinds end differently.
  rcases mem_fileNames.1 h with rfl | rfl | rfl <;> rcases mem_fileNames.1 h' with he | he | he
  · have htext := congrArg String.toList he
    rw [toList_typesFileName, toList_typesFileName] at htext
    exact hcancel htext
  · have hend := hlast he
    rw [getLast?_typesFileName, getLast?_registrationsFileName] at hend
    exact absurd hend (by decide)
  · have hend := hlast he
    rw [getLast?_typesFileName, getLast?_qmltypesFileName] at hend
    exact absurd hend (by decide)
  · have hend := hlast he
    rw [getLast?_registrationsFileName, getLast?_typesFileName] at hend
    exact absurd hend (by decide)
  · have htext := congrArg String.toList he
    rw [toList_registrationsFileName, toList_registrationsFileName] at htext
    exact hcancel htext
  · have hend := hlast he
    rw [getLast?_registrationsFileName, getLast?_qmltypesFileName] at hend
    exact absurd hend (by decide)
  · have hend := hlast he
    rw [getLast?_qmltypesFileName, getLast?_typesFileName] at hend
    exact absurd hend (by decide)
  · have hend := hlast he
    rw [getLast?_qmltypesFileName, getLast?_registrationsFileName] at hend
    exact absurd hend (by decide)
  · have htext := congrArg String.toList he
    rw [toList_qmltypesFileName, toList_qmltypesFileName] at htext
    exact hcancel htext

/-- A file name tells the types file that it belongs to. -/
theorem typesFileName_eq_of_mem_fileNames {n : String} (h : n ∈ m.fileNames)
    (h' : n ∈ k.fileNames) : m.typesFileName = k.typesFileName := by
  apply String.toList_injective
  rw [toList_typesFileName, toList_typesFileName, versionChars_eq_of_mem_fileNames h h']

theorem qmldir_ne_typesFileName (k : QmlModule) : "qmldir" ≠ k.typesFileName := by
  intro h
  have hlast := k.getLast?_typesFileName
  rw [← h] at hlast
  exact absurd hlast (by decide)

/-! ## From a path back to the module -/

theorem versionPart?_of_head? {s : List Char} (h : s.head? ≠ some '+') :
    versionPart? s =
      (Text.digits? s).bind fun n => if n < 4294967296 then some (UInt32.ofNat n) else none := by
  unfold versionPart?
  dsimp only
  split
  next => exact absurd rfl h
  next => rfl

theorem versionPart?_toDigits (v : UInt32) :
    versionPart? (Nat.toDigits 10 v.toNat) = some v := by
  have hhead : (Nat.toDigits 10 v.toNat).head? ≠ some '+' := fun h =>
    absurd ((Json.isRow_toDigits v.toNat).digits _ (List.mem_of_mem_head? h)) (by decide)
  have hlt : v.toNat < 4294967296 := v.toNat_lt
  rw [versionPart?_of_head? hhead, Text.digits?_toDigits]
  dsimp only [Option.bind]
  rw [if_pos hlt, UInt32.ofNat_toNat]

/-- **The version in the name of a types file is read back.** -/
theorem versionOfFileName?_typesFileName (m : QmlModule) :
    versionOfFileName? m.typesFileName = some (m.major, m.minor) := by
  have hafter : afterText? "types" m.typesFileName.toList =
      some (m.versionChars ++ ".json".toList) := by
    unfold afterText?
    rw [toList_typesFileName, if_pos (List.isPrefixOf_iff_prefix.2 (List.prefix_append ..))]
    rfl
  have hbefore : beforeText? ".json" (m.versionChars ++ ".json".toList) = some m.versionChars := by
    unfold beforeText?
    rw [if_pos (List.isSuffixOf_iff_suffix.2 (List.suffix_append ..)), List.length_append]
    have hlen : ".json".toList.length = ".json".length := rfl
    rw [hlen, Nat.add_sub_cancel, List.take_left]
  have hdigit : ∀ c ∈ Nat.toDigits 10 m.major.toNat, decide (c ≠ '-') = true := by
    intro c hc
    have := (Json.isRow_toDigits _).digits c hc
    refine decide_eq_true ?_
    rintro rfl
    exact absurd this (by decide)
  have htake : m.versionChars.takeWhile (· ≠ '-') = Nat.toDigits 10 m.major.toNat := by
    unfold versionChars
    rw [List.takeWhile_append_of_pos hdigit]
    simp
  have hdrop : m.versionChars.dropWhile (· ≠ '-') = '-' :: Nat.toDigits 10 m.minor.toNat := by
    unfold versionChars
    rw [List.dropWhile_append_of_pos hdigit]
    simp
  unfold versionOfFileName?
  rw [hafter]
  dsimp only [bind, Option.bind]
  rw [hbefore]
  dsimp only
  rw [hdrop, htake, versionPart?_toDigits]
  dsimp only [Option.bind]
  simp only [versionPart?_toDigits]
  rfl

/-- A name that a version is read from starts and ends like that of a types file. -/
theorem toList_of_versionOfFileName? {f : String} {v : UInt32 × UInt32}
    (h : versionOfFileName? f = some v) :
    ∃ cs, f.toList = "types".toList ++ (cs ++ ".json".toList) := by
  have hsuffix : ∀ {start ending : String} {u r v : List Char}, afterText? start u = some r →
      beforeText? ending r = some v → ∃ cs, u = start.toList ++ (cs ++ ending.toList) := by
    intro start ending u r v hafter hbefore
    unfold afterText? at hafter
    unfold beforeText? at hbefore
    split at hafter
    next hstart =>
      split at hbefore
      next hend =>
        obtain ⟨rest, rfl⟩ := List.isPrefixOf_iff_prefix.1 hstart
        obtain ⟨cs, hcs⟩ := List.isSuffixOf_iff_suffix.1 hend
        have hdrop : (start.toList ++ rest).drop start.length = rest := List.drop_left
        rw [hdrop] at hafter
        exact ⟨cs, by rw [hcs, Option.some.inj hafter]⟩
      next => exact absurd hbefore (by simp)
    next => exact absurd hafter (by simp)
  unfold versionOfFileName? at h
  obtain ⟨r, hafter, h⟩ := Option.bind_eq_some_iff.1 h
  obtain ⟨version, hbefore, -⟩ := Option.bind_eq_some_iff.1 h
  exact hsuffix hafter hbefore

/-- A module's file that a version is read from is its types file. -/
theorem eq_typesFileName_of_versionOfFileName? {f : String} {v : UInt32 × UInt32}
    (hf : f ∈ m.fileNames) (h : versionOfFileName? f = some v) : f = m.typesFileName := by
  obtain ⟨cs, hcs⟩ := toList_of_versionOfFileName? h
  rw [← List.append_assoc] at hcs
  have hlast := getLast?_of_toList hcs (by decide)
  rcases mem_fileNames.1 hf with hf | hf | hf
  · exact hf
  · rw [hf, getLast?_registrationsFileName] at hlast
    exact absurd hlast (by decide)
  · rw [hf, getLast?_qmltypesFileName] at hlast
    exact absurd hlast (by decide)

/-- The names from the output directory to the types file of a module. -/
def typesNames (m : QmlModule) : List String := m.parts ++ [m.typesFileName]

theorem IsWellNamed.isName_typesNames (h : m.IsWellNamed) : ∀ n ∈ m.typesNames, IsName n := by
  intro n hn
  rcases List.mem_append.1 hn with hn | hn
  · exact h.isName n hn
  · rw [List.mem_singleton.1 hn]
    exact m.isName_typesFileName

theorem typesNames_ne_nil (m : QmlModule) : m.typesNames ≠ [] := by simp [typesNames]

/-- **Two modules never share a types file.** -/
theorem typesNames_injective (h : m.typesNames = k.typesNames) : m = k := by
  obtain ⟨hparts, hfile⟩ := List.append_inj' h rfl
  have hversion := m.versionOfFileName?_typesFileName
  rw [List.singleton_inj.1 hfile, k.versionOfFileName?_typesFileName] at hversion
  have huri : m.uri = k.uri := by rw [← m.joinStrings_parts, hparts, k.joinStrings_parts]
  obtain ⟨hmajor, hminor⟩ : k.major = m.major ∧ k.minor = m.minor := by simpa using hversion
  obtain ⟨uri, major, minor⟩ := m
  obtain ⟨uri', major', minor'⟩ := k
  simp_all

/-- **Two modules never share a file.** -/
theorem eq_of_mem_fileNames {n : String} (hparts : m.parts = k.parts) (h : n ∈ m.fileNames)
    (h' : n ∈ k.fileNames) : m = k := by
  refine typesNames_injective ?_
  have hchars := versionChars_eq_of_mem_fileNames h h'
  have hnames : m.typesFileName = k.typesFileName := String.toList_injective (by
    rw [toList_typesFileName, toList_typesFileName, hchars])
  unfold typesNames
  rw [hparts, hnames]

/-- **What is read off a path**: the components below the output directory, with dots between them,
and the version in the file name. -/
theorem ofTypesPath?_eq_some_iff {r : Path} : ofTypesPath? p r = some m ↔
    ∃ cs f, cs ≠ [] ∧ r.components = p.components ++ cs ++ [.name f] ∧
      versionOfFileName? f = some (m.major, m.minor) ∧
      m.uri = Text.joinStrings '.' (cs.map Component.text) := by
  unfold ofTypesPath?
  constructor
  · intro h
    obtain ⟨f, hf, h⟩ := Option.bind_eq_some_iff.1 h
    obtain ⟨⟨major, minor⟩, hversion, h⟩ := Option.bind_eq_some_iff.1 h
    obtain ⟨above, habove, h⟩ := Option.bind_eq_some_iff.1 h
    obtain ⟨cs, hcs, h⟩ := Option.bind_eq_some_iff.1 h
    split at h
    next => cases h
    next hne =>
      obtain rfl := Option.some.inj h
      obtain ⟨init, hinit⟩ := Path.fileName?_eq_some_iff.1 hf
      have hparent := Path.parentComponents?_of_concat hinit nofun
      obtain rfl : init = above := Option.some.inj (hparent.symm.trans habove)
      refine ⟨cs, f, by simpa using hne, ?_, hversion, rfl⟩
      rw [hinit, Path.dropComponents?_eq_some_iff.1 hcs]
  · rintro ⟨cs, f, hne, hr, hversion, huri⟩
    have hdrop := Path.dropComponents?_eq_some_iff.2 (Eq.refl (p.components ++ cs))
    have hempty : cs.isEmpty = false := by simpa using hne
    rw [Path.fileName?_eq_some_iff.2 ⟨_, hr⟩, Path.parentComponents?_of_concat hr nofun]
    simp only [Option.bind_eq_bind, Option.bind_some, hversion, hdrop, hempty]
    rw [if_neg (by simp), ← huri]

/-- The module of a file below the output directory. -/
theorem ofTypesPath?_joins {q : Path} (hcs : q.components = p.components)
    {ns : List String} (hns : ∀ n ∈ ns, IsName n) {f : String} (hf : IsName f) :
    ofTypesPath? p (joins q (ns ++ [f])) = some m ↔
      ns ≠ [] ∧ versionOfFileName? f = some (m.major, m.minor) ∧
        m.uri = Text.joinStrings '.' ns := by
  have hcomponents : (joins q (ns ++ [f])).components =
      p.components ++ ns.map .name ++ [.name f] := by
    rw [joins_concat, components_join_name hf, components_joins q hns, hcs]
  have htext := Component.map_text_map_name ns
  rw [ofTypesPath?_eq_some_iff]
  constructor
  · rintro ⟨cs, f', hne, hr, hversion, huri⟩
    obtain ⟨hinit, hlast⟩ := List.append_inj' (hcomponents.symm.trans hr) rfl
    obtain rfl := Component.name.inj (List.singleton_inj.1 hlast)
    obtain rfl := List.append_cancel_left hinit
    exact ⟨by simpa using hne, hversion, by rwa [htext] at huri⟩
  · rintro ⟨hne, hversion, huri⟩
    exact ⟨ns.map .name, f, by simpa using hne, hcomponents, hversion, by rwa [htext]⟩

/-- What lies below a nonempty path is no root, -/
theorem isInner_of_mem_below {r : Path} (hp : p.text ≠ "") {cs rest : List Component}
    (hr : r.components = p.components ++ cs ++ rest) : ∀ c ∈ cs, IsInner c := by
  obtain ⟨first, more, hfirst⟩ := List.exists_cons_of_ne_nil (components_ne_nil_of_text hp)
  intro c hc
  refine isInner_of_mem_tail (p := r) ?_
  rw [hr, hfirst]
  simp [hc]

/-- so the parts of a name that is read off there have no slash. -/
theorem not_slash_mem_parts {r : Path} (hp : p.text ≠ "") (h : ofTypesPath? p r = some m) :
    ∀ part ∈ m.parts, '/' ∉ part.toList := by
  obtain ⟨cs, f, hne, hr, -, huri⟩ := ofTypesPath?_eq_some_iff.1 h
  have hparts : m.parts = (cs.map Component.text).flatMap (Text.splitString '.') := by
    unfold parts
    rw [huri, Text.splitString_joinStrings (by simpa using hne)]
  intro part hpart hslash
  rw [hparts] at hpart
  obtain ⟨text, htext, hpart⟩ := List.mem_flatMap.1 hpart
  obtain ⟨c, hc, rfl⟩ := List.mem_map.1 htext
  exact not_mem_text_of_isInner (isInner_of_mem_below hp hr c hc)
    (Text.mem_toList_of_mem_splitString hpart hslash)

end QmlModule

end QmlStubs
