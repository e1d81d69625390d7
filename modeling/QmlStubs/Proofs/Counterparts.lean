import QmlStubs.Proofs.Blanks
import QmlStubs.Proofs.Keys
import QmlStubs.Proofs.Steadiness
import QmlStubs.Proofs.TypesRoundTrip
import QmlStubs.Stubs

/-!
# Counterparts

Two trees are counterparts when they are the same but for the content of files below the output
directory, and the types files there hold the same entries, with relative input files in the second
tree (`IsCounterpart`). Nothing that does not look into files can tell them apart.

The relation is kept by every edit of a refresh, since the same place is changed in both trees
(`Simulates`). A file of a module needs more than that, since its content differs between the trees:
it has to lie below the output directory. It does as long as no part of the module's name starts with
a slash (`QmlModule.IsInside`) and there are no links below the output directory
(`IsReached.of_follow?`).

An input file is told apart from another one in the second tree as in the first: a relative path
behind the directory is the path it was made from (`join_joinStrings`), be the directory the root or
not.
-/

set_option autoImplicit false

namespace QmlStubs

open FileTree

/-! ## Paths behind a path -/

section Behind

variable {p : Path} {x : String}

/-- A text without dots only leads down, and has the names on the way as components. -/
theorem exists_downs_of_undotted (hx : '.' ∉ x.toList) :
    ∃ ns : List String, coreSteps ⟨x⟩ = ns.map .down ∧
      (Text.split '/' x.toList).filterMap Path.componentOf? = ns.map .name ∧
      ∀ n ∈ ns, IsName n := by
  have hparts : ∀ part ∈ Text.split '/' x.toList, '.' ∉ part ∧ '/' ∉ part := by
    intro part hpart
    refine ⟨fun hdot => hx ?_, Text.not_mem_of_mem_split hpart⟩
    have hmem : String.ofList part ∈ Text.splitString '/' x := List.mem_map_of_mem hpart
    exact Text.mem_toList_of_mem_splitString hmem (by simpa using hdot)
  unfold coreSteps
  dsimp only
  generalize Text.split '/' x.toList = parts at hparts
  induction parts with
  | nil => exact ⟨[], rfl, rfl, nofun⟩
  | cons part parts ih =>
    obtain ⟨⟨hdot, hslash⟩, hparts⟩ := List.forall_mem_cons.1 hparts
    obtain ⟨ns, hsteps, hcomponents, hns⟩ := ih hparts
    by_cases hnil : part = []
    · exact ⟨ns, by rw [hnil, List.filterMap_cons, hsteps]; rfl,
        by rw [hnil, List.filterMap_cons, hcomponents]; rfl, hns⟩
    · have hn : IsName (String.ofList part) := isName_of_undotted hnil hdot hslash
      have hstep := stepOf?_name hn
      have hcomponent := componentOf?_name hn
      rw [String.toList_ofList] at hstep hcomponent
      refine ⟨String.ofList part :: ns, ?_, ?_, List.forall_mem_cons.2 ⟨hn, hns⟩⟩
      · rw [List.filterMap_cons, hstep, hsteps]
        rfl
      · rw [List.filterMap_cons, hcomponent, hcomponents]
        rfl

end Behind

namespace QmlModule

/-- No part of the module's name starts with a slash, so its directory is below the output
directory. -/
def IsInside (k : QmlModule) : Prop := ∀ part ∈ k.parts, part.toList.head? ≠ some '/'

instance (k : QmlModule) : Decidable k.IsInside :=
  inferInstanceAs (Decidable (∀ part ∈ k.parts, part.toList.head? ≠ some '/'))

/-- **The directory of a module is some steps down from the output directory.** -/
theorem IsInside.exists_downs {k : QmlModule} (hk : k.IsInside) {p : Path} (hp : p.text ≠ "") :
    ∃ ns : List String, coreSteps (k.directoryIn p) = coreSteps p ++ ns.map .down ∧
      (k.directoryIn p).components = p.components ++ ns.map .name ∧
      (k.directoryIn p).isAbsolute = p.isAbsolute ∧ ∀ n ∈ ns, IsName n := by
  have hundotted : ∀ part ∈ k.parts, '.' ∉ part.toList := fun part hpart =>
    not_dot_mem_of_mem_parts hpart
  unfold IsInside at hk
  rw [directoryIn_eq]
  generalize k.parts = parts at hk hundotted
  -- each part goes behind the path with the parts before it
  induction parts generalizing p with
  | nil => exact ⟨[], by simp [joins], by simp [joins], rfl, nofun⟩
  | cons part parts ih =>
    obtain ⟨hpart, hk⟩ := List.forall_mem_cons.1 hk
    obtain ⟨hdot, hundotted⟩ := List.forall_mem_cons.1 hundotted
    obtain ⟨ms, hms, hms', hnames⟩ := exists_downs_of_undotted hdot
    obtain ⟨ns, hsteps, hcomponents, habsolute, hnames'⟩ :=
      ih (text_join_relative_ne_empty hp hpart) hk hundotted
    refine ⟨ms ++ ns, ?_, ?_, ?_, fun n hn => (List.mem_append.1 hn).elim (hnames n) (hnames' n)⟩
    · show coreSteps (joins (p.join part) parts) = _
      rw [hsteps, coreSteps_join_relative hp hpart, hms, List.map_append, List.append_assoc]
    · show (joins (p.join part) parts).components = _
      rw [hcomponents, components_join_relative hp hpart, hms', List.map_append, List.append_assoc]
    · show (joins (p.join part) parts).isAbsolute = _
      rw [habsolute, isAbsolute_join_relative hp hpart]

end QmlModule

/-! ## Input files relative to a directory -/

/-- The text of an input file relative to a directory, if it is below it. -/
def relativeText (b : Path) (inputFile : String) : String :=
  match (Path.mk inputFile).relativeTo? b with
  | some cs => Text.joinStrings '/' (cs.map Component.text)
  | none => inputFile

namespace TypesEntry

/-- The entry with its input file relative to a directory. -/
def relativeTo (b : Path) (e : TypesEntry) : TypesEntry :=
  { e with inputFile := relativeText b e.inputFile }

/-- The input file of the entry is the absolute path of a place below another one. -/
def IsBelow (b : Place) (e : TypesEntry) : Prop :=
  ∃ ns, ns ≠ [] ∧ (∀ n ∈ ns, IsName n) ∧ e.inputFile = (pathOf (b ++ ns)).text

end TypesEntry

section Relative

variable {b : Place} {ns : List String} {e e' : TypesEntry} {t : FileTree} {s : Stubs}

theorem relativeTo?_pathOf (hb : ∀ n ∈ b, IsName n) (hns : ∀ n ∈ ns, IsName n) :
    (pathOf (b ++ ns)).relativeTo? (pathOf b) = some (ns.map .name) := by
  have hall : ∀ n ∈ b ++ ns, IsName n := fun n hn => (List.mem_append.1 hn).elim (hb n) (hns n)
  unfold Path.relativeTo? Path.dropComponents?
  rw [components_pathOf hb, components_pathOf hall, List.map_append, ← List.cons_append,
    if_pos (List.isPrefixOf_iff_prefix.2 (List.prefix_append ..)), List.drop_left]

theorem relativeText_pathOf (hb : ∀ n ∈ b, IsName n) (hns : ∀ n ∈ ns, IsName n) :
    relativeText (pathOf b) (pathOf (b ++ ns)).text = Text.joinStrings '/' ns := by
  unfold relativeText
  rw [relativeTo?_pathOf hb hns]
  exact congrArg (Text.joinStrings '/') (Component.map_text_map_name ns)

/-- A relative path behind the directory is the path itself. -/
theorem join_joinStrings (hb : ∀ n ∈ b, IsName n) (hne : ns ≠ []) (hns : ∀ n ∈ ns, IsName n) :
    (pathOf b).join (Text.joinStrings '/' ns) = pathOf (b ++ ns) := by
  have hdirect := isDirect_pathOf hb
  have hhead : (Text.joinStrings '/' ns).toList.head? ≠ some '/' := by
    obtain ⟨n, rest, rfl⟩ := List.exists_cons_of_ne_nil hne
    have hn := hns n (List.mem_cons_self ..)
    obtain ⟨c, cs, hcs⟩ := List.exists_cons_of_ne_nil (toList_ne_nil hn.ne_empty)
    unfold Text.joinStrings
    rw [String.toList_ofList, List.map_cons, Glob.joinWith_cons, hcs]
    rintro ⟨⟩
    exact hn.no_slash (by rw [hcs]; exact List.mem_cons_self ..)
  have htext : ((pathOf b).join (Text.joinStrings '/' ns)).text.toList =
      (joins (pathOf b) ns).text.toList := by
    rw [Glob.text_join_stem hdirect.ne_empty hhead, Glob.text_joins hdirect hne hns]
    unfold Text.joinStrings
    rw [String.toList_ofList, Glob.slash_joinWith (by simpa using hne), List.flatMap_map]
  rw [← joins_pathOf hb hne hns]
  cases hjoins : joins (pathOf b) ns
  rw [hjoins] at htext
  exact congrArg Path.mk (String.toList_injective htext)

/-- **A relative input file is found again.** -/
theorem TypesEntry.IsBelow.join_relativeTo (hb : ∀ n ∈ b, IsName n) (h : e.IsBelow b) :
    (pathOf b).join (e.relativeTo (pathOf b)).inputFile = ⟨e.inputFile⟩ := by
  obtain ⟨ns, hne, hns, hinput⟩ := h
  unfold TypesEntry.relativeTo
  rw [hinput, relativeText_pathOf hb hns, join_joinStrings hb hne hns]

theorem TypesEntry.IsBelow.join (h : e.IsBelow b) (p : Path) :
    p.join e.inputFile = ⟨e.inputFile⟩ := by
  obtain ⟨ns, -, -, hinput⟩ := h
  unfold Path.join
  rw [if_pos]
  rw [hinput]
  unfold pathOf
  rw [String.toList_append]
  rfl

/-- The file of an entry is the same, however it is written. -/
theorem TypesEntry.IsBelow.resolvedInput_relativeTo (hb : ∀ n ∈ b, IsName n) (h : e.IsBelow b)
    (t : FileTree) (p : Path) :
    (e.relativeTo (pathOf b)).resolvedInput t (pathOf b) = e.resolvedInput t p := by
  unfold TypesEntry.resolvedInput
  rw [h.join_relativeTo hb, h.join]

/-- Different entries stay different. -/
theorem TypesEntry.IsBelow.eq_of_relativeTo (hb : ∀ n ∈ b, IsName n) (h : e.IsBelow b)
    (h' : e'.IsBelow b) (heq : e.relativeTo (pathOf b) = e'.relativeTo (pathOf b)) : e = e' := by
  have hinput : e.inputFile = e'.inputFile := by
    have hjoin := h.join_relativeTo hb
    rw [heq, h'.join_relativeTo hb] at hjoin
    exact (Path.mk.inj hjoin).symm
  cases e
  cases e'
  simp_all [TypesEntry.relativeTo]

end Relative

/-! ## Places below the output directory -/

namespace FileTree

variable {t u : FileTree} {p : Path} {d q : Place} {n : String} {k : QmlModule}

/-- A path that is not empty reaches a directory. -/
structure IsReached (p : Path) (d : Place) (t : FileTree) : Prop where
  text : p.text ≠ ""
  reaches : Reaches t p d

/-- A path reaches a directory of a tree. -/
structure IsRooted (p : Path) (d : Place) (t : FileTree) : Prop extends IsReached p d t where
  isTree : IsTree t

/-- **The directory of a module lies below the output directory.** -/
theorem IsReached.exists_of_reaches (h : IsReached p d t) (hlinkless : IsLinkless d t)
    (hk : k.IsInside) {c : Place} (hc : Reaches t (k.directoryIn p) c) :
    ∃ ns, c = d ++ ns := by
  obtain ⟨ns, hsteps, -, habsolute, -⟩ := hk.exists_downs h.text
  obtain ⟨m, hm, hleads⟩ := hc
  have hstart : t.startOf (k.directoryIn p) = t.startOf p := by
    unfold startOf
    rw [habsolute]
  have hwalk := hleads.walk
  rw [hstart, hsteps] at hwalk
  obtain ⟨k₁, k₂, r, -, w₁, w₂⟩ := hwalk.split_end
  obtain ⟨m', -, hleads'⟩ := h.reaches
  cases w₁.unique hleads'.walk
  exact ⟨ns, hlinkless.eq_of_walk w₂⟩

/-- The place of an entry with a name below another place. -/
def IsBehind (d : Place) (n : String) (q : Place) : Prop := ∃ ns, q = d ++ (ns ++ [n])

/-- The place that is found or free. -/
def Destination.place : Destination → Place
  | .found q => q
  | .free q => q

/-- **The files of a module lie below the output directory**, those that are to be made included. -/
theorem IsReached.of_follow? (h : IsReached p d t) (hlinkless : IsLinkless d t) (hk : k.IsInside)
    (hn : IsName n) {r : Destination} (hr : t.follow? ((k.directoryIn p).join n) = .ok r) :
    IsBehind d n r.place := by
  obtain ⟨hfits, c, hc⟩ := reaches_of_follow? hn hr
  obtain ⟨ns, rfl⟩ := h.exists_of_reaches hlinkless hk hc
  refine ⟨ns, ?_⟩
  rw [← List.append_assoc]
  cases he : t.at? (d ++ ns ++ [n]) with
  | none =>
    rw [follow?_join_free hn hfits hc he] at hr
    cases hr
    rfl
  | some e =>
    have hplain : IsPlain e := hlinkless (ns ++ [n]) e (by simp) (by simpa using he)
    rw [follow?_join_found hn hfits hc he hplain] at hr
    cases hr
    rfl

theorem IsReached.of_place? (h : IsReached p d t) (hlinkless : IsLinkless d t) (hk : k.IsInside)
    (hn : IsName n) (hq : t.place? ((k.directoryIn p).join n) = .ok q) : IsBehind d n q := by
  unfold place? at hq
  cases hr : t.follow? ((k.directoryIn p).join n) with
  | error e =>
    rw [hr] at hq
    cases hq
  | ok r =>
    rw [hr] at hq
    have hbehind := h.of_follow? hlinkless hk hn hr
    cases r with
    | free r => cases hq
    | found r =>
      cases hq
      exact hbehind

theorem IsReached.of_writeTarget? (h : IsReached p d t) (hlinkless : IsLinkless d t)
    (hk : k.IsInside) (hn : IsName n) {x : Bool}
    (hq : writeTarget? ((k.directoryIn p).join n) t = .ok (q, x)) : IsBehind d n q := by
  rcases writeTarget?_ok hq with hr | ⟨hr, -⟩
  · exact h.of_follow? hlinkless hk hn hr
  · exact h.of_follow? hlinkless hk hn hr

theorem IsReached.of_removeTarget? (h : IsReached p d t) (hlinkless : IsLinkless d t)
    (hk : k.IsInside) (hn : IsName n)
    (hq : removeTarget? ((k.directoryIn p).join n) t = .ok q) : IsBehind d n q := by
  obtain ⟨hr, -⟩ := removeTarget?_ok hq
  obtain ⟨-, c, hc, hfound⟩ := of_followParent?_join hn hr
  obtain ⟨ns, rfl⟩ := h.exists_of_reaches hlinkless hk hc
  split at hfound
  · cases hfound
    exact ⟨ns, List.append_assoc ..⟩
  · cases hfound

/-! ## Trees after an edit -/

/-- A file can be put at a place: it holds a file or is free, in a directory. -/
structure IsWriteTarget (t : FileTree) (q : Place) : Prop where
  ne_nil : q ≠ []
  writable : Writable t q
  above : t.isDirectoryAt q.dropLast = true

/-- What is found to write to can be written to. -/
theorem isWriteTarget_of_writeTarget? (ht : IsTree t) {r : Path} {x : Bool}
    (hq : writeTarget? r t = .ok (q, x)) : IsWriteTarget t q := by
  have hne := ne_nil_of_writeTarget? hq
  rcases writeTarget?_ok hq with hr | ⟨hr, content, time, he⟩
  · unfold follow? at hr
    split at hr
    · cases hr
    · obtain ⟨-, -, c, n, -, hdir, -, rfl, hnone⟩ := followSteps_eq_free.1 hr
      refine ⟨hne, ⟨isDirectoryAt_eq_false_of_at? hnone, by simp [hnone]⟩, ?_⟩
      rwa [List.dropLast_concat]
  · refine ⟨hne, ⟨by unfold isDirectoryAt; rw [he], by simp [he]⟩, ?_⟩
    obtain ⟨c, n, rfl⟩ := (List.eq_nil_or_concat' q).resolve_left hne
    rw [List.dropLast_concat]
    exact ht.above c n _ he

theorem IsRooted.put (h : IsRooted p d t) (hq : IsWriteTarget t q) (e : Entry) :
    IsRooted p d (t.put q e) := by
  refine ⟨⟨h.text, h.reaches.put hq.ne_nil hq.writable e⟩, ?_⟩
  obtain ⟨c, n, rfl⟩ := (List.eq_nil_or_concat' q).resolve_left hq.ne_nil
  have habove := hq.above
  rw [List.dropLast_concat] at habove
  exact h.isTree.put habove hq.writable.not_directory

theorem IsRooted.grown (h : IsRooted p d t) (hu : Grown t u) : IsRooted p d u := by
  have hdirs (q : Place) (hq : t.isDirectoryAt q = true) : u.isDirectoryAt q = true := by
    obtain ⟨time, htime⟩ := isDirectoryAt_iff.1 hq
    exact isDirectoryAt_iff.2 ⟨time, hu.keeps q _ htime⟩
  have hstart : u.startOf p = t.startOf p := by
    unfold startOf
    rw [hu.current]
  obtain ⟨m, hm, hwalk, hdir⟩ := h.reaches
  refine ⟨⟨h.text, m, hm, ?_, hdirs d hdir⟩, hu.isTree h.isTree⟩
  rw [hstart]
  exact hwalk.grow hdirs (fun q _ => hu.keeps q _) fun q e he hplain => ⟨e, hu.keeps q e he, hplain⟩

theorem IsRooted.cut (h : IsRooted p d t) (hq : Writable t q) : IsRooted p d (t.cut q) := by
  have hsame : AgreesOff (· = q) t (t.cut q) := by
    intro r e hr he
    rw [h.isTree.at?_cut hq.not_directory, if_neg hr]
    exact he
  have hwritable : ∀ r, r = q → Writable t r := by
    rintro r rfl
    exact hq
  exact ⟨⟨h.text, Reaches.frame hsame hwritable rfl h.reaches⟩, h.isTree.cut hq.not_directory⟩

/-! ## Counterparts -/

/-- The content of a file and that of its counterpart: both hold the same entries, which are relative
in the counterpart, or none of them can be read. -/
structure Translates (b : Place) (content content' : ByteArray) : Prop where
  entries : TypesFile.ofBytes? content' =
    (TypesFile.ofBytes? content).map (List.map (TypesEntry.relativeTo (pathOf b)))
  below : ∀ es, TypesFile.ofBytes? content = some es → ∀ e ∈ es, e.IsBelow b

/-- A tree and one that is the same but for the content of files below a place, where the types files
have relative input files. -/
structure IsCounterpart (b d : Place) (t t' : FileTree) : Prop where
  blank : t'.blank = t.blank
  linkless : IsLinkless d t
  outside : ∀ q, IsOutside d q → t'.at? q = t.at? q
  types : ∀ (k : QmlModule) (q : Place) (content content' : ByteArray),
    IsBehind d k.typesFileName q → t.contentAt? q = some content →
    t'.contentAt? q = some content' → Translates b content content'

theorem contentAt?_eq_some {content : ByteArray} :
    t.contentAt? q = some content ↔ ∃ time x, t.at? q = some (.file content time x) := by
  unfold contentAt?
  cases t.at? q with
  | none => simp
  | some e => cases e <;> simp

section Counterpart

variable {b : Place} {t' : FileTree}

/-- What does not look into files is the same in a counterpart. -/
theorem IsCounterpart.eq (h : IsCounterpart b d t t') {α : Type} (f : FileTree → α)
    (hf : ∀ t, f t.blank = f t) : f t' = f t := by
  rw [← hf t', h.blank, hf t]

theorem IsCounterpart.clock (h : IsCounterpart b d t t') : t'.clock = t.clock :=
  h.eq FileTree.clock clock_blank

/-- At each place there is the same, or a file with another content. -/
theorem IsCounterpart.at?_cases (h : IsCounterpart b d t t') (q : Place) :
    (t.contentAt? q = none ∧ t'.at? q = t.at? q) ∨ ∃ content content' time x,
      t.at? q = some (.file content time x) ∧ t'.at? q = some (.file content' time x) := by
  have hblank : (t'.at? q).map Entry.blank = (t.at? q).map Entry.blank := by
    rw [← at?_blank, ← at?_blank, h.blank]
  unfold contentAt?
  cases he : t.at? q with
  | none =>
    rw [he] at hblank
    exact .inl ⟨rfl, by simpa using hblank⟩
  | some e =>
    rw [he] at hblank
    obtain ⟨e', he', heq⟩ := Option.map_eq_some_iff.1 hblank
    rw [he']
    cases e <;> cases e' <;> cases heq
    · exact .inl ⟨rfl, rfl⟩
    · exact .inr ⟨_, _, _, _, rfl, rfl⟩
    · exact .inl ⟨rfl, rfl⟩

/-- Where one of them has a types file, the other one has it too, with the same entries. -/
theorem IsCounterpart.rel_contentAt? (h : IsCounterpart b d t t') (hq : IsBehind d k.typesFileName q) :
    Option.Rel (Translates b) (t.contentAt? q) (t'.contentAt? q) := by
  rcases h.at?_cases q with ⟨hnone, hsame⟩ | ⟨content, content', time, x, he, he'⟩
  · have hnone' : t'.contentAt? q = none := by
      unfold contentAt? at hnone ⊢
      rwa [hsame]
    rw [hnone, hnone']
    exact .none
  · have hcontent := contentAt?_eq_some.2 ⟨time, x, he⟩
    have hcontent' := contentAt?_eq_some.2 ⟨time, x, he'⟩
    rw [hcontent, hcontent']
    exact .some (h.types k q content content' hq hcontent hcontent')

/-- Entries that are put at one place of both trees. -/
theorem IsCounterpart.put (h : IsCounterpart b d t t') (hq : q ≠ []) {e e' : Entry}
    (hblank : e'.blank = e.blank) (hplain : IsPlain e) (houtside : IsOutside d q → e' = e)
    (htypes : ∀ (k : QmlModule) (content content' : ByteArray) (time time' : FileTime) (x x' : Bool),
      IsBehind d k.typesFileName q → e = .file content time x → e' = .file content' time' x' →
      Translates b content content') :
    IsCounterpart b d (t.put q e) (t'.put q e') where
  blank := by rw [blank_put, blank_put, h.blank, hblank]
  linkless ns x hne hx := by
    rw [at?_put hq] at hx
    split at hx
    · cases hx
      exact hplain
    · exact h.linkless ns x hne hx
  outside r hr := by
    rw [at?_put hq, at?_put hq]
    split
    next hrq => rw [houtside (hrq ▸ hr)]
    next => exact h.outside r hr
  types k r content content' hr hcontent hcontent' := by
    obtain ⟨time, x, hx⟩ := contentAt?_eq_some.1 hcontent
    obtain ⟨time', x', hx'⟩ := contentAt?_eq_some.1 hcontent'
    rw [at?_put hq] at hx hx'
    split at hx
    next hrq =>
      rw [if_pos hrq] at hx'
      exact htypes k _ _ _ _ _ _ (hrq ▸ hr) (Option.some.inj hx) (Option.some.inj hx')
    next hrq =>
      rw [if_neg hrq] at hx'
      exact h.types k r content content' hr (contentAt?_eq_some.2 ⟨time, x, hx⟩)
        (contentAt?_eq_some.2 ⟨time', x', hx'⟩)

/-- An entry that is taken out of both trees. -/
theorem IsCounterpart.cut (h : IsCounterpart b d t t') (hq : q ≠ []) :
    IsCounterpart b d (t.cut q) (t'.cut q) where
  blank := by rw [blank_cut, blank_cut, h.blank]
  linkless ns x hne hx := by
    rw [FileTree.at?_cut hq] at hx
    split at hx
    · cases hx
    · exact h.linkless ns x hne hx
  outside r hr := by
    rw [FileTree.at?_cut hq, FileTree.at?_cut hq]
    split
    · rfl
    · exact h.outside r hr
  types k r content content' hr hcontent hcontent' := by
    obtain ⟨time, x, hx⟩ := contentAt?_eq_some.1 hcontent
    obtain ⟨time', x', hx'⟩ := contentAt?_eq_some.1 hcontent'
    rw [FileTree.at?_cut hq] at hx hx'
    split at hx
    next => cases hx
    next hrq =>
      rw [if_neg hrq] at hx'
      exact h.types k r content content' hr (contentAt?_eq_some.2 ⟨time, x, hx⟩)
        (contentAt?_eq_some.2 ⟨time', x', hx'⟩)

/-! ## Edits of counterparts -/

/-- Two edits come to the same on related trees. -/
def Simulates (R : FileTree → FileTree → Prop) (e e' : Edit) : Prop :=
  ∀ t t', R t t' → (t'.run e').1 = (t.run e).1 ∧ R (t.run e).2 (t'.run e').2

/-- One edit after another. -/
theorem Simulates.seq {R : FileTree → FileTree → Prop} {e e' f f' : Edit} (he : Simulates R e e')
    (hf : Simulates R f f') : Simulates R (e >>= fun _ => f) (e' >>= fun _ => f') := by
  intro t t' h
  obtain ⟨hresult, hafter⟩ := he t t' h
  rw [run_seq, run_seq]
  cases hrun : t.run e with
  | mk result u =>
  cases hrun' : t'.run e' with
  | mk result' u' =>
  rw [hrun, hrun'] at hresult hafter
  obtain rfl : result' = result := hresult
  cases result' with
  | error e => exact ⟨rfl, hafter⟩
  | ok _ => exact hf u u' hafter

/-- A tree and its counterpart while the output directory is reached. -/
structure IsRootedCounterpart (b : Place) (p : Path) (d : Place) (t t' : FileTree) : Prop where
  counterpart : IsCounterpart b d t t'
  rooted : IsRooted p d t

/-- What two functions find at the same place they may change there. -/
theorem simulates_editBy {R : FileTree → FileTree → Prop} {α : Type}
    {target? : FileTree → Except FileError α} {f f' : FileTree → Except FileError FileTree}
    {g g' : FileTree → α → FileTree} (hf : ∀ t, f t = (target? t).map (g t))
    (hf' : ∀ t, f' t = (target? t).map (g' t)) (htarget : ∀ t t', R t t' → target? t' = target? t)
    (hg : ∀ t t' a, R t t' → target? t = .ok a → R (g t a) (g' t' a)) :
    Simulates R (editBy f) (editBy f') := by
  intro t t' h
  rw [run_editBy, run_editBy, hf, hf', htarget t t' h]
  cases ha : target? t with
  | error e => exact ⟨rfl, h⟩
  | ok a => exact ⟨rfl, hg t t' a h ha⟩

/-- A file is written at the same place of trees that only differ in the content of files. -/
theorem simulates_write_of_blank (r : Path) (content content' : ByteArray) :
    Simulates (fun t t' => t'.blank = t.blank) (write r content) (write r content') := by
  refine simulates_editBy (written?_eq content r) (written?_eq content' r) ?_ ?_
  · intro t t' h
    rw [← writeTarget?_blank t', h, writeTarget?_blank]
  · intro t t' target h _
    have hclock : t'.clock = t.clock := congrArg (fun t => t.clock) h
    rw [blank_put, blank_put, h, hclock]
    rfl

section Rooted

variable {p : Path}

/-- **Directories are made alike.** -/
theorem simulates_makeFirst (paths : List Path) :
    Simulates (IsRootedCounterpart b p d) (makeFirst paths) (makeFirst paths) := by
  have hmake (t t' : FileTree) (q : Place) (h : IsRootedCounterpart b p d t t') (r : Path)
      (hq : makeTarget? r t = .ok q) : IsRootedCounterpart b p d (t.put q (.directory t.clock))
        (t'.put q (.directory t'.clock)) := by
    have hmade : withDirectory? r t = .ok (t.put q (.directory t.clock)) := by
      rw [withDirectory?_eq, hq]
      rfl
    refine ⟨?_, h.rooted.grown (grown_of_withDirectory? hmade)⟩
    rw [h.counterpart.clock]
    exact h.counterpart.put (makeTarget?_ok hq) rfl nofun (fun _ => rfl) nofun
  induction paths with
  | nil => exact fun t t' h => ⟨rfl, h⟩
  | cons r above ih =>
    intro t t' h
    have htarget {v v' : FileTree} (hv : IsRootedCounterpart b p d v v') :
        makeTarget? r v' = makeTarget? r v :=
      hv.counterpart.eq (makeTarget? r) fun t => makeTarget?_blank t r
    have hdirectory {v v' : FileTree} (hv : IsRootedCounterpart b p d v v') :
        v'.isDirectory r = v.isDirectory r :=
      hv.counterpart.eq (·.isDirectory r) fun t => isDirectory_blank t r
    -- a directory that is there is enough, whatever kept it from being made
    have hthere {v v' : FileTree} (hv : IsRootedCounterpart b p d v v') (e : FileError) :
        (if v'.isDirectory r then (Except.ok (), v') else (.error e, v')).1 =
          (if v.isDirectory r then (Except.ok (), v) else (.error e, v)).1 ∧
        IsRootedCounterpart b p d (if v.isDirectory r then (Except.ok (), v) else (.error e, v)).2
          (if v'.isDirectory r then (Except.ok (), v') else (.error e, v')).2 := by
      rw [hdirectory hv]
      split
      · exact ⟨rfl, hv⟩
      · exact ⟨rfl, hv⟩
    rw [run_makeFirst, run_makeFirst]
    simp only [withDirectory?_eq, htarget h]
    cases hq : makeTarget? r t with
    | ok q => exact ⟨rfl, hmake t t' q h r hq⟩
    | error e =>
      by_cases he : e = .notFound
      · subst he
        obtain ⟨hresult, hafter⟩ := ih t t' h
        cases hrun : t.run (makeFirst above) with
        | mk result u =>
        cases hrun' : t'.run (makeFirst above) with
        | mk result' u' =>
        rw [hrun, hrun'] at hresult hafter
        cases hresult
        cases result with
        | error e => exact ⟨rfl, hafter⟩
        | ok _ =>
          dsimp only [Except.map]
          rw [htarget hafter]
          cases hq : makeTarget? r u with
          | ok q => exact ⟨rfl, hmake u u' q hafter r hq⟩
          | error e => exact hthere hafter e
      · cases e <;> first | exact absurd rfl he | exact hthere h _

/-- **Directories are made alike**, those above them included. -/
theorem simulates_makeDirectories (r : Path) :
    Simulates (IsRootedCounterpart b p d) (makeDirectories r) (makeDirectories r) := by
  unfold makeDirectories
  split
  · exact fun t t' h => ⟨rfl, h⟩
  · exact simulates_makeFirst r.ancestors

/-- **A file of a module is written alike**: what it holds only matters if it is a types file. -/
theorem simulates_write (hk : k.IsInside) (hn : IsName n) {content content' : ByteArray}
    (htypes : ∀ j : QmlModule, j.typesFileName = n → Translates b content content') :
    Simulates (IsRootedCounterpart b p d) (write ((k.directoryIn p).join n) content)
      (write ((k.directoryIn p).join n) content') := by
  refine simulates_editBy (written?_eq content _) (written?_eq content' _)
    (fun t t' h => h.counterpart.eq (writeTarget? _) fun t => writeTarget?_blank t _) ?_
  rintro t t' ⟨q, x⟩ h hq
  have htarget := isWriteTarget_of_writeTarget? h.rooted.isTree hq
  have hbehind := h.rooted.of_writeTarget? h.counterpart.linkless hk hn hq
  refine ⟨?_, h.rooted.put htarget _⟩
  refine h.counterpart.put htarget.ne_nil (by rw [h.counterpart.clock]; rfl) nofun ?_ ?_
  · intro hout
    obtain ⟨ns, rfl⟩ := hbehind
    exact absurd rfl (hout (ns ++ [n]) (by simp))
  · rintro j _ _ _ _ _ _ hj ⟨⟩ ⟨⟩
    obtain ⟨ns, rfl⟩ := hbehind
    obtain ⟨ms, hms⟩ := hj
    have hlast := congrArg List.getLast? hms
    exact htypes j (by simpa using hlast.symm)

/-- A file of a module is removed alike. -/
theorem simulates_removeIfPresent (hk : k.IsInside) (hn : IsName n) :
    Simulates (IsRootedCounterpart b p d) (removeIfPresent ((k.directoryIn p).join n))
      (removeIfPresent ((k.directoryIn p).join n)) := by
  refine simulates_editBy (withoutFileIfPresent?_eq _) (withoutFileIfPresent?_eq _)
    (fun t t' h => h.counterpart.eq (presentTarget? _) fun t => presentTarget?_blank t _) ?_
  intro t t' q h hq
  cases q with
  | none => exact h
  | some q =>
    have hfound := presentTarget?_eq_some hq
    obtain ⟨-, hdir⟩ := removeTarget?_ok hfound
    obtain ⟨ns, rfl⟩ := h.rooted.of_removeTarget? h.counterpart.linkless hk hn hfound
    refine ⟨h.counterpart.cut (ne_nil_of_isDirectoryAt hdir), h.rooted.cut ⟨hdir, ?_⟩⟩
    exact fun target he => h.counterpart.linkless (ns ++ [n]) _ (by simp) he target rfl

end Rooted

/-- **A file is removed alike**, wherever it is. -/
theorem simulates_removeFile (r : Path) :
    Simulates (IsCounterpart b d) (removeFile r) (removeFile r) := by
  refine simulates_editBy (withoutFile?_eq r) (withoutFile?_eq r)
    (fun t t' h => h.eq (removeTarget? r) fun t => removeTarget?_blank t r) ?_
  intro t t' q h hq
  exact h.cut (ne_nil_of_isDirectoryAt (removeTarget?_ok hq).2)

/-- **A text that is no types file is written alike**, wherever it is. -/
theorem simulates_write_of_ofBytes? (r : Path) {content : ByteArray}
    (hcontent : TypesFile.ofBytes? content = none) :
    Simulates (IsCounterpart b d) (write r content) (write r content) := by
  refine simulates_editBy (written?_eq content r) (written?_eq content r)
    (fun t t' h => h.eq (writeTarget? r) fun t => writeTarget?_blank t r) ?_
  rintro t t' ⟨q, x⟩ h hq
  rw [h.clock]
  refine h.put (ne_nil_of_writeTarget? hq) rfl nofun (fun _ => rfl) ?_
  rintro j _ _ _ _ _ _ - ⟨⟩ ⟨⟩
  exact ⟨by rw [hcontent]; rfl, by simp [hcontent]⟩

end Counterpart

end FileTree

end QmlStubs
