import QmlStubs.Proofs.Keys

/-!
# Reading a module off a path

The modules that have stubs are read off the paths that a search below the output directory finds:
the names on the way, with dots between them, and the version in the file name.

> **A module comes back from the path of its types file exactly if the parts of its name are not
> empty and have no slashes** (`QmlModule.ofTypesPath?_typesPath`), in whatever way the output
> directory is written. So two such modules have different paths.

The search also finds files that no module has written, and a module is read off them as well:
`a.b/types01-0.json` is read as `a.b 1.0`, whose types file is `a/b/types1-0.json`. **What is read off
a path has its types file there exactly if no directory on the way has a dot in its name and the
version is written as the module writes it** (`QmlModule.same_typesPath_iff`).
-/

set_option autoImplicit false

namespace QmlStubs

namespace QmlModule

open FileTree

variable {p r : Path} {k m : QmlModule}

/-! ## Where a module has its types file -/

/-- A part without dots and slashes is a name unless it is empty. -/
theorem componentOf?_part {part : String} (hdot : '.' ∉ part.toList) (hslash : '/' ∉ part.toList) :
    Path.componentOf? part.toList = if part = "" then none else some (.name part) := by
  by_cases hempty : part = ""
  · subst hempty
    rfl
  · have hn : IsName part := by
      have := isName_of_undotted (toList_ne_nil hempty) hdot hslash
      rwa [String.ofList_toList] at this
    rw [componentOf?_name hn, if_neg hempty]

/-- **The directory of a module lies below the output directory by the nonempty parts of its name**,
if none of them has a slash. -/
theorem components_directoryIn (hp : p.text ≠ "") (hslash : ∀ part ∈ k.parts, '/' ∉ part.toList) :
    (k.directoryIn p).components = p.components ++ (k.parts.filter (· ≠ "")).map .name := by
  have hdot : ∀ part ∈ k.parts, '.' ∉ part.toList := fun part => not_dot_mem_of_mem_parts
  rw [directoryIn_eq]
  generalize k.parts = parts at hslash hdot
  induction parts generalizing p with
  | nil => exact (List.append_nil _).symm
  | cons part parts ih =>
    obtain ⟨hpart, hslash⟩ := List.forall_mem_cons.1 hslash
    obtain ⟨hpart', hdot⟩ := List.forall_mem_cons.1 hdot
    show (joins (p.join part) parts).components = _
    rw [ih (text_join_relative_ne_empty hp (head?_ne_slash hpart)) hslash hdot,
      components_join hp hpart, componentOf?_part hpart' hpart]
    by_cases hempty : part = ""
    · simp [hempty]
    · simp [hempty]

/-- The path of the types file. -/
theorem components_typesPathIn (hp : p.text ≠ "") (hslash : ∀ part ∈ k.parts, '/' ∉ part.toList) :
    ((k.directoryIn p).join k.typesFileName).components =
      p.components ++ (k.parts.filter (· ≠ "")).map .name ++ [.name k.typesFileName] := by
  rw [components_join_name k.isName_typesFileName, components_directoryIn hp hslash]

theorem IsWellNamed.filter_parts (h : k.IsWellNamed) : k.parts.filter (· ≠ "") = k.parts :=
  List.filter_eq_self.2 fun part hpart => decide_eq_true (h part hpart).1

/-- A module is read off the components of a path alone. -/
theorem ofTypesPath?_congr {q : Path} (h : q.components = r.components)
    (hr : ofTypesPath? p r = some k) : ofTypesPath? p q = some k := by
  rw [ofTypesPath?_eq_some_iff] at hr ⊢
  rwa [h]

/-- Names without dots are the parts of what they are joined to. -/
theorem parts_eq_of_undotted {ns : List String} (hne : ns ≠ [])
    (huri : k.uri = Text.joinStrings '.' ns) (hns : ∀ n ∈ ns, '.' ∉ n.toList) : k.parts = ns := by
  unfold parts
  rw [huri, Text.splitString_joinStrings_of_not_mem hne hns]

/-! ## From a module to its path and back -/

/-- A well-named module is read off the path of its types file. -/
theorem IsWellNamed.ofTypesPath?_eq (h : k.IsWellNamed) (hp : p.text ≠ "") :
    ofTypesPath? p ((k.directoryIn p).join k.typesFileName) = some k := by
  refine ofTypesPath?_eq_some_iff.2 ⟨k.parts.map .name, k.typesFileName, ?_, ?_,
    k.versionOfFileName?_typesFileName, ?_⟩
  · simpa using k.parts_ne_nil
  · rw [components_typesPathIn hp fun part hpart => (h part hpart).2, h.filter_parts]
  · rw [Component.map_text_map_name, joinStrings_parts]

/-- A module that is read off the path of its types file is well named: no part of its name has a
slash, and the parts that lead down to the file are those that are not empty. -/
theorem isWellNamed_of_ofTypesPath? (hp : p.text ≠ "")
    (h : ofTypesPath? p ((k.directoryIn p).join k.typesFileName) = some k) : k.IsWellNamed := by
  have hslash := not_slash_mem_parts hp h
  obtain ⟨cs, f, hne, hr, -, huri⟩ := ofTypesPath?_eq_some_iff.1 h
  rw [components_typesPathIn hp hslash] at hr
  -- Empty parts leave no component, so what is read off has only the other ones.
  obtain rfl := List.append_cancel_left (List.append_inj' hr rfl).1
  rw [Component.map_text_map_name] at huri
  have hparts : k.parts = k.parts.filter (· ≠ "") :=
    parts_eq_of_undotted (by simpa using hne) huri fun n hn =>
      not_dot_mem_of_mem_parts (List.mem_of_mem_filter hn)
  intro part hpart
  have hnonempty := hpart
  rw [hparts] at hnonempty
  exact ⟨of_decide_eq_true (List.mem_filter.1 hnonempty).2, hslash part hpart⟩

/-- **A module comes back from the path of its types file exactly if it is well named**, and two
well-named modules never have their types files at one path. -/
theorem ofTypesPath?_typesPath (p : Path) (hp : p.text ≠ "") :
    (∀ k : QmlModule, ofTypesPath? p ((k.directoryIn p).join k.typesFileName) = some k ↔
      ∀ part ∈ Text.splitString '.' k.uri, part ≠ "" ∧ '/' ∉ part.toList) ∧
    ∀ k m : QmlModule, k ≠ m →
      (∀ part ∈ Text.splitString '.' k.uri, part ≠ "" ∧ '/' ∉ part.toList) →
      (∀ part ∈ Text.splitString '.' m.uri, part ≠ "" ∧ '/' ∉ part.toList) →
      ((k.directoryIn p).join k.typesFileName).same ((m.directoryIn p).join m.typesFileName) =
        false := by
  refine ⟨fun k => ⟨isWellNamed_of_ofTypesPath? hp, fun h => IsWellNamed.ofTypesPath?_eq h hp⟩,
    fun k m hne hk hm => ?_⟩
  refine beq_eq_false_iff_ne.2 fun hsame => hne ?_
  have hread := IsWellNamed.ofTypesPath?_eq hk hp
  have hread' := ofTypesPath?_congr hsame (IsWellNamed.ofTypesPath?_eq hm hp)
  exact Option.some.inj (hread.symm.trans hread')

/-- Two versions of a module below a directory that is written with dots and slashes. -/
theorem ofTypesPath?_typesPath_of_versions :
    (⟨"./o//"⟩ : Path).text ≠ "" ∧
    ofTypesPath? ⟨"./o//"⟩ (((QmlModule.mk "app.models" 1 0).directoryIn ⟨"./o//"⟩).join
      (QmlModule.mk "app.models" 1 0).typesFileName) = some ⟨"app.models", 1, 0⟩ ∧
    ofTypesPath? ⟨"./o//"⟩ (((QmlModule.mk "app." 1 0).directoryIn ⟨"./o//"⟩).join
      (QmlModule.mk "app." 1 0).typesFileName) ≠ some ⟨"app.", 1, 0⟩ ∧
    (((QmlModule.mk "app.models" 1 0).directoryIn ⟨"./o//"⟩).join
      (QmlModule.mk "app.models" 1 0).typesFileName).same
        (((QmlModule.mk "app.models" 1 10).directoryIn ⟨"./o//"⟩).join
          (QmlModule.mk "app.models" 1 10).typesFileName) = false := by
  have hp : (⟨"./o//"⟩ : Path).text ≠ "" := by decide
  obtain ⟨hback, hapart⟩ := ofTypesPath?_typesPath ⟨"./o//"⟩ hp
  refine ⟨hp, (hback ⟨"app.models", 1, 0⟩).2 (by decide), fun h => ?_,
    hapart _ _ (by decide) (by decide) (by decide)⟩
  exact absurd ((hback ⟨"app.", 1, 0⟩).1 h) (by decide)

/-! ## From a path to its module and back -/

/-- **A module that is read off a path has its types file there exactly if** no component on the way
has a dot in it and the file has the name that the module gives it. -/
theorem same_typesPath_iff (hp : p.text ≠ "") (h : ofTypesPath? p r = some k) {cs : List Component}
    {f : String} (hr : r.components = p.components ++ cs ++ [.name f]) :
    r.same ((k.directoryIn p).join k.typesFileName) = true ↔
      f = k.typesFileName ∧ ∀ c ∈ cs, '.' ∉ c.text.toList := by
  have hslash := not_slash_mem_parts hp h
  have hown := components_typesPathIn hp hslash
  unfold Path.same
  rw [beq_iff_eq]
  constructor
  · intro hsame
    rw [hr, hown] at hsame
    obtain ⟨hdirs, hnames⟩ := List.append_inj' hsame rfl
    refine ⟨Component.name.inj (List.singleton_inj.1 hnames), fun c hc => ?_⟩
    rw [List.append_cancel_left hdirs] at hc
    obtain ⟨part, hpart, rfl⟩ := List.mem_map.1 hc
    exact not_dot_mem_of_mem_parts (List.mem_of_mem_filter hpart)
  · rintro ⟨rfl, hdots⟩
    have hinner := isInner_of_mem_below hp hr
    obtain ⟨cs', f', hne, hr', -, huri⟩ := ofTypesPath?_eq_some_iff.1 h
    obtain ⟨hinit, -⟩ := List.append_inj' (hr.symm.trans hr') rfl
    obtain rfl := List.append_cancel_left hinit
    have hparts : k.parts = cs.map Component.text := by
      refine parts_eq_of_undotted (by simpa using hne) huri fun n hn => ?_
      obtain ⟨c, hc, rfl⟩ := List.mem_map.1 hn
      exact hdots c hc
    -- the components are names, since two dots have a dot
    have hnames : ∀ c ∈ cs, Component.name c.text = c ∧ c.text ≠ "" := by
      intro c hc
      cases hinner c hc with
      | parent => exact absurd (hdots _ hc) (by decide)
      | name hn => exact ⟨rfl, hn.ne_empty⟩
    have hfilter : k.parts.filter (· ≠ "") = cs.map Component.text := by
      rw [hparts]
      refine List.filter_eq_self.2 fun n hn => ?_
      obtain ⟨c, hc, rfl⟩ := List.mem_map.1 hn
      exact decide_eq_true (hnames c hc).2
    have hback : (cs.map Component.text).map Component.name = cs := by
      rw [List.map_map]
      exact (List.map_congr_left fun c hc => (hnames c hc).1).trans (List.map_id cs)
    rw [hr, hown, hfilter, hback]

end QmlModule

end QmlStubs
