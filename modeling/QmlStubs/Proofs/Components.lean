import QmlStubs.Proofs.Places

/-!
# Paths by their components

Paths are compared by their components and followed by their steps. For a path that is direct
(`Path.IsDirect`), that is not empty and does not start with a dot, the two say the same, up to dots,
which are steps but no components: **a walk does not need its dots** (`Walk.drop_stays`), so the path
that is made of the components of another one leads to the same directory (`Reaches.of_moves`). Both
lists of a joined path are those of its parts (`components_join`, `coreSteps_join`).
-/

set_option autoImplicit false

namespace QmlStubs

namespace Text

/-- Joined parts are split again, if none of them has the separator in it. -/
theorem split_joinWith {sep : Char} {parts : List (List Char)} (hne : parts ≠ [])
    (h : ∀ part ∈ parts, sep ∉ part) : split sep (joinWith sep parts) = parts := by
  induction parts with
  | nil => exact absurd rfl hne
  | cons part parts ih =>
    have hpart := h part (List.mem_cons_self ..)
    cases parts with
    | nil => exact split_eq_singleton hpart
    | cons next parts =>
      have hrest := ih (by simp) fun p hp => h p (List.mem_cons_of_mem _ hp)
      rw [joinWith, split_append, split_eq_singleton hpart, hrest]
      · rfl
      · simp

theorem splitString_joinStrings_of_not_mem {sep : Char} {parts : List String} (hne : parts ≠ [])
    (h : ∀ part ∈ parts, sep ∉ part.toList) : splitString sep (joinStrings sep parts) = parts := by
  unfold splitString joinStrings
  rw [String.toList_ofList, split_joinWith (by simpa using hne), List.map_map]
  · exact (List.map_congr_left fun _ _ => String.ofList_toList).trans (List.map_id parts)
  · intro part hpart
    obtain ⟨s, hs, rfl⟩ := List.mem_map.1 hpart
    exact h s hs

end Text

theorem Component.map_text_map_name (ns : List String) :
    (ns.map Component.name).map Component.text = ns := by
  rw [List.map_map]
  exact List.map_id ns

/-- A path that is not empty and does not start with a dot. -/
structure Path.IsDirect (p : Path) : Prop where
  ne_empty : p.text ≠ ""
  ne_here : p.components.head? ≠ some .here

instance (p : Path) : Decidable p.IsDirect :=
  decidable_of_iff (p.text ≠ "" ∧ p.components.head? ≠ some .here)
    ⟨fun h => ⟨h.1, h.2⟩, fun h => ⟨h.1, h.2⟩⟩

namespace Path

variable {p : Path}

/-- The file name of a path is its last component. -/
theorem fileName?_eq_some_iff {f : String} :
    p.fileName? = some f ↔ ∃ cs, p.components = cs ++ [.name f] := by
  rw [← List.getLast?_eq_some_iff]
  unfold fileName?
  split
  next n hlast =>
    rw [hlast]
    simp
  next hlast => exact ⟨nofun, fun h => absurd h (hlast f)⟩

theorem parentComponents?_of_concat {cs : List Component} {c : Component}
    (h : p.components = cs ++ [c]) (hc : c ≠ .root) : p.parentComponents? = some cs := by
  unfold parentComponents?
  rw [h, List.getLast?_concat]
  split
  next hlast => exact absurd hlast (by simp)
  next hlast => exact absurd (Option.some.inj hlast) hc
  next => rw [List.dropLast_concat]

theorem dropComponents?_eq_some_iff {base cs rest : List Component} :
    dropComponents? base cs = some rest ↔ cs = base ++ rest := by
  unfold dropComponents?
  split
  next h =>
    obtain ⟨more, rfl⟩ := List.isPrefixOf_iff_prefix.1 h
    simp
  next h =>
    refine ⟨nofun, ?_⟩
    rintro rfl
    exact absurd (List.isPrefixOf_iff_prefix.2 (List.prefix_append ..)) h

end Path

open QmlStubs.Path (componentOf?)

namespace FileTree

variable {t : FileTree} {p : Path}

/-! ## The start of a path -/

/-- The component that is not made of a part of its own: the root, or a dot at the start. -/
def leadOf (parts : List (List Char)) : List Component :=
  match parts with
  | ['.'] :: _ => [.here]
  | [] :: _ :: _ => [.root]
  | _ => []

theorem components_eq (p : Path) :
    p.components = leadOf (Text.split '/' p.text.toList) ++
      (Text.split '/' p.text.toList).filterMap componentOf? := by
  unfold Path.components Path.componentsOf
  generalize Text.split '/' p.text.toList = parts
  dsimp only
  split
  next => rfl
  next => rfl
  next hdot hroot =>
    unfold leadOf
    split
    next => exact absurd rfl (hdot _)
    next => exact absurd rfl (hroot _ _)
    next => rfl

/-- The start of a path does not depend on what follows its first part, if something does, -/
theorem leadOf_append_cons {parts : List (List Char)} (hne : parts ≠ []) (a b : List Char)
    (as bs : List (List Char)) : leadOf (parts ++ a :: as) = leadOf (parts ++ b :: bs) := by
  obtain ⟨first, rest, rfl⟩ := List.exists_cons_of_ne_nil hne
  cases rest <;> unfold leadOf <;> dsimp only [List.cons_append, List.nil_append] <;> split <;>
    simp_all

/-- or if the first part is not empty. -/
theorem leadOf_append {parts : List (List Char)} (hne : parts ≠ []) (hsome : parts ≠ [[]])
    (more : List (List Char)) : leadOf (parts ++ more) = leadOf parts := by
  obtain ⟨first, rest, rfl⟩ := List.exists_cons_of_ne_nil hne
  cases rest <;> unfold leadOf <;> dsimp only [List.cons_append, List.nil_append] <;> split <;>
    simp_all

theorem text_ne_empty_of_isAbsolute (hp : p.isAbsolute = true) : p.text ≠ "" := by
  intro he
  unfold Path.isAbsolute at hp
  rw [he] at hp
  exact absurd hp (by simp)

theorem exists_text_absolute (hp : p.isAbsolute = true) : ∃ r, p.text.toList = '/' :: r := by
  unfold Path.isAbsolute at hp
  cases h : p.text.toList with
  | nil =>
    rw [h] at hp
    exact absurd hp (by simp)
  | cons c r =>
    rw [h] at hp
    exact ⟨r, by simpa using hp⟩

theorem leadOf_absolute (hp : p.isAbsolute = true) :
    leadOf (Text.split '/' p.text.toList) = [.root] := by
  obtain ⟨r, hr⟩ := exists_text_absolute hp
  obtain ⟨part, parts, hparts⟩ := List.exists_cons_of_ne_nil (Text.split_ne_nil '/' r)
  rw [hr, Text.split, if_pos rfl, hparts]
  rfl

/-- A relative text starts with its first part. -/
theorem exists_split_relative (hp : p.isAbsolute = false) (hne : p.text ≠ "") :
    ∃ first rest, Text.split '/' p.text.toList = first :: rest ∧ first ≠ [] := by
  obtain ⟨first, rest, hparts⟩ := List.exists_cons_of_ne_nil (Text.split_ne_nil '/' p.text.toList)
  refine ⟨first, rest, hparts, ?_⟩
  rintro rfl
  cases h : p.text.toList with
  | nil => exact toList_ne_nil hne h
  | cons c s =>
    unfold Path.isAbsolute at hp
    rw [h] at hp hparts
    have hc : c ≠ '/' := by simpa using hp
    obtain ⟨part, parts, hs⟩ := List.exists_cons_of_ne_nil (Text.split_ne_nil '/' s)
    rw [Text.split, if_neg hc, hs] at hparts
    exact absurd (List.cons.inj hparts).1 (by simp)

/-- An absolute path starts with the root, and a relative one that is direct with its own part. -/
theorem leadOf_direct (hp : p.IsDirect) :
    leadOf (Text.split '/' p.text.toList) = if p.isAbsolute then [.root] else [] := by
  cases habs : p.isAbsolute with
  | true => exact leadOf_absolute habs
  | false =>
    obtain ⟨first, rest, hparts, hfirst⟩ := exists_split_relative habs hp.ne_empty
    have hdot : first ≠ ['.'] := by
      rintro rfl
      refine hp.ne_here ?_
      rw [components_eq, hparts]
      rfl
    rw [hparts]
    unfold leadOf
    split
    next h => exact absurd (List.cons.inj h).1 hdot
    next h => exact absurd (List.cons.inj h).1 hfirst
    next => rfl

theorem isDirect_of_isAbsolute (hp : p.isAbsolute = true) : p.IsDirect := by
  refine ⟨text_ne_empty_of_isAbsolute hp, ?_⟩
  rw [components_eq, leadOf_absolute hp]
  simp

/-- A direct path has a component. -/
theorem components_ne_nil (hp : p.IsDirect) : p.components ≠ [] := by
  rw [components_eq, leadOf_direct hp]
  cases habs : p.isAbsolute with
  | true => simp
  | false =>
    obtain ⟨first, rest, hparts, hfirst⟩ := exists_split_relative habs hp.ne_empty
    have hlead := leadOf_direct hp
    rw [hparts, habs] at hlead
    have hdot : first ≠ ['.'] := by
      rintro rfl
      exact absurd hlead (by simp [leadOf])
    rw [hparts]
    intro hnil
    have hnone : componentOf? first = none := by
      cases hc : componentOf? first with
      | none => rfl
      | some c =>
        rw [List.filterMap_cons_some hc] at hnil
        exact absurd hnil (by simp)
    unfold componentOf? at hnone
    split at hnone
    · exact hfirst rfl
    · exact hdot rfl
    · exact absurd hnone (by simp)
    · exact absurd hnone (by simp)

/-- Only the empty path has no components. -/
theorem components_ne_nil_of_text (hp : p.text ≠ "") : p.components ≠ [] := by
  by_cases hhere : p.components.head? = some .here
  · intro h
    rw [h] at hhere
    cases hhere
  · exact components_ne_nil ⟨hp, hhere⟩

/-! ## Joined paths -/

section Join

variable {x : String}

/-- The text of a relative path behind another one. -/
theorem text_join_relative (hp : p.text ≠ "") (hx : x.toList.head? ≠ some '/') :
    ∃ s, (p.text.toList = s ∨ p.text.toList = s ++ ['/']) ∧
      (p.join x).text.toList = s ++ '/' :: x.toList := by
  unfold Path.join
  rw [if_neg hx]
  split
  next h =>
    rw [List.getLast?_eq_none_iff] at h
    exact absurd h (toList_ne_nil hp)
  next h =>
    obtain ⟨s, hs⟩ := List.getLast?_eq_some_iff.1 h
    exact ⟨s, .inr hs, by rw [String.toList_append, hs, List.append_assoc]; rfl⟩
  next => exact ⟨p.text.toList, .inl rfl, by simp⟩

theorem text_join_relative_ne_empty (hp : p.text ≠ "") (hx : x.toList.head? ≠ some '/') :
    (p.join x).text ≠ "" := by
  obtain ⟨s, -, hjoin⟩ := text_join_relative hp hx
  intro he
  rw [he] at hjoin
  exact absurd hjoin (by simp)

/-- A relative path behind another one starts where that starts. -/
theorem isAbsolute_join_relative (hp : p.text ≠ "") (hx : x.toList.head? ≠ some '/') :
    (p.join x).isAbsolute = p.isAbsolute := by
  obtain ⟨s, hs, hjoin⟩ := text_join_relative hp hx
  unfold Path.isAbsolute
  rw [hjoin]
  cases s with
  | nil =>
    rcases hs with hs | hs
    · exact absurd hs (toList_ne_nil hp)
    · rw [hs]
      rfl
  | cons c s =>
    rcases hs with hs | hs
    · rw [hs]
      rfl
    · rw [hs]
      rfl

/-- What is made of the parts of a path, when nothing is made of an empty one. -/
theorem filterMap_split_join {β : Type} {f : List Char → Option β} (hf : f [] = none)
    (hp : p.text ≠ "") (hx : x.toList.head? ≠ some '/') :
    (Text.split '/' (p.join x).text.toList).filterMap f =
      (Text.split '/' p.text.toList).filterMap f ++ (Text.split '/' x.toList).filterMap f := by
  obtain ⟨s, hs, hjoin⟩ := text_join_relative hp hx
  have hinit : (Text.split '/' p.text.toList).filterMap f = (Text.split '/' s).filterMap f := by
    rcases hs with hs | hs
    · rw [hs]
    · rw [hs, Text.split_append]
      simp [Text.split, hf]
  rw [hjoin, Text.split_append, List.filterMap_append, hinit]

theorem coreSteps_join_relative (hp : p.text ≠ "") (hx : x.toList.head? ≠ some '/') :
    coreSteps (p.join x) = coreSteps p ++ coreSteps ⟨x⟩ :=
  filterMap_split_join rfl hp hx

theorem leadOf_join_relative (hp : p.text ≠ "") (hx : x.toList.head? ≠ some '/') :
    leadOf (Text.split '/' (p.join x).text.toList) = leadOf (Text.split '/' p.text.toList) := by
  obtain ⟨s, hs, hjoin⟩ := text_join_relative hp hx
  rw [hjoin, Text.split_append]
  rcases hs with hs | hs
  · rw [hs]
    refine leadOf_append (Text.split_ne_nil '/' s) (fun hnil => ?_) _
    have hback := Text.joinWith_split '/' s
    rw [hnil] at hback
    exact toList_ne_nil hp (hs.trans hback.symm)
  · obtain ⟨a, as, hparts⟩ := List.exists_cons_of_ne_nil (Text.split_ne_nil '/' x.toList)
    rw [hs, Text.split_append, hparts]
    exact leadOf_append_cons (Text.split_ne_nil '/' s) _ _ _ _

theorem components_join_relative (hp : p.text ≠ "") (hx : x.toList.head? ≠ some '/') :
    (p.join x).components =
      p.components ++ (Text.split '/' x.toList).filterMap componentOf? := by
  rw [components_eq, components_eq p, leadOf_join_relative hp hx, filterMap_split_join rfl hp hx,
    List.append_assoc]

/-- A relative path behind a direct one is direct. -/
theorem isDirect_join_relative (hp : p.IsDirect) (hx : x.toList.head? ≠ some '/') :
    (p.join x).IsDirect := by
  refine ⟨text_join_relative_ne_empty hp.ne_empty hx, ?_⟩
  rw [components_join_relative hp.ne_empty hx, List.head?_append_of_ne_nil _ (components_ne_nil hp)]
  exact hp.ne_here

/-! A part without slashes is such a path. -/

theorem head?_ne_slash (hx : '/' ∉ x.toList) : x.toList.head? ≠ some '/' := fun h =>
  hx (List.mem_of_mem_head? h)

theorem isAbsolute_join_part (hp : p.text ≠ "") (hx : '/' ∉ x.toList) :
    (p.join x).isAbsolute = p.isAbsolute :=
  isAbsolute_join_relative hp (head?_ne_slash hx)

theorem startOf_join_part (hp : p.text ≠ "") (hx : '/' ∉ x.toList) :
    t.startOf (p.join x) = t.startOf p := by
  unfold startOf
  rw [isAbsolute_join_part hp hx]

theorem coreSteps_join (hp : p.text ≠ "") (hx : '/' ∉ x.toList) :
    coreSteps (p.join x) = coreSteps p ++ (stepOf? x.toList).toList := by
  rw [coreSteps_join_relative hp (head?_ne_slash hx)]
  unfold coreSteps
  rw [Text.split_eq_singleton hx]
  cases h : stepOf? x.toList <;> simp [h]

theorem components_join (hp : p.text ≠ "") (hx : '/' ∉ x.toList) :
    (p.join x).components = p.components ++ (componentOf? x.toList).toList := by
  rw [components_join_relative hp (head?_ne_slash hx), Text.split_eq_singleton hx]
  cases h : componentOf? x.toList <;> simp [h]

theorem isDirect_join (hp : p.IsDirect) (hx : '/' ∉ x.toList) : (p.join x).IsDirect :=
  isDirect_join_relative hp (head?_ne_slash hx)

end Join

theorem componentOf?_name {n : String} (hn : IsName n) : componentOf? n.toList = some (.name n) := by
  have hback : String.ofList n.toList = n := String.ofList_toList
  unfold componentOf?
  split
  next h => exact absurd h (toList_ne_nil hn.ne_empty)
  next h => exact absurd (by rw [← hback, h]) hn.ne_dot
  next h => exact absurd (by rw [← hback, h]) hn.ne_dots
  next => rw [hback]

/-- A name behind any path is its last component. -/
theorem components_join_name {n : String} (hn : IsName n) (p : Path) :
    (p.join n).components = p.components ++ [.name n] := by
  by_cases hp : p.text = ""
  · -- behind the empty path it is the whole path
    have hjoin : p.join n = ⟨n⟩ := by
      rcases text_join (p := p) hn with ⟨-, htext⟩ | ⟨-, -, hne, -⟩
      · exact congrArg Path.mk htext
      · exact absurd hp hne
    have hempty : p.components = [] := by
      obtain ⟨text⟩ := p
      subst hp
      rfl
    have hlead : leadOf [n.toList] = [] := by
      unfold leadOf
      split
      next h => exact absurd (String.toList_injective (List.cons.inj h).1) hn.ne_dot
      next h => exact absurd (List.cons.inj h).2 (by simp)
      next => rfl
    rw [hjoin, hempty, components_eq]
    dsimp only
    rw [Text.split_eq_singleton hn.no_slash, hlead, List.filterMap_cons, componentOf?_name hn]
    rfl
  · rw [components_join hp hn.no_slash, componentOf?_name hn]
    rfl

/-! ## The steps of components -/

/-- The step that a component stands for; the root is where an absolute path starts. -/
def moveOf? : Component → Option Step
  | .root => none
  | .here => some .stay
  | .parent => some .up
  | .name n => some (.down n)

theorem moveOf?_componentOf? (part : List Char) :
    (componentOf? part).bind moveOf? = (stepOf? part).filter (· ≠ .stay) := by
  by_cases hnil : part = []
  · subst hnil
    rfl
  by_cases hdot : part = ['.']
  · subst hdot
    rfl
  by_cases hdots : part = ['.', '.']
  · subst hdots
    rfl
  have hcomponent : componentOf? part = some (.name (String.ofList part)) := by
    unfold componentOf?
    split <;> first | contradiction | rfl
  have hstep : stepOf? part = some (.down (String.ofList part)) := by
    unfold stepOf?
    split <;> first | contradiction | rfl
  rw [hcomponent, hstep]
  rfl

/-- The parts of a path as components are its steps without the dots. -/
theorem filterMap_componentOf? (parts : List (List Char)) :
    (parts.filterMap componentOf?).filterMap moveOf? =
      (parts.filterMap stepOf?).filter (· ≠ .stay) := by
  rw [List.filterMap_filterMap, List.filter_filterMap]
  congr 1
  funext part
  exact moveOf?_componentOf? part

/-- **The components of a path are its steps without the dots.** -/
theorem moves_components (hp : p.IsDirect) :
    p.components.filterMap moveOf? = (coreSteps p).filter (· ≠ .stay) := by
  have hlead : (leadOf (Text.split '/' p.text.toList)).filterMap moveOf? = [] := by
    rw [leadOf_direct hp]
    split <;> rfl
  rw [components_eq, List.filterMap_append, hlead, List.nil_append]
  exact filterMap_componentOf? _

/-- A path that starts with a dot has it as a component, too. -/
theorem filter_moves_components (p : Path) :
    (p.components.filterMap moveOf?).filter (· ≠ .stay) = (coreSteps p).filter (· ≠ .stay) := by
  have hlead : ((leadOf (Text.split '/' p.text.toList)).filterMap moveOf?).filter (· ≠ .stay) =
      [] := by
    unfold leadOf
    split <;> rfl
  rw [components_eq, List.filterMap_append, List.filter_append, hlead, List.nil_append,
    filterMap_componentOf?, List.filter_filter]
  simp [coreSteps]

/-- The first component of an absolute path is the root. -/
theorem isAbsolute_iff_components :
    p.isAbsolute = true ↔ p.components.head? = some .root := by
  constructor
  · intro hp
    rw [components_eq, leadOf_absolute hp]
    rfl
  · intro hroot
    cases habs : p.isAbsolute with
    | true => rfl
    | false =>
      exfalso
      have hparts : ∀ part, componentOf? part ≠ some .root := by
        intro part
        unfold componentOf?
        split <;> simp
      rw [components_eq] at hroot
      have hlead : ∀ c ∈ leadOf (Text.split '/' p.text.toList), c ≠ .root := by
        intro c hc
        by_cases hne : p.text = ""
        · have hnone : leadOf (Text.split '/' p.text.toList) = [] := by
            rw [hne]
            rfl
          rw [hnone] at hc
          exact absurd hc List.not_mem_nil
        · obtain ⟨first, rest, hsplit, hfirst⟩ := exists_split_relative habs hne
          rw [hsplit] at hc
          unfold leadOf at hc
          split at hc
          · rw [List.mem_singleton.1 hc]
            simp
          next h => exact absurd (List.cons.inj h).1 hfirst
          · exact absurd hc List.not_mem_nil
      rcases List.mem_append.1 (List.mem_of_mem_head? hroot) with h | h
      · exact hlead _ h rfl
      · obtain ⟨part, -, hpart⟩ := List.mem_filterMap.1 h
        exact hparts part hpart

/-- Equal paths start at the same place. -/
theorem isAbsolute_congr {q : Path} (h : q.components = p.components) :
    q.isAbsolute = p.isAbsolute := by
  rw [Bool.eq_iff_iff, isAbsolute_iff_components, isAbsolute_iff_components, h]

/-- A component that a path has after its root. -/
inductive IsInner : Component → Prop where
  | parent : IsInner .parent
  | name {n : String} (hn : IsName n) : IsInner (.name n)

theorem isInner_of_componentOf? {part : List Char} {c : Component} (hpart : '/' ∉ part)
    (h : componentOf? part = some c) : IsInner c := by
  unfold componentOf? at h
  split at h
  next => exact absurd h (by simp)
  next => exact absurd h (by simp)
  next =>
    rw [← Option.some.inj h]
    exact .parent
  next hnil hdot hdots =>
    rw [← Option.some.inj h]
    have hof : ∀ {s : List Char}, String.ofList part = String.ofList s → part = s := by
      intro s hs
      have := congrArg String.toList hs
      rwa [String.toList_ofList, String.toList_ofList] at this
    exact .name ⟨fun he => hnil (hof (s := []) he), by rwa [String.toList_ofList],
      fun he => hdot (hof (s := ['.']) he), fun he => hdots (hof (s := ['.', '.']) he)⟩

/-- The root, if a path is absolute. -/
def rootOf (p : Path) : List Component := if p.isAbsolute then [.root] else []

/-- The components of a direct path. -/
theorem exists_components (hp : p.IsDirect) :
    ∃ cs, p.components = rootOf p ++ cs ∧ ∀ c ∈ cs, IsInner c := by
  refine ⟨_, (components_eq p).trans (congrArg (· ++ _) (leadOf_direct hp)), fun c hc => ?_⟩
  obtain ⟨part, hpart, hc⟩ := List.mem_filterMap.1 hc
  exact isInner_of_componentOf? (Text.not_mem_of_mem_split hpart) hc

theorem not_mem_text_of_isInner {c : Component} (h : IsInner c) : '/' ∉ c.text.toList := by
  cases h with
  | parent => decide
  | name hn => exact hn.no_slash

theorem stepOf?_text_of_isInner {c : Component} (h : IsInner c) :
    stepOf? c.text.toList = moveOf? c := by
  cases h with
  | parent => rfl
  | name hn => exact stepOf?_name hn

/-- After its first component a path has no root. -/
theorem isInner_of_mem_tail {c : Component} (hc : c ∈ p.components.tail) : IsInner c := by
  rw [components_eq] at hc
  have hmem : c ∈ (Text.split '/' p.text.toList).filterMap componentOf? := by
    revert hc
    unfold leadOf
    split
    · exact id
    · exact id
    · exact List.mem_of_mem_tail
  obtain ⟨part, hpart, hc⟩ := List.mem_filterMap.1 hmem
  exact isInner_of_componentOf? (Text.not_mem_of_mem_split hpart) hc

theorem text_ne_nil_of_isInner {c : Component} (h : IsInner c) : c.text.toList ≠ [] := by
  cases h with
  | parent => decide
  | name hn => exact toList_ne_nil hn.ne_empty

/-- The text of components. -/
theorem text_ofComponents {cs : List Component} (h : ∀ c ∈ cs, IsInner c) :
    (Path.ofComponents (rootOf p ++ cs)).text.toList =
      (if p.isAbsolute then ['/'] else []) ++ Text.joinWith '/' (cs.map fun c => c.text.toList) := by
  have hjoin : (Text.joinStrings '/' (cs.map Component.text)).toList =
      Text.joinWith '/' (cs.map fun c => c.text.toList) := by
    unfold Text.joinStrings
    rw [String.toList_ofList, List.map_map]
    rfl
  unfold rootOf
  split
  · show ("/" ++ Text.joinStrings '/' (cs.map Component.text)).toList = _
    rw [String.toList_append, hjoin]
    rfl
  · rw [List.nil_append, List.nil_append, ← hjoin]
    unfold Path.ofComponents
    split
    next rest => nomatch h .root (List.mem_cons_self ..)
    next => rfl

/-- A path of components starts where they start. -/
theorem isAbsolute_ofComponents {cs : List Component} (h : ∀ c ∈ cs, IsInner c) :
    (Path.ofComponents (rootOf p ++ cs)).isAbsolute = p.isAbsolute := by
  unfold Path.isAbsolute
  rw [text_ofComponents h]
  unfold Path.isAbsolute
  split
  next habs => rw [habs]; rfl
  next hrel =>
    rw [List.nil_append, Bool.eq_false_iff.2 hrel]
    cases cs with
    | nil => rfl
    | cons c cs =>
      have hc := h c (List.mem_cons_self ..)
      obtain ⟨a, l, hl⟩ := List.exists_cons_of_ne_nil (text_ne_nil_of_isInner hc)
      have ha : a ≠ '/' := fun he => not_mem_text_of_isInner hc (by rw [hl, he]; simp)
      cases cs <;> simp [Text.joinWith, hl, ha]

theorem text_ofComponents_ne_empty {cs : List Component} (h : ∀ c ∈ cs, IsInner c)
    (hne : rootOf p ++ cs ≠ []) : (Path.ofComponents (rootOf p ++ cs)).text ≠ "" := by
  intro he
  have htext := text_ofComponents (p := p) h
  rw [he] at htext
  cases habs : p.isAbsolute with
  | true =>
    rw [habs] at htext
    exact absurd htext (by simp)
  | false =>
    rw [habs] at htext
    unfold rootOf at hne
    rw [habs] at hne
    obtain ⟨c, cs, rfl⟩ := List.exists_cons_of_ne_nil hne
    have hc := text_ne_nil_of_isInner (h c (List.mem_cons_self ..))
    cases cs <;> simp_all [Text.joinWith]

/-- **A path of components has their steps.** -/
theorem coreSteps_ofComponents {cs : List Component} (h : ∀ c ∈ cs, IsInner c) :
    coreSteps (Path.ofComponents (rootOf p ++ cs)) = cs.filterMap moveOf? := by
  have hsteps : (Text.split '/' (Text.joinWith '/' (cs.map fun c => c.text.toList))).filterMap
      stepOf? = cs.filterMap moveOf? := by
    cases cs with
    | nil => rfl
    | cons c cs =>
      rw [Text.split_joinWith (by simp), List.filterMap_map]
      · exact List.filterMap_congr fun c hc => stepOf?_text_of_isInner (h c hc)
      · intro part hpart
        obtain ⟨c, hc, rfl⟩ := List.mem_map.1 hpart
        exact not_mem_text_of_isInner (h c hc)
  unfold coreSteps
  rw [text_ofComponents h, ← hsteps]
  split
  · rw [List.singleton_append, Text.split, if_pos rfl, List.filterMap_cons, stepOf?_nil]
  · rw [List.nil_append]

/-! ## Walks without dots -/

/-- A dot is where the walk is already. -/
theorem Walk.drop_stay {p q : Place} {steps more : List Step} {k : Nat}
    (w : Walk t p (steps ++ .stay :: more) k q []) : Walk t p (steps ++ more) k q [] := by
  obtain ⟨k₁, k₂, r, rfl, w₁, w₂⟩ := w.split_end
  cases w₂ with
  | stay h w₂ => exact (w₁.append more).trans w₂

/-- **A walk does not need its dots.** -/
theorem Walk.drop_stays {p q : Place} {steps : List Step} {k : Nat} (w : Walk t p steps k q []) :
    Walk t p (steps.filter (· ≠ .stay)) k q [] := by
  have hall : ∀ init, Walk t p (init ++ steps) k q [] →
      Walk t p (init ++ steps.filter (· ≠ .stay)) k q [] := by
    clear w
    induction steps with
    | nil => exact fun init w => w
    | cons step steps ih =>
      intro init w
      by_cases hstep : step = .stay
      · rw [List.filter_cons_of_neg (by simpa using hstep)]
        rw [hstep] at w
        exact ih init w.drop_stay
      · rw [List.filter_cons_of_pos (by simpa using hstep)]
        have := ih (init ++ [step]) (by rwa [List.append_assoc])
        rwa [List.append_assoc] at this
  exact hall [] w

/-- **Nor do its dots stop it.** -/
theorem Walk.with_stays {p q : Place} {steps : List Step} {k : Nat}
    (w : Walk t p (steps.filter (· ≠ .stay)) k q []) (hq : t.isDirectoryAt q = true) :
    Walk t p steps k q [] := by
  induction steps generalizing p k with
  | nil => exact w
  | cons step steps ih =>
    cases step with
    | stay =>
      rw [List.filter_cons_of_neg (by simp)] at w
      exact .stay (w.isDirectoryAt_start hq) (ih w)
    | up =>
      rw [List.filter_cons_of_pos (by simp)] at w
      cases w with
      | up h w => exact .up h (ih w)
    | down name =>
      rw [List.filter_cons_of_pos (by simp)] at w
      cases w with
      | down h hn he hplain w => exact .down h hn he hplain (ih w)
      | link h hn he w =>
        obtain ⟨k₁, k₂, r, rfl, w₁, w₂⟩ := w.split_end
        exact .link h hn he ((w₁.append steps).trans (ih w₂))

/-- A path with the moves of another one reaches the directory that it reaches. -/
theorem Reaches.of_moves {p q : Path} (hstart : t.startOf q = t.startOf p)
    (hmoves : coreSteps q = (coreSteps p).filter (· ≠ .stay)) {d : Place} (h : Reaches t p d) :
    Reaches t q d := by
  obtain ⟨k, hk, w, hd⟩ := h
  refine ⟨k, hk, ?_, hd⟩
  rw [hstart, hmoves]
  exact w.drop_stays

/-- **Equal paths reach the same directory.** -/
theorem Reaches.of_components {p q : Path} (hsame : q.components = p.components) {d : Place}
    (h : Reaches t p d) : Reaches t q d := by
  obtain ⟨k, hk, w, hd⟩ := h
  have hstart : t.startOf q = t.startOf p := by
    unfold startOf
    rw [isAbsolute_congr hsame]
  have hsteps : (coreSteps q).filter (· ≠ .stay) = (coreSteps p).filter (· ≠ .stay) := by
    rw [← filter_moves_components, ← filter_moves_components, hsame]
  refine ⟨k, hk, ?_, hd⟩
  rw [hstart]
  refine Walk.with_stays ?_ hd
  rw [hsteps]
  exact w.drop_stays

end FileTree

end QmlStubs
