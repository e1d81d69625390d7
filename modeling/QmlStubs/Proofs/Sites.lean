import QmlStubs.Proofs.Components
import QmlStubs.Proofs.Edits

/-!
# Below a directory without links

All stubs lie below one directory. If there are no links below it, paths are as simple as they
look: **names behind the path of a site lead to the place with these names** (`Ground.place?_joins`),
and every edit at such a path stays below the site and leaves a site (`Ground.put`, `Ground.cut`,
`Ground.deepened_makeDirectories`). `Within` says that nothing else has changed.
-/

set_option autoImplicit false

namespace QmlStubs

/-- The path of names behind a path. -/
def joins (p : Path) (names : List String) : Path := names.foldl Path.join p

namespace FileTree

variable {t u : FileTree} {p : Path} {d : Place}

theorem joins_concat (p : Path) (names : List String) (n : String) :
    joins p (names ++ [n]) = (joins p names).join n := List.foldl_concat ..

theorem joins_append (p : Path) (names more : List String) :
    joins p (names ++ more) = joins (joins p names) more := List.foldl_append ..

theorem isDirect_joins (hp : p.IsDirect) {ns : List String} (hns : ∀ n ∈ ns, IsName n) :
    (joins p ns).IsDirect := by
  induction ns using List.reverseRecOn with
  | nil => exact hp
  | append_singleton ns n ih =>
    rw [joins_concat]
    exact isDirect_join (ih fun m hm => hns m (by simp [hm])) (hns n (by simp)).no_slash

/-- A part of a joined text has no more wrong with it. -/
theorem textError?_of_joins (hp : p.IsDirect) {ns : List String} (hns : ∀ n ∈ ns, IsName n)
    (h : textError? (joins p ns) = none) : textError? p = none := by
  induction ns generalizing p with
  | nil => exact h
  | cons n ns ih =>
    have hn := hns n (List.mem_cons_self ..)
    exact textError?_of_join hn hp.ne_empty
      (ih (isDirect_join hp hn.no_slash) (fun m hm => hns m (List.mem_cons_of_mem _ hm)) h)

theorem startOf_joins (p : Path) {ns : List String} (hns : ∀ n ∈ ns, IsName n) :
    t.startOf (joins p ns) = t.startOf p := by
  induction ns using List.reverseRecOn with
  | nil => rfl
  | append_singleton ns n ih =>
    rw [joins_concat, startOf_join (hns n (by simp)), ih fun m hm => hns m (by simp [hm])]

theorem isAbsolute_joins (hp : p.IsDirect) {ns : List String} (hns : ∀ n ∈ ns, IsName n) :
    (joins p ns).isAbsolute = p.isAbsolute := by
  induction ns using List.reverseRecOn with
  | nil => rfl
  | append_singleton ns n ih =>
    have hns' : ∀ m ∈ ns, IsName m := fun m hm => hns m (by simp [hm])
    rw [joins_concat, isAbsolute_join_part (isDirect_joins hp hns').ne_empty (hns n (by simp)).no_slash,
      ih hns']

theorem coreSteps_joins (hp : p.text ≠ "") {ns : List String} (hns : ∀ n ∈ ns, IsName n) :
    coreSteps (joins p ns) = coreSteps p ++ ns.map .down := by
  induction ns generalizing p with
  | nil => exact (List.append_nil _).symm
  | cons n ns ih =>
    obtain ⟨hn, hns⟩ := List.forall_mem_cons.1 hns
    show coreSteps (joins (p.join n) ns) = _
    rw [ih (text_join_ne_empty hn) hns, coreSteps_join hp hn.no_slash, stepOf?_name hn,
      List.map_cons, List.append_assoc]
    rfl

theorem components_joins (p : Path) {ns : List String} (hns : ∀ n ∈ ns, IsName n) :
    (joins p ns).components = p.components ++ ns.map .name := by
  induction ns using List.reverseRecOn with
  | nil => exact (List.append_nil _).symm
  | append_singleton ns n ih =>
    rw [joins_concat, components_join_name (hns n (by simp)), ih fun m hm => hns m (by simp [hm]),
      List.map_append, List.append_assoc]
    rfl

theorem startOf_absolute (hp : p.isAbsolute = true) : t.startOf p = [] := by
  unfold startOf
  rw [hp, if_pos rfl]

theorem stepsOf_joins (hp : p.IsDirect) {ns : List String} (hne : ns ≠ [])
    (hns : ∀ n ∈ ns, IsName n) : stepsOf (joins p ns) = coreSteps p ++ ns.map .down := by
  obtain ⟨init, n, rfl⟩ := (List.eq_nil_or_concat' ns).resolve_left hne
  have hinit : ∀ m ∈ init, IsName m := fun m hm => hns m (by simp [hm])
  rw [joins_concat, stepsOf_join (hns n (by simp)), coreSteps_joins hp.ne_empty hinit, List.map_append,
    List.append_assoc]
  rfl

/-! ## Sites -/

/-- An absolute path to a directory without links below it. -/
structure Site (t : FileTree) (p : Path) (d : Place) : Prop where
  isTree : IsTree t
  absolute : p.isAbsolute = true
  reaches : Reaches t p d
  plain : ∀ ns e, ns ≠ [] → t.at? (d ++ ns) = some e → IsPlain e
  named : ∀ q n e, t.at? (q ++ [n]) = some e → IsName n ∧ IsShort n

/-- A direct path to a directory without links below it. -/
structure Ground (t : FileTree) (p : Path) (d : Place) : Prop where
  isTree : IsTree t
  direct : p.IsDirect
  reaches : Reaches t p d
  plain : ∀ ns e, ns ≠ [] → t.at? (d ++ ns) = some e → IsPlain e
  named : ∀ q n e, t.at? (q ++ [n]) = some e → IsName n ∧ IsShort n

/-- A site is a ground that is absolute. -/
theorem Site.ground (h : Site t p d) : Ground t p d :=
  ⟨h.isTree, isDirect_of_isAbsolute h.absolute, h.reaches, h.plain, h.named⟩

theorem Ground.site (h : Ground t p d) (hp : p.isAbsolute = true) : Site t p d :=
  ⟨h.isTree, hp, h.reaches, h.plain, h.named⟩

instance (e : Entry) : Decidable (IsPlain e) :=
  match e with
  | .link target => .isFalse fun h => h target rfl
  | .directory _ => .isTrue nofun
  | .file _ _ _ => .isTrue nofun

instance (n : String) : Decidable (IsShort n) :=
  inferInstanceAs (Decidable (¬ maxNameLength < n.utf8ByteSize))

theorem mem_entries_of_at? {q : Place} {e : Entry} (hq : q ≠ []) (he : t.at? q = some e) :
    (q, e) ∈ t.entries.entries := by
  unfold at? at he
  rw [if_neg hq] at he
  exact SortedMap.mem_entries.2 he

/-- All names are told by the entries. -/
theorem named_of_entries (h : ∀ e ∈ t.entries.entries, ∀ n ∈ e.1, IsName n ∧ IsShort n) :
    ∀ q n e, t.at? (q ++ [n]) = some e → IsName n ∧ IsShort n := fun _ n _ he =>
  h _ (mem_entries_of_at? (by simp) he) n (by simp)

/-- In a tree without links only the entries have to be looked at. -/
theorem Site.of_entries (habs : p.isAbsolute = true) (htext : textError? p = none)
    (hplace : (t.place? p).toOption = some d ∧ t.isDirectoryAt d = true)
    (hcurrent : t.isDirectoryAt t.current = true)
    (h : ∀ e ∈ t.entries.entries, t.isDirectoryAt e.1.dropLast = true ∧ IsPlain e.2 ∧
      ∀ n ∈ e.1, IsName n ∧ IsShort n) : Site t p d := by
  have hok : t.place? p = .ok d := ok_of_toOption hplace.1
  exact ⟨.of_entries (fun e he => (h e he).1) hcurrent, habs,
    (reaches_iff htext).2 ⟨hok, hplace.2⟩,
    fun ns e hne he => (h _ (mem_entries_of_at? (by simp [hne]) he)).2.1,
    named_of_entries fun e he => (h e he).2.2⟩

/-- Nothing has changed but what is below a place. -/
structure Within (d : Place) (t u : FileTree) : Prop where
  same : ∀ q, (∀ ns, ns ≠ [] → q ≠ d ++ ns) → u.at? q = t.at? q
  current : u.current = t.current
  clock : u.clock = t.clock

theorem Within.refl (d : Place) (t : FileTree) : Within d t t := ⟨fun _ _ => rfl, rfl, rfl⟩

theorem Within.trans {v : FileTree} (h : Within d t u) (h' : Within d u v) : Within d t v where
  same q hq := (h'.same q hq).trans (h.same q hq)
  current := h'.current.trans h.current
  clock := h'.clock.trans h.clock

theorem Within.put {ns : List String} (hne : ns ≠ []) (e : Entry) :
    Within d t (t.put (d ++ ns) e) where
  same q hq := by rw [at?_put (by simp [hne]), if_neg (hq ns hne)]
  current := rfl
  clock := rfl

theorem Within.cut {ns : List String} (ht : IsTree t) (hne : ns ≠ [])
    (hfree : t.isDirectoryAt (d ++ ns) = false) : Within d t (t.cut (d ++ ns)) where
  same q hq := by rw [ht.at?_cut hfree, if_neg (hq ns hne)]
  current := rfl
  clock := rfl

namespace Ground

/-- What is above an entry below a site is a directory with a name. -/
theorem above (h : Ground t p d) {ns more : List String} (hmore : more ≠ [])
    (he : (t.at? (d ++ ns ++ more)).isSome = true) : t.isDirectoryAt (d ++ ns) = true := by
  cases hdir : t.isDirectoryAt (d ++ ns) with
  | true => rfl
  | false =>
    rw [h.isTree.at?_below hdir hmore] at he
    exact absurd he (by simp)

theorem names (h : Ground t p d) {ns : List String} (he : (t.at? (d ++ ns)).isSome = true) :
    ∀ n ∈ ns, IsName n ∧ IsShort n := by
  intro n hn
  obtain ⟨init, rest, rfl⟩ := List.append_of_mem hn
  have hhead : (t.at? (d ++ init ++ [n])).isSome = true := by
    cases rest with
    | nil => rwa [List.append_assoc]
    | cons m rest =>
      have hsplit : d ++ (init ++ n :: m :: rest) = d ++ (init ++ [n]) ++ (m :: rest) := by simp
      rw [hsplit] at he
      obtain ⟨time, htime⟩ := isDirectoryAt_iff.1 (h.above (by simp) he)
      rw [List.append_assoc, htime]
      rfl
  obtain ⟨e, he⟩ := Option.isSome_iff_exists.1 hhead
  exact h.named _ n e he

/-- **Steps down from a site lead to the place with their names**, if it is taken. -/
theorem walk_downs (h : Ground t p d) {ns : List String} {k : Nat} {q : Place} :
    Walk t d (ns.map .down) k q [] ↔ k = 0 ∧ q = d ++ ns ∧ (t.at? (d ++ ns)).isSome = true := by
  induction ns using List.reverseRecOn generalizing k q with
  | nil =>
    rw [List.append_nil]
    constructor
    · intro w
      cases w
      obtain ⟨time, htime⟩ := isDirectoryAt_iff.1 h.reaches.isDirectory
      exact ⟨rfl, rfl, by rw [htime]; rfl⟩
    · rintro ⟨rfl, hq, -⟩
      rw [hq]
      exact .refl d []
  | append_singleton ns n ih =>
    rw [List.map_append, ← List.append_assoc]
    constructor
    · intro w
      obtain ⟨k₁, k₂, r, rfl, w₁, w₂⟩ := w.split_end
      obtain ⟨rfl, rfl, -⟩ := ih.1 w₁
      cases w₂ with
      | down hdir hshort he hplain w₂ =>
        cases w₂
        exact ⟨rfl, rfl, by rw [he]; rfl⟩
      | link hdir hshort he w₂ =>
        rw [List.append_assoc] at he
        exact absurd rfl (h.plain _ _ (by simp) he _)
    · rintro ⟨rfl, rfl, he⟩
      have hdir := h.above (by simp) he
      obtain ⟨time, htime⟩ := isDirectoryAt_iff.1 hdir
      have winit := ih.2 ⟨rfl, rfl, by rw [htime]; rfl⟩
      obtain ⟨e, he⟩ := Option.isSome_iff_exists.1 he
      have hplain : IsPlain e := h.plain (ns ++ [n]) e (by simp) (by rwa [← List.append_assoc])
      have wlast : Walk t (d ++ ns) [.down n] 0 (d ++ ns ++ [n]) [] :=
        .down hdir (h.named _ n e he).2 he hplain (.refl _ _)
      exact (winit.append [.down n]).trans wlast

/-- A walk to a site and names behind it ends at the place with the names. -/
theorem walk_joins (h : Ground t p d) {a : Place} {steps : List Step} {m : Nat}
    (hs : Walk t a steps m d []) {ns : List String} {k : Nat} {q : Place}
    (w : Walk t a (steps ++ ns.map .down) k q []) :
    q = d ++ ns ∧ (t.at? (d ++ ns)).isSome = true := by
  obtain ⟨k₁, k₂, r, rfl, w₁, w₂⟩ := w.split_end
  obtain rfl := w₁.unique hs
  exact (h.walk_downs.1 w₂).2

/-- **Names behind the path of a site lead to the place with these names.** -/
theorem place?_joins (h : Ground t p d) {ns : List String} (hne : ns ≠ [])
    (hns : ∀ n ∈ ns, IsName n) {q : Place} :
    t.place? (joins p ns) = .ok q ↔
      textError? (joins p ns) = none ∧ q = d ++ ns ∧ (t.at? (d ++ ns)).isSome = true := by
  obtain ⟨m, hm, w, hdir⟩ := h.reaches
  rw [place?_eq_ok, startOf_joins p hns, stepsOf_joins h.direct hne hns]
  refine and_congr_right fun _ => ⟨?_, ?_⟩
  · rintro ⟨k, -, w'⟩
    exact h.walk_joins w w'
  · rintro ⟨rfl, he⟩
    have wdown := h.walk_downs.2 ⟨rfl, rfl, he⟩
    exact ⟨m, hm, (w.append _).trans wdown⟩

/-- A directory below a site is a site. -/
theorem joins (h : Ground t p d) {ns : List String} (hdir : t.isDirectoryAt (d ++ ns) = true) :
    Ground t (joins p ns) (d ++ ns) := by
  obtain ⟨time, htime⟩ := isDirectoryAt_iff.1 hdir
  have hsome : (t.at? (d ++ ns)).isSome = true := by
    rw [htime]
    rfl
  have hns : ∀ n ∈ ns, IsName n := fun n hn => (h.names hsome n hn).1
  refine ⟨h.isTree, isDirect_joins h.direct hns, ?_, fun more e hne he => ?_, h.named⟩
  · obtain ⟨m, hm, w, -⟩ := h.reaches
    refine ⟨m, hm, ?_, hdir⟩
    rw [startOf_joins p hns, coreSteps_joins h.direct.ne_empty hns]
    exact (w.append _).trans (h.walk_downs.2 ⟨rfl, rfl, hsome⟩)
  · rw [List.append_assoc] at he
    exact h.plain (ns ++ more) e (by simp [hne]) he

/-- Another path to the directory of a site. -/
theorem of_coreSteps (h : Ground t p d) {q : Path} (hq : q.IsDirect)
    (hstart : q.isAbsolute = p.isAbsolute) (hsteps : coreSteps q = coreSteps p) :
    Ground t q d := by
  refine ⟨h.isTree, hq, ?_, h.plain, h.named⟩
  obtain ⟨m, hm, w, hdir⟩ := h.reaches
  refine ⟨m, hm, ?_, hdir⟩
  unfold startOf at w ⊢
  rw [hstart, hsteps]
  exact w

/-! ## Edits of files -/

theorem writable (h : Ground t p d) {ns : List String} (hne : ns ≠ [])
    (hfree : t.isDirectoryAt (d ++ ns) = false) : Writable t (d ++ ns) :=
  ⟨hfree, fun target he => h.plain ns _ hne he target rfl⟩

/-- A site after a file was written below it. -/
theorem put (h : Ground t p d) {ns : List String} {n : String}
    (hdir : t.isDirectoryAt (d ++ ns) = true) (hn : IsName n) (hshort : IsShort n)
    (hfree : t.isDirectoryAt (d ++ ns ++ [n]) = false) {e : Entry} (he : IsPlain e) :
    Ground (t.put (d ++ ns ++ [n]) e) p d := by
  have hw : Writable t (d ++ ns ++ [n]) := by
    rw [List.append_assoc] at hfree ⊢
    exact h.writable (by simp) hfree
  have hne : d ++ ns ++ [n] ≠ [] := by simp
  refine ⟨h.isTree.put hdir hfree, h.direct, h.reaches.put hne hw e, fun ms e' hms he' => ?_,
    fun q m e' he' => ?_⟩
  · rw [at?_put hne] at he'
    split at he'
    · rwa [← Option.some.inj he']
    · exact h.plain ms e' hms he'
  · rw [at?_put hne] at he'
    split at he'
    next heq =>
      obtain rfl : m = n := by simpa using (List.append_inj' heq rfl).2
      exact ⟨hn, hshort⟩
    next => exact h.named q m e' he'

/-- A site after something that is no directory was taken out below it. -/
theorem cut (h : Ground t p d) {ns : List String} (hne : ns ≠ [])
    (hfree : t.isDirectoryAt (d ++ ns) = false) : Ground (t.cut (d ++ ns)) p d := by
  have hat := h.isTree.at?_cut hfree
  have hsame : AgreesOff (fun q => q = d ++ ns) t (t.cut (d ++ ns)) := by
    intro q e hq he
    rwa [hat, if_neg hq]
  refine ⟨h.isTree.cut hfree, h.direct,
    h.reaches.frame hsame (fun q hq => hq ▸ h.writable hne hfree) rfl, fun ms e hms he => ?_,
    fun q m e he => ?_⟩
  · rw [hat] at he
    split at he
    · exact absurd he (by simp)
    · exact h.plain ms e hms he
  · rw [hat] at he
    split at he
    · exact absurd he (by simp)
    · exact h.named q m e he

end Ground

/-! ## Making directories below a site -/

/-- A tree with more directories below a site, on the way down the given names. -/
structure Deepened (p : Path) (d : Place) (ns : List String) (t u : FileTree) : Prop where
  grown : Grown t u
  within : Within d t u
  ground : Ground u p d
  made : ∀ q, (u.at? q).isSome = true →
    (t.at? q).isSome = true ∨ ∃ ms, ms ≠ [] ∧ ms <+: ns ∧ q = d ++ ms

theorem Deepened.refl {ns : List String} (h : Ground t p d) : Deepened p d ns t t :=
  ⟨Grown.refl t, Within.refl d t, h, fun _ => .inl⟩

theorem Deepened.trans {v : FileTree} {ns : List String} (h : Deepened p d ns t u)
    (h' : Deepened p d ns u v) : Deepened p d ns t v where
  grown := h.grown.trans h'.grown
  within := h.within.trans h'.within
  ground := h'.ground
  made q hq := (h'.made q hq).elim (h.made q) .inr

theorem Deepened.mono {ns more : List String} (h : Deepened p d ns t u)
    (hle : ns <+: more) : Deepened p d more t u where
  grown := h.grown
  within := h.within
  ground := h.ground
  made q hq := (h.made q hq).imp_right fun ⟨ms, hne, hms, hq⟩ => ⟨ms, hne, hms.trans hle, hq⟩

theorem withDirectory?_eq_error {r : Path} {e : FileError} (h : textError? (trimSlashes r) = some e) :
    withDirectory? r t = .error e := by
  unfold withDirectory? followParent?
  rw [h]
  rfl

/-- Only the empty text leads nowhere by itself. -/
theorem textError?_ne_notFound {r : Path} (h : r.text ≠ "") : textError? r ≠ some .notFound := by
  unfold textError?
  rw [if_neg h]
  split
  · simp
  · split <;> simp

theorem text_trimSlashes_ne_empty {r : Path} (h : r.text ≠ "") : (trimSlashes r).text ≠ "" := by
  rcases trimSlashes_cases r with ⟨htrim, -⟩ | ⟨m, -, hne, -⟩
  · rwa [htrim]
  · intro he
    rw [he] at hne
    exact hne rfl

theorem trimSlashes_eq_self {r : Path} (h : endsInSlash r = false) : trimSlashes r = r := by
  rcases trimSlashes_cases r with ⟨htrim, -⟩ | ⟨m, hm, -⟩
  · exact htrim
  · cases m with
    | zero =>
      rw [List.replicate_zero, List.append_nil] at hm
      have htext : (trimSlashes r).text = r.text := String.toList_injective hm.symm
      cases r
      cases htrim : trimSlashes _
      rw [htrim] at htext
      exact congrArg Path.mk htext
    | succ m =>
      unfold endsInSlash at h
      rw [hm, List.replicate_succ', ← List.append_assoc, List.getLast?_concat] at h
      exact absurd h (by simp)

/-- What can be made has a text that can be followed. -/
theorem textError?_of_makeDirectories {r : Path} (htext : r.text ≠ "") (hend : endsInSlash r = false)
    (h : t.run (makeDirectories r) = (.ok (), u)) : textError? r = none := by
  cases he : textError? r with
  | none => rfl
  | some e =>
    have hdir : t.isDirectory r = false := by
      rw [← Bool.not_eq_true, isDirectory_iff, he]
      simp
    unfold makeDirectories Path.ancestors at h
    rw [if_neg htext] at h
    dsimp only at h
    rw [run_makeFirst, withDirectory?_eq_error (by rwa [trimSlashes_eq_self hend])] at h
    have hne : e ≠ .notFound := fun hnot => textError?_ne_notFound htext (hnot ▸ he)
    cases e <;> first | exact absurd rfl hne | simp [hdir] at h

/-- Nothing is made where a directory is reached. -/
theorem run_makeFirst_of_reaches {r : Path} (htext : r.text ≠ "") {c : Place} (h : Reaches t r c)
    (above : List Path) : (t.run (makeFirst (r :: above))).2 = t := by
  have hsame : ∀ e : FileError, (if t.isDirectory r then ((.ok () : Except FileError Unit), t)
      else (.error e, t)).2 = t := by
    intro e
    split <;> rfl
  cases he : textError? (trimSlashes r) with
  | none =>
    obtain ⟨q, hq⟩ := exists_followParent?_of_reaches he (reaches_trimSlashes.2 h)
    have hwith : withDirectory? r t = .error .alreadyExists := by
      unfold withDirectory?
      rw [hq]
      rfl
    rw [run_makeFirst, hwith]
    exact hsame _
  | some e =>
    have hne : e ≠ .notFound := fun hnot =>
      textError?_ne_notFound (text_trimSlashes_ne_empty htext) (hnot ▸ he)
    rw [run_makeFirst, withDirectory?_eq_error he]
    cases e <;> first | exact absurd rfl hne | exact hsame _

section MakeBelow

variable {ns : List String}

/-- A directory that is made behind a site's path is the place with the names. -/
theorem Ground.deepened_withDirectory? (h : Ground t p d) {r : Path} {steps : List Step} {m : Nat}
    (hs : Walk t (t.startOf r) steps m d []) (hne : ns ≠ []) (hns : ∀ n ∈ ns, IsName n)
    (hsteps : coreSteps r = steps ++ ns.map .down)
    (hu : withDirectory? r t = .ok u) : Deepened p d ns t u := by
  have hgrown := grown_of_withDirectory? hu
  obtain ⟨q, hq, rfl⟩ := withDirectory?_ok hu
  obtain ⟨init, name, c, hcore, hshort, rfl, ⟨k, -, w⟩, hdir, hnone⟩ :=
    exists_of_followParent?_free hq
  obtain ⟨names, n, rfl⟩ := (List.eq_nil_or_concat' ns).resolve_left hne
  rw [coreSteps_trimSlashes, hsteps, List.map_append, ← List.append_assoc] at hcore
  obtain ⟨rfl, hlast⟩ := List.append_inj' hcore rfl
  obtain rfl : n = name := by simpa using hlast
  rw [startOf_trimSlashes] at w
  obtain ⟨rfl, -⟩ := h.walk_joins hs w
  refine ⟨hgrown, ?_, h.put hdir (hns n (by simp)) hshort (isDirectoryAt_eq_false_of_at? hnone) nofun,
    fun q hq => ?_⟩
  · rw [List.append_assoc]
    exact Within.put (by simp) _
  · rw [at?_put (by simp)] at hq
    split at hq
    next he => exact .inr ⟨names ++ [n], hne, List.prefix_refl _, he.trans (List.append_assoc ..)⟩
    next => exact .inl hq

/-- The first of some directories is made below a site if the others are. -/
theorem Ground.deepened_makeFirst (h : Ground t p d) {r : Path} {steps : List Step}
    (hs : ∀ v, Ground v p d → ∃ m, Walk v (v.startOf r) steps m d []) (hne : ns ≠ [])
    (hns : ∀ n ∈ ns, IsName n) (hsteps : coreSteps r = steps ++ ns.map .down) {above : List Path}
    (habove : Deepened p d ns t (t.run (makeFirst above)).2) :
    Deepened p d ns t (t.run (makeFirst (r :: above))).2 := by
  have hself : Deepened p d ns t t := .refl h
  rw [run_makeFirst]
  split
  next u hu =>
    obtain ⟨m, w⟩ := hs t h
    exact h.deepened_withDirectory? w hne hns hsteps hu
  next =>
    cases hrun : t.run (makeFirst above) with
    | mk result u =>
      rw [hrun] at habove
      cases result with
      | error e => exact habove
      | ok =>
        dsimp only at habove ⊢
        split
        next v hv =>
          obtain ⟨m, w⟩ := hs u habove.ground
          exact habove.trans (habove.ground.deepened_withDirectory? w hne hns hsteps hv)
        next => split <;> exact habove
  next => split <;> exact hself

/-- The paths of the first components, the longest first. -/
def pathsAbove (cs : List Component) (k : Nat) : List Path :=
  ((List.range k).reverse.map fun n => Path.ofComponents (cs.take n)).filter fun q => q.text ≠ ""

theorem pathsAbove_succ {cs : List Component} {k : Nat}
    (h : (Path.ofComponents (cs.take k)).text ≠ "") :
    pathsAbove cs (k + 1) = Path.ofComponents (cs.take k) :: pathsAbove cs k := by
  unfold pathsAbove
  rw [List.range_succ, List.reverse_append, List.reverse_singleton, List.singleton_append,
    List.map_cons, List.filter_cons_of_pos (by simpa using h)]

/-- The directories above one below a site are made below the site. -/
theorem Ground.deepened_pathsAbove (h : Ground t p d) (hns : ∀ n ∈ ns, IsName n) (i : Nat)
    (hi : i ≤ ns.length) :
    Deepened p d (ns.take i) t (t.run (makeFirst
      (pathsAbove (p.components ++ ns.map .name) (p.components.length + i + 1)))).2 := by
  obtain ⟨cs, hcs, hinner⟩ := exists_components h.direct
  have hroot : (rootOf p).filterMap moveOf? = [] := by
    unfold rootOf
    split <;> rfl
  have hmoves : cs.filterMap moveOf? = (coreSteps p).filter (· ≠ .stay) := by
    rw [← moves_components h.direct, hcs, List.filterMap_append, hroot, List.nil_append]
  have htake : (p.components ++ ns.map Component.name).take (p.components.length + i) =
      rootOf p ++ (cs ++ (ns.take i).map .name) := by
    rw [List.take_length_add_append, ← List.map_take, hcs, List.append_assoc]
  have hall : ∀ c ∈ cs ++ (ns.take i).map Component.name, IsInner c := by
    intro c hc
    rcases List.mem_append.1 hc with hc | hc
    · exact hinner c hc
    · obtain ⟨n, hn, rfl⟩ := List.mem_map.1 hc
      exact .name (hns n (List.mem_of_mem_take hn))
  have htext : (Path.ofComponents (rootOf p ++ (cs ++ (ns.take i).map .name))).text ≠ "" := by
    refine text_ofComponents_ne_empty hall fun hnil => components_ne_nil h.direct ?_
    rw [← List.append_assoc, ← hcs] at hnil
    exact (List.append_eq_nil_iff.1 hnil).1
  have hstart : ∀ v : FileTree, v.startOf (Path.ofComponents
      (rootOf p ++ (cs ++ (ns.take i).map .name))) = v.startOf p := by
    intro v
    unfold startOf
    rw [isAbsolute_ofComponents hall]
  have hsteps : coreSteps (Path.ofComponents (rootOf p ++ (cs ++ (ns.take i).map .name))) =
      (coreSteps p).filter (· ≠ .stay) ++ (ns.take i).map .down := by
    rw [coreSteps_ofComponents hall, List.filterMap_append, hmoves, List.filterMap_map]
    congr 1
    have hdown : moveOf? ∘ Component.name = some ∘ Step.down := rfl
    rw [hdown, List.filterMap_eq_map]
  have hwalk : ∀ v, Ground v p d → ∃ m, Walk v (v.startOf (Path.ofComponents
      (rootOf p ++ (cs ++ (ns.take i).map .name)))) ((coreSteps p).filter (· ≠ .stay)) m d [] := by
    intro v hv
    obtain ⟨m, -, w, -⟩ := hv.reaches
    rw [hstart v]
    exact ⟨m, w.drop_stays⟩
  rw [pathsAbove_succ (by rw [htake]; exact htext), htake]
  cases i with
  | zero =>
    rw [List.take_zero, List.map_nil, List.append_nil] at hsteps hstart htext ⊢
    have hreach : Reaches t (Path.ofComponents (rootOf p ++ cs)) d :=
      h.reaches.of_moves (hstart t) (by rwa [List.map_nil, List.append_nil] at hsteps)
    rw [run_makeFirst_of_reaches htext hreach]
    exact .refl h
  | succ i =>
    have hne : ns.take (i + 1) ≠ [] := by
      intro hnil
      have hlen := congrArg List.length hnil
      rw [List.length_take, List.length_nil] at hlen
      omega
    exact h.deepened_makeFirst hwalk hne (fun n hn => hns n (List.mem_of_mem_take hn)) hsteps
      ((h.deepened_pathsAbove hns i (by omega)).mono
        (List.take_prefix_take_left (Nat.le_succ i)))

/-- **A directory that is some steps down from a site is made below the site.** -/
theorem Ground.deepened_makeDirectories_of_steps (h : Ground t p d) (hns : ∀ n ∈ ns, IsName n)
    {r : Path} (htext : r.text ≠ "") (habsolute : r.isAbsolute = p.isAbsolute)
    (hcomponents : r.components = p.components ++ ns.map .name)
    (hsteps : coreSteps r = coreSteps p ++ ns.map .down) :
    Deepened p d ns t (t.run (makeDirectories r)).2 := by
  have hwalk : ∀ v, Ground v p d → ∃ m, m ≤ maxLinks ∧ Walk v (v.startOf r) (coreSteps p) m d [] := by
    intro v hv
    obtain ⟨m, hm, w, -⟩ := hv.reaches
    unfold startOf at w ⊢
    rw [habsolute]
    exact ⟨m, hm, w⟩
  unfold makeDirectories Path.ancestors
  rw [if_neg htext]
  dsimp only
  cases ns with
  | nil =>
    obtain ⟨m, hm, w⟩ := hwalk t h
    rw [List.map_nil, List.append_nil] at hsteps
    rw [run_makeFirst_of_reaches htext ⟨m, hm, hsteps ▸ w, h.reaches.isDirectory⟩]
    exact .refl h
  | cons n ns =>
    have habove := (h.deepened_pathsAbove hns ns.length (by simp)).mono (List.take_prefix ..)
    rw [hcomponents, List.length_append, List.length_map, List.length_cons, ← Nat.add_assoc]
    exact h.deepened_makeFirst (fun v hv => (hwalk v hv).imp fun _ => And.right)
      (List.cons_ne_nil n ns) hns hsteps habove

/-- Directories behind a site's path are made below the site. -/
theorem Ground.deepened_makeDirectories (h : Ground t p d) (hns : ∀ n ∈ ns, IsName n) :
    Deepened p d ns t (t.run (makeDirectories (QmlStubs.joins p ns))).2 :=
  h.deepened_makeDirectories_of_steps hns (isDirect_joins h.direct hns).ne_empty
    (isAbsolute_joins h.direct hns) (components_joins p hns)
    (coreSteps_joins h.direct.ne_empty hns)

/-- **A directory behind a site's path that was made is there.** -/
theorem Ground.of_run_makeDirectories (h : Ground t p d) (hne : ns ≠ []) (hns : ∀ n ∈ ns, IsName n)
    (hrun : t.run (makeDirectories (QmlStubs.joins p ns)) = (.ok (), u)) :
    Deepened p d ns t u ∧ textError? (QmlStubs.joins p ns) = none ∧
      u.isDirectoryAt (d ++ ns) = true := by
  have hdeep := h.deepened_makeDirectories hns
  rw [hrun] at hdeep
  obtain ⟨names, n, rfl⟩ := (List.eq_nil_or_concat' ns).resolve_left hne
  have hn := hns n (by simp)
  rw [joins_concat] at hrun
  have ht := textError?_of_makeDirectories (text_join_ne_empty hn) (endsInSlash_join hn) hrun
  have hdir := isDirectory_of_makeDirectories ht hrun
  rw [← joins_concat] at ht hdir
  obtain ⟨-, c, hc⟩ := isDirectory_iff.1 hdir
  obtain ⟨hplace, hat⟩ := (reaches_iff ht).1 hc
  obtain ⟨-, rfl, -⟩ := (hdeep.ground.place?_joins hne hns).1 hplace
  exact ⟨hdeep, ht, hat⟩

end MakeBelow

end FileTree

end QmlStubs
