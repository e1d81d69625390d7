import Mathlib.Data.List.Induction
import QmlStubs.Proofs.Places

/-!
# What edits do to a tree

An edit that succeeds changes few places. Here each one is taken apart into the new tree and the
look-ups in it, so that nothing later has to open an edit again. The trees that matter are those a
file system can hold, where only directories have entries below them (`FileTree.IsTree`): there,
taking a file out takes out that one place (`IsTree.at?_cut`).
-/

set_option autoImplicit false

namespace QmlStubs

namespace FileTree

variable {t u : FileTree}

/-! ## Running edits -/

theorem run_pure : t.run (pure ()) = (.ok (), t) := rfl

theorem run_set : t.run (set u) = (.ok (), u) := rfl

theorem run_throw (e : FileError) : t.run (throw e) = (.error e, t) := rfl

/-- An edit that looks at the tree first. -/
theorem run_get (f : FileTree → Edit) : t.run (get >>= f) = t.run (f t) := rfl

theorem run_editBy (f : FileTree → Except FileError FileTree) :
    t.run (editBy f) =
      match f t with
      | .ok u => (.ok (), u)
      | .error e => (.error e, t) := by
  unfold editBy
  rw [run_get]
  cases f t with
  | ok u => exact run_set
  | error e => exact run_throw e

/-- One edit after another; the second is left out when the first is refused. -/
theorem run_seq (e e' : Edit) :
    t.run (e >>= fun _ => e') =
      match t.run e with
      | (.ok _, u) => u.run e'
      | (.error cause, u) => (.error cause, u) := by
  unfold run
  simp only [ExceptT.run, ExceptT.bind, bind, StateT.run, StateT.bind, ExceptT.mk]
  cases h : (e t : Id (Except FileError Unit × FileTree)) with
  | mk r u =>
    cases r with
    | ok => rfl
    | error => rfl

theorem run_forM_nil : t.run (([] : List Edit).forM id) = (.ok (), t) := rfl

/-- A list of edits goes on after one that is not refused. -/
theorem run_forM_cons {e : Edit} {rest : List Edit} (h : t.run e = (.ok (), u)) :
    t.run ((e :: rest).forM id) = u.run (rest.forM id) := by
  have hseq := run_seq (t := t) e (rest.forM id)
  rw [h] at hseq
  exact hseq

/-- In a list of edits that succeeds none is refused. -/
theorem ok_of_run_forM_cons {e : Edit} {rest : List Edit} {v : FileTree}
    (h : t.run ((e :: rest).forM id) = (.ok (), v)) :
    ∃ u, t.run e = (.ok (), u) ∧ u.run (rest.forM id) = (.ok (), v) := by
  have hseq := run_seq (t := t) e (rest.forM id)
  have h : t.run (e >>= fun _ => rest.forM id) = (.ok (), v) := h
  rw [h] at hseq
  cases he : t.run e with
  | mk r u =>
    rw [he] at hseq
    cases r with
    | ok => exact ⟨u, rfl, hseq.symm⟩
    | error e => exact absurd (Prod.mk.inj hseq).1 (by simp)

theorem run_editBy_ok {f : FileTree → Except FileError FileTree}
    (h : t.run (editBy f) = (.ok (), u)) : f t = .ok u := by
  rw [run_editBy] at h
  cases hf : f t with
  | ok v =>
    rw [hf] at h
    rw [(Prod.mk.inj h).2]
  | error e =>
    rw [hf] at h
    exact absurd (Prod.mk.inj h).1 (by simp)

/-! ## Look-ups -/

theorem at?_put {p : Place} (hp : p ≠ []) (e : Entry) (q : Place) :
    (t.put p e).at? q = if q = p then some e else t.at? q := by
  unfold at? put
  by_cases hq : q = []
  · rw [if_pos hq, if_pos hq, if_neg (by rw [hq]; exact Ne.symm hp)]
  · rw [if_neg hq, if_neg hq, SortedMap.find?_insert]

theorem at?_cut {p : Place} (hp : p ≠ []) (q : Place) :
    (t.cut p).at? q = if p <+: q then none else t.at? q := by
  unfold at? cut
  by_cases hq : q = []
  · subst hq
    rw [if_pos rfl, if_neg (by simpa using hp), if_pos rfl]
  · rw [if_neg hq, if_neg hq, SortedMap.find?_filter]
    by_cases h : p <+: q
    · rw [if_pos h]
      have h' : p.isPrefixOf q = true := List.isPrefixOf_iff_prefix.2 h
      cases t.entries.find? q <;> simp [Option.filter, h']
    · rw [if_neg h]
      have h' : p.isPrefixOf q = false := by
        rw [← Bool.not_eq_true, List.isPrefixOf_iff_prefix]
        exact h
      cases t.entries.find? q <;> simp [Option.filter, h']

theorem isDirectoryAt_eq_false_of_at? {p : Place} (h : t.at? p = none) :
    t.isDirectoryAt p = false := by
  unfold isDirectoryAt
  rw [h]

theorem isDirectoryAt_put_of_ne {p q : Place} (hp : p ≠ []) (h : q ≠ p) (e : Entry) :
    (t.put p e).isDirectoryAt q = t.isDirectoryAt q := by
  unfold isDirectoryAt
  rw [at?_put hp, if_neg h]

/-- A file that was written can be written again. -/
theorem writable_put {p : Place} (hp : p ≠ []) (content : ByteArray) (time : FileTime)
    (executable : Bool) : Writable (t.put p (.file content time executable)) p := by
  have hat : (t.put p (.file content time executable)).at? p =
      some (.file content time executable) := by rw [at?_put hp, if_pos rfl]
  exact .of_file hat

/-- Writing a file changes no directory that a path reaches. -/
theorem Reaches.put {path : Path} {d p : Place} (h : Reaches t path d) (hp : p ≠ [])
    (hw : Writable t p) (e : Entry) : Reaches (t.put p e) path d := by
  have hsame : AgreesOff (fun q => q = p) t (t.put p e) := by
    intro q e' hq he
    rwa [at?_put hp, if_neg hq]
  exact h.frame hsame (fun q hq => hq ▸ hw) rfl

/-- **A walk goes on when a file is written.** -/
theorem Walk.put {p q r : Place} {steps rest : List Step} {k : Nat} (w : Walk t p steps k q rest)
    (hr : r ≠ []) (hw : Writable t r) {e : Entry} (he : IsPlain e) :
    Walk (t.put r e) p steps k q rest := by
  refine w.grow (fun p hp => ?_) (fun p target hp => ?_) (fun p e' hp hplain => ?_)
  · rwa [isDirectoryAt_put_of_ne hr]
    rintro rfl
    rw [hw.not_directory] at hp
    exact absurd hp (by simp)
  · rwa [at?_put hr, if_neg]
    rintro rfl
    exact hw.not_link target hp
  · rw [at?_put hr]
    split
    next => exact ⟨e, rfl, he⟩
    next => exact ⟨e', hp, hplain⟩

theorem place?_put {p : Path} {q r : Place} (h : t.place? p = .ok q) (hr : r ≠ [])
    (hw : Writable t r) {e : Entry} (he : IsPlain e) : (t.put r e).place? p = .ok q := by
  obtain ⟨ht, k, hk, w⟩ := place?_eq_ok.1 h
  exact place?_eq_ok.2 ⟨ht, k, hk, w.put hr hw he⟩

/-! ## Trees of a file system -/

/-- What is above an entry is a directory, and so is the place that relative paths start from. -/
structure IsTree (t : FileTree) : Prop where
  above : ∀ p name e, t.at? (p ++ [name]) = some e → t.isDirectoryAt p = true
  current : t.isDirectoryAt t.current = true

namespace IsTree

/-- Only the entries have to be looked at. -/
theorem of_entries (h : ∀ e ∈ t.entries.entries, t.isDirectoryAt e.1.dropLast = true)
    (hcurrent : t.isDirectoryAt t.current = true) : IsTree t := by
  refine ⟨fun p name e he => ?_, hcurrent⟩
  have hfind : t.entries.find? (p ++ [name]) = some e := by
    unfold at? at he
    rwa [if_neg (by simp)] at he
  have := h _ (SortedMap.mem_entries.2 hfind)
  rwa [List.dropLast_concat] at this

/-- Below what is no directory there is nothing. -/
theorem at?_below (ht : IsTree t) {p : Place} (hp : t.isDirectoryAt p = false) {s : List String}
    (hs : s ≠ []) : t.at? (p ++ s) = none := by
  induction s using List.reverseRecOn with
  | nil => exact absurd rfl hs
  | append_singleton s name ih =>
    rw [← List.append_assoc]
    cases he : t.at? (p ++ s ++ [name]) with
    | none => rfl
    | some e =>
      have hdir := ht.above _ _ _ he
      by_cases hnil : s = []
      · rw [hnil, List.append_nil, hp] at hdir
        exact absurd hdir (by simp)
      · rw [isDirectoryAt_eq_false_of_at? (ih hnil)] at hdir
        exact absurd hdir (by simp)

/-- **Taking out what is no directory takes out one place.** -/
theorem at?_cut (ht : IsTree t) {p : Place} (hp : t.isDirectoryAt p = false) (q : Place) :
    (t.cut p).at? q = if q = p then none else t.at? q := by
  rw [FileTree.at?_cut (ne_nil_of_isDirectoryAt hp)]
  by_cases hq : q = p
  · rw [if_pos hq, if_pos (hq ▸ List.prefix_refl _)]
  · rw [if_neg hq]
    split
    next hpre =>
      obtain ⟨s, rfl⟩ := hpre
      rw [ht.at?_below hp]
      rintro rfl
      exact hq (List.append_nil _)
    next => rfl

/-- An entry can be put into a directory, unless it takes a directory's place. -/
theorem put (ht : IsTree t) {d : Place} {name : String} {e : Entry} (hd : t.isDirectoryAt d = true)
    (hold : t.isDirectoryAt (d ++ [name]) = false) : IsTree (t.put (d ++ [name]) e) := by
  have hne : d ++ [name] ≠ [] := by simp
  have hdir : ∀ p, t.isDirectoryAt p = true → (t.put (d ++ [name]) e).isDirectoryAt p = true := by
    intro p hp
    have hpne : p ≠ d ++ [name] := by
      rintro rfl
      rw [hold] at hp
      exact absurd hp (by simp)
    unfold isDirectoryAt at hp ⊢
    rwa [at?_put hne, if_neg hpne]
  constructor
  · intro p n e' he
    rw [at?_put hne] at he
    split at he
    next h =>
      rw [(List.append_inj' h rfl).1]
      exact hdir d hd
    next => exact hdir p (ht.above p n e' he)
  · exact hdir t.current ht.current

/-- What is no directory can be taken out. -/
theorem cut (ht : IsTree t) {p : Place} (hp : t.isDirectoryAt p = false) : IsTree (t.cut p) := by
  have hdir : ∀ q, t.isDirectoryAt q = true → (t.cut p).isDirectoryAt q = true := by
    intro q hq
    have hqne : q ≠ p := by
      rintro rfl
      rw [hp] at hq
      exact absurd hq (by simp)
    unfold isDirectoryAt at hq ⊢
    rwa [ht.at?_cut hp, if_neg hqne]
  constructor
  · intro q n e he
    rw [ht.at?_cut hp] at he
    split at he
    next => exact absurd he (by simp)
    next => exact hdir q (ht.above q n e he)
  · exact hdir t.current ht.current

/-- What is no directory can be moved to another name, unless it takes a directory's place. -/
theorem moved (ht : IsTree t) {d : Place} {n m : String} {e : Entry}
    (hd : t.isDirectoryAt d = true) (hsource : t.isDirectoryAt (d ++ [n]) = false)
    (htarget : t.isDirectoryAt (d ++ [m]) = false) :
    IsTree ((t.cut (d ++ [n])).put (d ++ [m]) e) := by
  have hcut : ∀ q, q ≠ d ++ [n] →
      (t.cut (d ++ [n])).isDirectoryAt q = t.isDirectoryAt q := by
    intro q hq
    unfold isDirectoryAt
    rw [ht.at?_cut hsource, if_neg hq]
  refine (ht.cut hsource).put ?_ ?_
  · rwa [hcut d (by simp)]
  · by_cases hm : d ++ [m] = d ++ [n]
    · rw [hm]
      exact isDirectoryAt_eq_false_of_at? (by rw [ht.at?_cut hsource, if_pos rfl])
    · rwa [hcut _ hm]

end IsTree

/-! ## Making directories -/

/-- A tree with more directories. -/
structure Grown (t u : FileTree) : Prop where
  keeps : ∀ p e, t.at? p = some e → u.at? p = some e
  made : ∀ p e, u.at? p = some e → t.at? p = some e ∨ ∃ time, e = .directory time
  current : u.current = t.current
  clock : u.clock = t.clock
  isTree : IsTree t → IsTree u

theorem Grown.refl (t : FileTree) : Grown t t := ⟨fun _ _ h => h, fun _ _ h => .inl h, rfl, rfl, id⟩

theorem Grown.trans {v : FileTree} (h : Grown t u) (h' : Grown u v) : Grown t v where
  keeps p e he := h'.keeps p e (h.keeps p e he)
  made p e he := (h'.made p e he).elim (h.made p e) .inr
  current := h'.current.trans h.current
  clock := h'.clock.trans h.clock
  isTree ht := h'.isTree (h.isTree ht)

theorem withDirectory?_ok {p : Path} (h : withDirectory? p t = .ok u) :
    ∃ q, t.followParent? (trimSlashes p) = .ok (.free q) ∧ u = t.put q (.directory t.clock) := by
  unfold withDirectory? at h
  cases hf : t.followParent? (trimSlashes p) with
  | error e =>
    rw [hf] at h
    exact absurd h (by simp [bind, Except.bind])
  | ok r =>
    rw [hf] at h
    cases r with
    | found q => exact absurd h (by simp [bind, Except.bind, throw, throwThe, MonadExceptOf.throw])
    | free q =>
      have h : (.ok (t.put q (.directory t.clock)) : Except FileError FileTree) = .ok u := h
      rw [Except.ok.injEq] at h
      exact ⟨q, rfl, h.symm⟩

theorem grown_of_withDirectory? {p : Path} (h : withDirectory? p t = .ok u) : Grown t u := by
  obtain ⟨q, hq, rfl⟩ := withDirectory?_ok h
  obtain ⟨-, name, d, -, -, rfl, -, hdir, hnone⟩ := exists_of_followParent?_free hq
  have hne : d ++ [name] ≠ [] := by simp
  refine ⟨fun p e he => ?_, fun p e he => ?_, rfl, rfl, fun ht => ?_⟩
  · rw [at?_put hne, if_neg, he]
    rintro rfl
    rw [hnone] at he
    exact absurd he (by simp)
  · rw [at?_put hne] at he
    split at he
    · exact .inr ⟨t.clock, (Option.some.inj he).symm⟩
    · exact .inl he
  · exact ht.put hdir (isDirectoryAt_eq_false_of_at? hnone)

/-- A new directory is where its path leads. -/
theorem reaches_of_withDirectory? {p : Path} (h : withDirectory? p t = .ok u) :
    ∃ d, Reaches u p d := by
  obtain ⟨q, hq, hu⟩ := withDirectory?_ok h
  have hgrown := grown_of_withDirectory? h
  obtain ⟨init, name, d, hcore, hshort, rfl, ⟨k, hk, w⟩, hdir, -⟩ :=
    exists_of_followParent?_free hq
  have hnew : u.at? (d ++ [name]) = some (.directory t.clock) := by
    rw [hu, at?_put (by simp), if_pos rfl]
  have hsame : AgreesOff (fun _ => False) t u := fun p e _ he => hgrown.keeps p e he
  have hdir' : u.isDirectoryAt d = true := by
    obtain ⟨time, htime⟩ := isDirectoryAt_iff.1 hdir
    exact isDirectoryAt_iff.2 ⟨time, hgrown.keeps d _ htime⟩
  have hinit : Walk u (u.startOf p) init k d [] := by
    have hstart : u.startOf p = t.startOf p := by
      unfold startOf
      rw [hgrown.current]
    rw [hstart, ← startOf_trimSlashes]
    exact w.frame hsame (fun _ h => absurd h id) id
  have hlast : Walk u d [.down name] 0 (d ++ [name]) [] :=
    .down hdir' hshort hnew nofun (.refl _ _)
  refine ⟨d ++ [name], k, hk, ?_, isDirectoryAt_iff.2 ⟨_, hnew⟩⟩
  rw [← coreSteps_trimSlashes, hcore]
  exact (hinit.append [.down name]).trans hlast

/-- What leads to a directory is not made again. -/
theorem withDirectory?_of_isDirectory {p : Path} (h : t.isDirectory p = true) :
    withDirectory? p t = .error .alreadyExists := by
  obtain ⟨ht, d, hd⟩ := isDirectory_iff.1 h
  obtain ⟨q, hq⟩ :=
    exists_followParent?_of_reaches (textError?_trimSlashes ht) (reaches_trimSlashes.2 hd)
  unfold withDirectory?
  rw [hq]
  rfl

/-- How the first of some directories is made, case by case. -/
theorem run_makeFirst (p : Path) (above : List Path) :
    t.run (makeFirst (p :: above)) =
      match withDirectory? p t with
      | .ok u => (.ok (), u)
      | .error .notFound =>
        match t.run (makeFirst above) with
        | (.ok _, u) =>
          match withDirectory? p u with
          | .ok v => (.ok (), v)
          | .error e => if u.isDirectory p then (.ok (), u) else (.error e, u)
        | (.error e, u) => (.error e, u)
      | .error e => if t.isDirectory p then (.ok (), t) else (.error e, t) := by
  rw [makeFirst, run_get]
  cases withDirectory? p t with
  | ok u => exact run_set
  | error e =>
    have hrest : ∀ (u : FileTree) (e : FileError),
        u.run (if u.isDirectory p then pure () else throw e) =
          if u.isDirectory p then (.ok (), u) else (.error e, u) := by
      intro u e
      split
      · exact run_pure
      · exact run_throw e
    cases e with
    | notFound =>
      dsimp only
      rw [run_seq]
      cases t.run (makeFirst above) with
      | mk r u =>
        cases r with
        | error e => rfl
        | ok =>
          dsimp only
          rw [run_get]
          cases withDirectory? p u with
          | ok v => exact run_set
          | error e => exact hrest u e
    | _ => exact hrest t _

theorem grown_makeFirst (paths : List Path) : Grown t (t.run (makeFirst paths)).2 := by
  induction paths generalizing t with
  | nil => exact Grown.refl t
  | cons p above ih =>
    rw [run_makeFirst]
    split
    next u h => exact grown_of_withDirectory? h
    next h =>
      have habove := ih (t := t)
      cases hr : t.run (makeFirst above) with
      | mk r u =>
        rw [hr] at habove
        cases r with
        | error e => exact habove
        | ok =>
          dsimp only
          split
          next v hv => exact habove.trans (grown_of_withDirectory? hv)
          next => split <;> exact habove
    next => split <;> exact Grown.refl t

/-- **Making directories adds directories** and leaves everything that is there. -/
theorem grown_makeDirectories (p : Path) : Grown t (t.run (makeDirectories p)).2 := by
  unfold makeDirectories
  split
  · exact Grown.refl t
  · exact grown_makeFirst _

/-- A tree that has grown has the times it had. -/
theorem Grown.modified? (h : Grown t u) {p : Path} {m : Binary64} (hm : t.modified? p = some m) :
    u.modified? p = t.modified? p := by
  have hsame : AgreesOff (fun _ => False) t u := fun p e _ he => h.keeps p e he
  exact modified?_frame hsame (fun _ hp => absurd hp id) h.current hm fun _ _ => id

theorem reaches_of_makeFirst {p : Path} {above : List Path}
    (h : t.run (makeFirst (p :: above)) = (.ok (), u)) : ∃ d, Reaches u p d := by
  have hrest : ∀ (s : FileTree) (e : FileError),
      (if s.isDirectory p then ((.ok () : Except FileError Unit), s) else (.error e, s)) =
        (.ok (), u) → ∃ d, Reaches u p d := by
    intro s e hs
    split at hs
    next hdir =>
      rw [← (Prod.mk.inj hs).2]
      exact (isDirectory_iff.1 hdir).2
    next => exact absurd (Prod.mk.inj hs).1 (by simp)
  rw [run_makeFirst] at h
  split at h
  next v hv =>
    rw [← (Prod.mk.inj h).2]
    exact reaches_of_withDirectory? hv
  next =>
    split at h
    next =>
      split at h
      next v hv =>
        rw [← (Prod.mk.inj h).2]
        exact reaches_of_withDirectory? hv
      next => exact hrest _ _ h
    next => exact absurd (Prod.mk.inj h).1 (by simp)
  next => exact hrest _ _ h

/-- The empty path stands for the directory that relative paths start from. -/
theorem reaches_of_empty (ht : IsTree t) {p : Path} (hp : p.text = "") : Reaches t p t.current := by
  have hstart : t.startOf p = t.current := by
    unfold startOf Path.isAbsolute
    rw [hp]
    rfl
  have hsteps : coreSteps p = [] := by
    unfold coreSteps
    rw [hp]
    rfl
  refine ⟨0, Nat.zero_le _, ?_, ht.current⟩
  rw [hstart, hsteps]
  exact .refl _ _

/-- **Where directories were made, the path reaches one**, whatever its text is. -/
theorem reaches_of_makeDirectories (ht : IsTree t) {p : Path}
    (h : t.run (makeDirectories p) = (.ok (), u)) : ∃ d, Reaches u p d := by
  unfold makeDirectories at h
  split at h
  next hempty =>
    rw [← (Prod.mk.inj h).2]
    exact ⟨_, reaches_of_empty ht hempty⟩
  next => exact reaches_of_makeFirst h

/-- **Where directories were made, the path leads to one.** -/
theorem isDirectory_of_makeDirectories {p : Path} (ht : textError? p = none)
    (h : t.run (makeDirectories p) = (.ok (), u)) : u.isDirectory p = true := by
  unfold makeDirectories at h
  rw [if_neg (textError?_eq_none.1 ht).2.1] at h
  exact isDirectory_iff.2 ⟨ht, reaches_of_makeFirst h⟩

/-- **Where a directory is, none has to be made.** -/
theorem makeDirectories_of_isDirectory {p : Path} (h : t.isDirectory p = true) :
    t.run (makeDirectories p) = (.ok (), t) := by
  unfold makeDirectories
  split
  · exact run_pure
  · unfold Path.ancestors
    dsimp only
    rw [run_makeFirst, withDirectory?_of_isDirectory h]
    dsimp only
    rw [if_pos h]

/-! ## Writing and renaming -/

theorem endsInSlash_join {p : Path} {n : String} (hn : IsName n) :
    endsInSlash (p.join n) = false := by
  have hlast : n.toList.getLast? ≠ some '/' := fun h => hn.no_slash (List.mem_of_getLast? h)
  have hne : n.toList ≠ [] := toList_ne_nil hn.ne_empty
  have htext : (p.join n).text.toList.getLast? = n.toList.getLast? := by
    rcases text_join (p := p) hn with ⟨-, hjoin⟩ | ⟨s, -, -, hjoin⟩
    · rw [hjoin]
    · rw [hjoin, List.getLast?_append, List.getLast?_cons]
      cases hl : n.toList.getLast? with
      | none => exact absurd (List.getLast?_eq_none_iff.1 hl) hne
      | some c => rfl
  unfold endsInSlash
  rw [htext]
  simpa using hlast

/-- **Writing puts a file at the end of its path**: in the place of another one, or under a free
name. -/
theorem target_of_run_write {p : Path} {content : ByteArray}
    (h : t.run (write p content) = (.ok (), u)) :
    ∃ q x, Writable t q ∧ u = t.put q (.file content t.clock x) ∧
      (t.follow? p = .ok (.found q) ∧ (t.at? q).isSome ∨
        t.follow? p = .ok (.free q) ∧ t.at? q = none) := by
  have hf := run_editBy_ok h
  unfold written? at hf
  split at hf
  next =>
    cases hp : t.followParent? (trimSlashes p) <;> rw [hp] at hf <;>
      exact absurd hf (by simp [bind, Except.bind, throw, throwThe, MonadExceptOf.throw])
  next =>
  cases hr : t.follow? p with
  | error e =>
    rw [hr] at hf
    exact absurd hf (by simp [bind, Except.bind])
  | ok r =>
  rw [hr] at hf
  cases r with
  | found q =>
    dsimp only [bind, Except.bind] at hf
    split at hf
    next old time x hat =>
      obtain rfl := Except.ok.inj hf
      exact ⟨q, x, .of_file hat, rfl, .inl ⟨rfl, by rw [hat]; rfl⟩⟩
    next => exact absurd hf (by simp [throw, throwThe, MonadExceptOf.throw])
  | free q =>
    obtain rfl := Except.ok.inj hf
    rw [follow?_of_textError? (textError?_of_follow? hr), followSteps_eq_free] at hr
    obtain ⟨k, -, d, name, -, -, -, -, hnone⟩ := hr
    exact ⟨q, false, .of_none hnone, rfl, .inr ⟨rfl, hnone⟩⟩

/-- **A file put at the end of a path is where the path leads.** -/
theorem place?_put_target {p : Path} {q : Place} {e : Entry} (he : IsPlain e) (hw : Writable t q)
    (h : t.follow? p = .ok (.found q) ∨ t.follow? p = .ok (.free q)) :
    (t.put q e).place? p = .ok q := by
  have hq : q ≠ [] := ne_nil_of_isDirectoryAt hw.not_directory
  rcases h with h | h
  · exact place?_put (place?_of_follow? h) hq hw he
  · have ht := textError?_of_follow? h
    rw [follow?_of_textError? ht, followSteps_eq_free] at h
    obtain ⟨k, hk, d, name, w, hdir, hshort, rfl, -⟩ := h
    refine place?_eq_ok.2 ⟨ht, k, hk, ?_⟩
    have hat : (t.put (d ++ [name]) e).at? (d ++ [name]) = some e := by rw [at?_put hq, if_pos rfl]
    have hdir' : (t.put (d ++ [name]) e).isDirectoryAt d = true := by
      rwa [isDirectoryAt_put_of_ne hq (by simp)]
    exact (w.put hq hw he).trans (.down hdir' hshort hat he (.refl _ _))

/-- **What was written is at the end of its path.** -/
theorem of_run_write {p : Path} {content : ByteArray} (h : t.run (write p content) = (.ok (), u)) :
    ∃ q x, q ≠ [] ∧ Writable t q ∧ u = t.put q (.file content t.clock x) ∧ u.place? p = .ok q := by
  obtain ⟨q, x, hw, rfl, htarget⟩ := target_of_run_write h
  have hq : q ≠ [] := ne_nil_of_isDirectoryAt hw.not_directory
  exact ⟨q, x, hq, hw, rfl, place?_put_target nofun hw (htarget.imp And.left And.left)⟩

/-- Writing a file leaves a tree. -/
theorem IsTree.of_run_write (ht : IsTree t) {p : Path} {content : ByteArray}
    (h : t.run (write p content) = (.ok (), u)) : IsTree u := by
  obtain ⟨q, x, hw, rfl, htarget⟩ := target_of_run_write h
  rcases htarget with ⟨-, hsome⟩ | ⟨hfree, -⟩
  · obtain ⟨e, hat⟩ := Option.isSome_iff_exists.1 hsome
    rcases List.eq_nil_or_concat' q with rfl | ⟨d, name, rfl⟩
    · exact absurd rfl (ne_nil_of_isDirectoryAt hw.not_directory)
    · exact ht.put (ht.above _ _ _ hat) hw.not_directory
  · rw [follow?_of_textError? (textError?_of_follow? hfree), followSteps_eq_free] at hfree
    obtain ⟨-, -, d, name, -, hdir, -, rfl, -⟩ := hfree
    exact ht.put hdir hw.not_directory

/-- **What was written is read.** -/
theorem read?_of_run_write {p : Path} {content : ByteArray}
    (h : t.run (write p content) = (.ok (), u)) : u.read? p = .ok content := by
  obtain ⟨q, x, hq, -, rfl, hplace⟩ := of_run_write h
  have hat : (t.put q (.file content t.clock x)).at? q = some (.file content t.clock x) := by
    rw [at?_put hq, if_pos rfl]
  exact read?_of_place? hplace hat

/-- A slash at the end of a path lets only a directory through. -/
theorem isDirectoryAt_of_endsInSlash {p : Path} {q : Place} (hslash : endsInSlash p = true)
    (h : t.place? p = .ok q) : t.isDirectoryAt q = true := by
  obtain ⟨-, k, -, w⟩ := place?_eq_ok.1 h
  have htext : (Text.split '/' p.text.toList).getLast? = some [] := by
    obtain ⟨s, hs⟩ := List.getLast?_eq_some_iff.1 (beq_iff_eq.1 hslash)
    rw [hs, Text.split_append]
    simp [Text.split]
  rw [stepsOf_eq, if_pos htext] at w
  obtain ⟨k₁, k₂, d, -, -, wlast⟩ := w.split_end
  cases wlast with
  | stay hd wend =>
    cases wend
    exact hd

/-- **A file that can be read can be overwritten.** -/
theorem exists_run_write_of_read? {p : Path} {old : ByteArray} (h : t.read? p = .ok old)
    (content : ByteArray) : ∃ u, t.run (write p content) = (.ok (), u) := by
  obtain ⟨q, time, x, hplace, hat⟩ := exists_of_read? h
  have hslash : ¬ endsInSlash p = true := by
    intro hslash
    have hdir := isDirectoryAt_of_endsInSlash hslash hplace
    rw [(Writable.of_file hat).not_directory] at hdir
    exact absurd hdir (by simp)
  refine ⟨t.put q (.file content t.clock x), ?_⟩
  unfold write
  rw [run_editBy]
  unfold written?
  rw [if_neg hslash, follow?_of_place? hplace]
  dsimp only [bind, Except.bind]
  rw [hat]
  rfl

theorem isFile_of_run_write {p : Path} {content : ByteArray}
    (h : t.run (write p content) = (.ok (), u)) : u.isFile p = true := by
  obtain ⟨q, x, hq, -, rfl, hplace⟩ := of_run_write h
  unfold isFile
  rw [hplace]
  dsimp only
  unfold isDirectoryAt
  rw [at?_put hq, if_pos rfl]
  rfl

/-- **Files stay files when others are written.** -/
theorem isFile_run_write {p r : Path} {content : ByteArray} (hp : t.isFile p = true)
    (h : t.run (write r content) = (.ok (), u)) : u.isFile p = true := by
  obtain ⟨q, x, hq, hw, rfl, -⟩ := of_run_write h
  unfold isFile at hp ⊢
  cases hplace : t.place? p with
  | error e =>
    rw [hplace] at hp
    exact absurd hp (by simp)
  | ok place =>
    rw [hplace] at hp
    have hplain : IsPlain (.file content t.clock x) := nofun
    rw [place?_put hplace hq hw hplain]
    dsimp only at hp ⊢
    by_cases he : place = q
    · unfold isDirectoryAt
      rw [he, at?_put hq, if_pos rfl]
      rfl
    · rwa [isDirectoryAt_put_of_ne hq he]

section Write

variable {p : Path} {n m : String} {d : Place}

/-- **Writing a file sets the entry at its place.** -/
theorem run_write_join (hn : IsName n) (hfits : Fits p n) (h : Reaches t p d)
    (hw : Writable t (d ++ [n])) (content : ByteArray) :
    ∃ executable, t.run (write (p.join n) content) =
      (.ok (), t.put (d ++ [n]) (.file content t.clock executable)) := by
  unfold write
  rw [run_editBy]
  unfold written?
  rw [if_neg (by simp [endsInSlash_join hn])]
  cases he : t.at? (d ++ [n]) with
  | none =>
    rw [follow?_join_free hn hfits h he]
    exact ⟨false, rfl⟩
  | some e =>
    cases e with
    | link target => exact absurd he (hw.not_link target)
    | directory time =>
      exact absurd hw.not_directory (by rw [isDirectoryAt_iff.2 ⟨time, he⟩]; simp)
    | file old time executable =>
      rw [follow?_join_found hn hfits h he nofun]
      refine ⟨executable, ?_⟩
      dsimp only [bind, Except.bind]
      rw [he]
      rfl

/-- What a file was written to is no directory. -/
theorem of_run_write_join (hn : IsName n) {content : ByteArray}
    (h : t.run (write (p.join n) content) = (.ok (), u)) :
    Fits p n ∧ ∃ d, Reaches t p d ∧ t.isDirectoryAt (d ++ [n]) = false := by
  have hf := run_editBy_ok h
  unfold written? at hf
  rw [if_neg (by simp [endsInSlash_join hn])] at hf
  cases hr : t.follow? (p.join n) with
  | error e =>
    rw [hr] at hf
    exact absurd hf (by simp [bind, Except.bind])
  | ok r =>
    obtain ⟨hfits, d, hd⟩ := reaches_of_follow? hn hr
    refine ⟨hfits, d, hd, ?_⟩
    cases hdir : t.isDirectoryAt (d ++ [n]) with
    | false => rfl
    | true =>
      obtain ⟨time, he⟩ := isDirectoryAt_iff.1 hdir
      rw [follow?_join_found hn hfits hd he nofun] at hf
      dsimp only [bind, Except.bind] at hf
      rw [he] at hf
      exact absurd hf (by simp [throw, throwThe, MonadExceptOf.throw])

/-- **Renaming a file moves its entry**, whatever file or link was at the target. -/
theorem run_rename_join (hn : IsName n) (hm : IsName m) (hfits : Fits p n) (hfits' : Fits p m)
    (h : Reaches t p d) {e : Entry} (he : t.at? (d ++ [n]) = some e)
    (hsource : t.isDirectoryAt (d ++ [n]) = false) (htarget : t.isDirectoryAt (d ++ [m]) = false) :
    t.run (rename (p.join n) (p.join m)) = (.ok (), (t.cut (d ++ [n])).put (d ++ [m]) e) := by
  unfold rename
  rw [run_editBy]
  unfold renamed?
  rw [followParent?_join hn hfits h, followParent?_join hm hfits' h, he]
  dsimp only [bind, Except.bind]
  rw [if_pos (by rfl)]
  dsimp only
  rw [he]
  cases ht : t.at? (d ++ [m]) with
  | none =>
    rw [if_neg (by simp)]
    dsimp only
    rw [if_neg (by simp [hsource])]
    rfl
  | some e' =>
    rw [if_pos (by simp)]
    dsimp only
    rw [if_neg (by simp [hsource, htarget])]
    rfl

/-- What was renamed did not replace a directory. -/
theorem of_run_rename_join (hn : IsName n) (hm : IsName m) (hfits : Fits p n) (hfits' : Fits p m)
    (h : Reaches t p d) (hr : t.run (rename (p.join n) (p.join m)) = (.ok (), u)) :
    t.isDirectoryAt (d ++ [m]) = false := by
  have hf := run_editBy_ok hr
  unfold renamed? at hf
  rw [followParent?_join hn hfits h, followParent?_join hm hfits' h] at hf
  cases hdir : t.isDirectoryAt (d ++ [m]) with
  | false => rfl
  | true =>
    obtain ⟨time, hm'⟩ := isDirectoryAt_iff.1 hdir
    rw [hm'] at hf
    dsimp only [bind, Except.bind] at hf
    cases he : t.at? (d ++ [n]) with
    | none =>
      rw [he] at hf
      exact absurd hf (by simp [throw, throwThe, MonadExceptOf.throw])
    | some e =>
      rw [he, if_pos (by rfl), if_pos (by rfl)] at hf
      dsimp only at hf
      rw [he] at hf
      dsimp only at hf
      rw [if_pos (by simp [hdir])] at hf
      exact absurd hf (by simp [throw, throwThe, MonadExceptOf.throw])

/-- Removing what may be there leaves a free name. -/
theorem run_removeIfPresent_join (ht : IsTree t) (hn : IsName n) (hfits : Fits p n)
    (hd : Reaches t p d) (hdir : t.isDirectoryAt (d ++ [n]) = false) :
    ∃ u, t.run (removeIfPresent (p.join n)) = (.ok (), u) ∧ u.current = t.current ∧
      u.clock = t.clock ∧ ∀ q, u.at? q = if q = d ++ [n] then none else t.at? q := by
  have hparent := followParent?_join hn hfits hd
  unfold removeIfPresent
  rw [run_editBy]
  unfold withoutFile?
  rw [hparent]
  cases hat : t.at? (d ++ [n]) with
  | none =>
    refine ⟨t, rfl, rfl, rfl, fun q => ?_⟩
    split
    next hq => rw [hq, hat]
    next => rfl
  | some e =>
    refine ⟨t.cut (d ++ [n]), ?_, rfl, rfl, ht.at?_cut hdir⟩
    dsimp only [bind, Except.bind, Option.isSome]
    rw [if_pos rfl]
    dsimp only
    rw [if_neg (by simp [hdir])]
    rfl

/-- A directory is not removed with a file's name. -/
theorem run_removeIfPresent_directory (hn : IsName n) (hfits : Fits p n) (hd : Reaches t p d)
    (hdir : t.isDirectoryAt (d ++ [n]) = true) : (t.run (removeIfPresent (p.join n))).2 = t := by
  obtain ⟨time, hat⟩ := isDirectoryAt_iff.1 hdir
  unfold removeIfPresent
  rw [run_editBy]
  unfold withoutFile?
  rw [followParent?_join hn hfits hd, hat]
  dsimp only [bind, Except.bind, Option.isSome]
  rw [if_pos rfl]
  dsimp only
  rw [if_pos hdir]
  rfl

end Write

end FileTree

end QmlStubs
