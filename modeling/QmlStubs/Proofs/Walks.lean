import Mathlib.Tactic.Common
import QmlStubs.FileTree.Edit
import QmlStubs.Proofs.Collections

/-!
# Walks through a file tree

`FileTree.followSteps` follows a path in rounds: it advances to the first link, starts again from
the link's target, and counts the links. To compare what a path does in two trees, or what its
parts do in one, the rounds are in the way. `Walk` is the same in single steps: from a place with
steps to take, over so many links, to a place with steps left. Two facts make it useful:

> **a path is found exactly when its walk ends there within the links it may take**
> (`followSteps_eq_found`), and **a walk with more steps to come is the walk without them**
> (`Walk.append`, `Walk.split`).

Nothing is said of time or of the order of names here. Only directories and links are looked at on
the way, which is why a change at a place that is neither leaves every walk as it was
(`Walk.frame`).
-/

set_option autoImplicit false

namespace QmlStubs

namespace FileTree

variable {t : FileTree}

/-! ## Entries -/

/-- An entry that is not a link. -/
def IsPlain (e : Entry) : Prop := ∀ target, e ≠ .link target

theorem isDirectoryAt_iff {p : Place} :
    t.isDirectoryAt p = true ↔ ∃ time, t.at? p = some (.directory time) := by
  unfold isDirectoryAt
  cases t.at? p with
  | none => simp
  | some e => cases e <;> simp

theorem isDirectoryAt_root : t.isDirectoryAt [] = true := rfl

theorem ne_nil_of_isDirectoryAt {p : Place} (h : t.isDirectoryAt p = false) : p ≠ [] := by
  rintro rfl
  rw [isDirectoryAt_root] at h
  cases h

theorem isPlain_directory (time : FileTime) : IsPlain (.directory time) := by
  rintro _ ⟨⟩

theorem isPlain_file (content : ByteArray) (time : FileTime) (x : Bool) :
    IsPlain (.file content time x) := by
  rintro _ ⟨⟩

theorem isPlain_of_isDirectoryAt {p : Place} {e : Entry} (h : t.isDirectoryAt p = true)
    (he : t.at? p = some e) : IsPlain e := by
  obtain ⟨time, htime⟩ := isDirectoryAt_iff.1 h
  rw [he, Option.some.injEq] at htime
  rw [htime]
  exact isPlain_directory time

/-- A place that a file can be written to: it is free or holds a file. -/
structure Writable (t : FileTree) (p : Place) : Prop where
  not_directory : t.isDirectoryAt p = false
  not_link : ∀ target, t.at? p ≠ some (.link target)

theorem Writable.of_file {p : Place} {content : ByteArray} {time : FileTime} {executable : Bool}
    (h : t.at? p = some (.file content time executable)) : Writable t p := by
  constructor
  · unfold isDirectoryAt
    rw [h]
  · intro target
    rw [h]
    simp

theorem Writable.of_none {p : Place} (h : t.at? p = none) : Writable t p := by
  constructor
  · unfold isDirectoryAt
    rw [h]
  · intro target
    rw [h]
    simp

/-- A tree has the entries of another one, except at some places. -/
def AgreesOff (changed : Place → Prop) (t u : FileTree) : Prop :=
  ∀ p e, ¬ changed p → t.at? p = some e → u.at? p = some e

/-- A name that an entry can have. -/
def IsShort (name : String) : Prop := ¬ maxNameLength < name.utf8ByteSize

/-! ## Single steps of the reader -/

section Steps

variable {links : Nat} {p : Place} {steps : List Step} {name : String}

/-- What comes of steps that were taken up to the first link. -/
def resume (t : FileTree) (links : Nat) : Progress → Except FileError Destination
  | .arrived d => .ok d
  | .refused e => .error e
  | .atLink start steps =>
    match links with
    | 0 => .error .tooManyLinks
    | links + 1 => t.followSteps links start steps

theorem followSteps_eq (t : FileTree) (links : Nat) (p : Place) (steps : List Step) :
    t.followSteps links p steps = t.resume links (t.advance p steps) := by
  rw [followSteps]
  rfl

theorem followSteps_nil : t.followSteps links p [] = .ok (.found p) := by
  rw [followSteps_eq]
  rfl

theorem followSteps_not_directory {step : Step} (h : t.isDirectoryAt p = false) :
    t.followSteps links p (step :: steps) = .error .notADirectory := by
  have hadvance : t.advance p (step :: steps) = .refused .notADirectory := if_neg (by simp [h])
  rw [followSteps_eq, hadvance]
  rfl

theorem followSteps_stay (h : t.isDirectoryAt p = true) :
    t.followSteps links p (.stay :: steps) = t.followSteps links p steps := by
  have hadvance : t.advance p (.stay :: steps) = t.advance p steps := if_pos h
  rw [followSteps_eq, hadvance, ← followSteps_eq]

theorem followSteps_up (h : t.isDirectoryAt p = true) :
    t.followSteps links p (.up :: steps) = t.followSteps links p.dropLast steps := by
  have hadvance : t.advance p (.up :: steps) = t.advance p.dropLast steps := if_pos h
  rw [followSteps_eq, hadvance, ← followSteps_eq]

theorem followSteps_long (h : t.isDirectoryAt p = true) (hn : ¬ IsShort name) :
    t.followSteps links p (.down name :: steps) = .error .invalidName := by
  have hadvance : t.advance p (.down name :: steps) = .refused .invalidName :=
    (if_pos h).trans (if_pos (not_not.1 hn))
  rw [followSteps_eq, hadvance]
  rfl

/-- What comes of a step down depends on the entry with the name. -/
theorem advance_down (h : t.isDirectoryAt p = true) (hn : IsShort name) :
    t.advance p (.down name :: steps) =
      match t.at? (p ++ [name]) with
      | some (.link target) => .atLink (linkStart target p) (stepsOf target ++ steps)
      | some _ => t.advance (p ++ [name]) steps
      | none => if steps = [] then .arrived (.free (p ++ [name])) else .refused .notFound :=
  (if_pos h).trans (if_neg hn)

theorem followSteps_down {e : Entry} (h : t.isDirectoryAt p = true) (hn : IsShort name)
    (he : t.at? (p ++ [name]) = some e) (hplain : IsPlain e) :
    t.followSteps links p (.down name :: steps) = t.followSteps links (p ++ [name]) steps := by
  rw [followSteps_eq, advance_down h hn, he, followSteps_eq]
  cases e with
  | link target => exact absurd rfl (hplain target)
  | directory time => rfl
  | file content time executable => rfl

theorem followSteps_link {target : Path} (h : t.isDirectoryAt p = true) (hn : IsShort name)
    (he : t.at? (p ++ [name]) = some (.link target)) :
    t.followSteps (links + 1) p (.down name :: steps) =
      t.followSteps links (linkStart target p) (stepsOf target ++ steps) := by
  rw [followSteps_eq, advance_down h hn, he]
  rfl

theorem followSteps_too_many {target : Path} (h : t.isDirectoryAt p = true) (hn : IsShort name)
    (he : t.at? (p ++ [name]) = some (.link target)) :
    t.followSteps 0 p (.down name :: steps) = .error .tooManyLinks := by
  rw [followSteps_eq, advance_down h hn, he]
  rfl

theorem followSteps_free (h : t.isDirectoryAt p = true) (hn : IsShort name)
    (he : t.at? (p ++ [name]) = none) :
    t.followSteps links p [.down name] = .ok (.free (p ++ [name])) := by
  rw [followSteps_eq, advance_down h hn, he]
  rfl

theorem followSteps_missing (h : t.isDirectoryAt p = true) (hn : IsShort name)
    (he : t.at? (p ++ [name]) = none) (hs : steps ≠ []) :
    t.followSteps links p (.down name :: steps) = .error .notFound := by
  rw [followSteps_eq, advance_down h hn, he]
  dsimp only
  rw [if_neg hs]
  rfl

end Steps

/-! ## Walks -/

/-- From a place with steps to take, over a number of links, to a place with steps left. -/
inductive Walk (t : FileTree) : Place → List Step → Nat → Place → List Step → Prop where
  | refl (p : Place) (steps : List Step) : Walk t p steps 0 p steps
  | stay {p q : Place} {steps rest : List Step} {k : Nat} (h : t.isDirectoryAt p = true)
      (w : Walk t p steps k q rest) : Walk t p (.stay :: steps) k q rest
  | up {p q : Place} {steps rest : List Step} {k : Nat} (h : t.isDirectoryAt p = true)
      (w : Walk t p.dropLast steps k q rest) : Walk t p (.up :: steps) k q rest
  | down {p q : Place} {steps rest : List Step} {k : Nat} {name : String} {e : Entry}
      (h : t.isDirectoryAt p = true) (hn : IsShort name) (he : t.at? (p ++ [name]) = some e)
      (hplain : IsPlain e) (w : Walk t (p ++ [name]) steps k q rest) :
      Walk t p (.down name :: steps) k q rest
  | link {p q : Place} {steps rest : List Step} {k : Nat} {name : String} {target : Path}
      (h : t.isDirectoryAt p = true) (hn : IsShort name)
      (he : t.at? (p ++ [name]) = some (.link target))
      (w : Walk t (linkStart target p) (stepsOf target ++ steps) k q rest) :
      Walk t p (.down name :: steps) (k + 1) q rest

/-- What is left of the links does not matter to a walk. -/
theorem followSteps_walk {p q : Place} {steps rest : List Step} {k : Nat}
    (w : Walk t p steps k q rest) (links : Nat) :
    t.followSteps (k + links) p steps = t.followSteps links q rest := by
  induction w with
  | refl p steps => rw [Nat.zero_add]
  | stay h _ ih => rw [followSteps_stay h, ih]
  | up h _ ih => rw [followSteps_up h, ih]
  | down h hn he hplain _ ih => rw [followSteps_down h hn he hplain, ih]
  | link h hn he _ ih => rw [Nat.add_right_comm, followSteps_link h hn he, ih]

/-- Where a walk has to stop. -/
inductive Stop (t : FileTree) : Place → List Step → Except FileError Destination → Prop where
  | arrived (p : Place) : Stop t p [] (.ok (.found p))
  | notADirectory {p : Place} {step : Step} {steps : List Step} (h : t.isDirectoryAt p = false) :
      Stop t p (step :: steps) (.error .notADirectory)
  | long {p : Place} {name : String} {steps : List Step} (h : t.isDirectoryAt p = true)
      (hn : ¬ IsShort name) : Stop t p (.down name :: steps) (.error .invalidName)
  | free {p : Place} {name : String} (h : t.isDirectoryAt p = true) (hn : IsShort name)
      (he : t.at? (p ++ [name]) = none) : Stop t p [.down name] (.ok (.free (p ++ [name])))
  | missing {p : Place} {name : String} {steps : List Step} (h : t.isDirectoryAt p = true)
      (hn : IsShort name) (he : t.at? (p ++ [name]) = none) (hs : steps ≠ []) :
      Stop t p (.down name :: steps) (.error .notFound)

/-- A walk that leads anywhere stops at its end or at a free name. -/
theorem Stop.cases_ok {p : Place} {steps : List Step} {d : Destination} (h : Stop t p steps (.ok d)) :
    (steps = [] ∧ d = .found p) ∨ ∃ name, steps = [.down name] ∧ d = .free (p ++ [name]) ∧
      t.isDirectoryAt p = true ∧ IsShort name ∧ t.at? (p ++ [name]) = none := by
  cases h with
  | arrived => exact .inl ⟨rfl, rfl⟩
  | free h hn he => exact .inr ⟨_, rfl, rfl, h, hn, he⟩

/-- **Following steps is a walk to where it has to stop**, or one over too many links. -/
theorem exists_walk (links : Nat) (p : Place) (steps : List Step) :
    t.followSteps links p steps = .error .tooManyLinks ∨
      ∃ k ≤ links, ∃ q rest r, Walk t p steps k q rest ∧ Stop t q rest r ∧
        t.followSteps links p steps = r := by
  induction links using Nat.strongRecOn generalizing p steps with
  | ind links ih =>
    induction steps generalizing p with
    | nil => exact .inr ⟨0, Nat.zero_le _, p, [], _, .refl p [], .arrived p, followSteps_nil⟩
    | cons step steps ihs =>
      cases h : t.isDirectoryAt p with
      | false =>
        exact .inr ⟨0, Nat.zero_le _, p, _, _, .refl p _, .notADirectory h,
          followSteps_not_directory h⟩
      | true =>
        cases step with
        | stay =>
          rw [followSteps_stay h]
          rcases ihs p with hmany | ⟨k, hk, q, rest, r, w, hstop, hr⟩
          · exact .inl hmany
          · exact .inr ⟨k, hk, q, rest, r, .stay h w, hstop, hr⟩
        | up =>
          rw [followSteps_up h]
          rcases ihs p.dropLast with hmany | ⟨k, hk, q, rest, r, w, hstop, hr⟩
          · exact .inl hmany
          · exact .inr ⟨k, hk, q, rest, r, .up h w, hstop, hr⟩
        | down name =>
          by_cases hn : IsShort name
          · cases he : t.at? (p ++ [name]) with
            | none =>
              by_cases hs : steps = []
              · rw [hs]
                exact .inr ⟨0, Nat.zero_le _, p, _, _, .refl p _, .free h hn he,
                  followSteps_free h hn he⟩
              · exact .inr ⟨0, Nat.zero_le _, p, _, _, .refl p _, .missing h hn he hs,
                  followSteps_missing h hn he hs⟩
            | some e =>
              by_cases hplain : IsPlain e
              · rw [followSteps_down h hn he hplain]
                rcases ihs (p ++ [name]) with hmany | ⟨k, hk, q, rest, r, w, hstop, hr⟩
                · exact .inl hmany
                · exact .inr ⟨k, hk, q, rest, r, .down h hn he hplain w, hstop, hr⟩
              · obtain ⟨target, rfl⟩ : ∃ target, e = .link target := by
                  simpa [IsPlain] using hplain
                cases links with
                | zero => exact .inl (followSteps_too_many h hn he)
                | succ links =>
                  rw [followSteps_link h hn he]
                  rcases ih links (Nat.lt_succ_self _) (linkStart target p)
                    (stepsOf target ++ steps) with hmany | ⟨k, hk, q, rest, r, w, hstop, hr⟩
                  · exact .inl hmany
                  · exact .inr ⟨k + 1, Nat.succ_le_succ hk, q, rest, r, .link h hn he w, hstop, hr⟩
          · exact .inr ⟨0, Nat.zero_le _, p, _, _, .refl p _, .long h hn, followSteps_long h hn⟩

/-- **A place is found exactly when a walk ends there.** -/
theorem followSteps_eq_found {links : Nat} {p q : Place} {steps : List Step} :
    t.followSteps links p steps = .ok (.found q) ↔ ∃ k ≤ links, Walk t p steps k q [] := by
  constructor
  · intro h
    rcases exists_walk (t := t) links p steps with hmany | ⟨k, hk, q', rest, r, w, hstop, hr⟩
    · rw [h] at hmany
      exact absurd hmany (by simp)
    · rw [h] at hr
      subst hr
      cases hstop
      exact ⟨k, hk, w⟩
  · rintro ⟨k, hk, w⟩
    rw [← Nat.add_sub_cancel' hk, followSteps_walk w, followSteps_nil]

/-- A free name is found exactly when a walk ends in its directory. -/
theorem followSteps_eq_free {links : Nat} {p f : Place} {steps : List Step} :
    t.followSteps links p steps = .ok (.free f) ↔
      ∃ k ≤ links, ∃ d name, Walk t p steps k d [.down name] ∧ t.isDirectoryAt d = true ∧
        IsShort name ∧ f = d ++ [name] ∧ t.at? f = none := by
  constructor
  · intro h
    rcases exists_walk (t := t) links p steps with hmany | ⟨k, hk, q', rest, r, w, hstop, hr⟩
    · rw [h] at hmany
      exact absurd hmany (by simp)
    · rw [h] at hr
      subst hr
      cases hstop with
      | free hd hn he => exact ⟨k, hk, q', _, w, hd, hn, rfl, he⟩
  · rintro ⟨k, hk, d, name, w, hd, hn, rfl, he⟩
    rw [← Nat.add_sub_cancel' hk, followSteps_walk w, followSteps_free hd hn he]

namespace Walk

/-! ## Walks in parts -/

/-- More steps to come change nothing. -/
theorem append {p q : Place} {steps rest : List Step} {k : Nat} (w : Walk t p steps k q rest)
    (more : List Step) : Walk t p (steps ++ more) k q (rest ++ more) := by
  induction w with
  | refl p steps => exact .refl p _
  | stay h _ ih => exact .stay h ih
  | up h _ ih => exact .up h ih
  | down h hn he hplain _ ih => exact .down h hn he hplain ih
  | link h hn he _ ih =>
    refine .link h hn he ?_
    rwa [List.append_assoc] at ih

theorem trans {p q r : Place} {steps rest last : List Step} {k m : Nat}
    (w : Walk t p steps k q rest) (w' : Walk t q rest m r last) :
    Walk t p steps (k + m) r last := by
  induction w with
  | refl p steps => rwa [Nat.zero_add]
  | stay h _ ih => exact .stay h (ih w')
  | up h _ ih => exact .up h (ih w')
  | down h hn he hplain _ ih => exact .down h hn he hplain (ih w')
  | link h hn he _ ih =>
    rw [Nat.add_right_comm]
    exact .link h hn he (ih w')

/-- A walk over a row of steps passes the end of its first part or stops before it. -/
theorem split {p r : Place} {steps more last : List Step} {k : Nat}
    (w : Walk t p (steps ++ more) k r last) :
    (∃ k₁ k₂ q, k = k₁ + k₂ ∧ Walk t p steps k₁ q [] ∧ Walk t q more k₂ r last) ∨
      ∃ left, left ≠ [] ∧ last = left ++ more ∧ Walk t p steps k r left := by
  generalize hall : steps ++ more = all at w
  induction w generalizing steps with
  | refl p all =>
    subst hall
    cases steps with
    | nil => exact .inl ⟨0, 0, p, rfl, .refl p [], .refl p more⟩
    | cons step steps => exact .inr ⟨step :: steps, by simp, rfl, .refl p _⟩
  | stay h w ih =>
    cases steps with
    | nil =>
      rw [List.nil_append] at hall
      subst hall
      exact .inl ⟨0, _, _, (Nat.zero_add _).symm, .refl _ [], .stay h w⟩
    | cons step steps =>
      rw [List.cons_append, List.cons.injEq] at hall
      obtain ⟨rfl, hall⟩ := hall
      rcases ih hall with ⟨k₁, k₂, q, hk, w₁, w₂⟩ | ⟨left, hne, hlast, w₁⟩
      · exact .inl ⟨k₁, k₂, q, hk, .stay h w₁, w₂⟩
      · exact .inr ⟨left, hne, hlast, .stay h w₁⟩
  | up h w ih =>
    cases steps with
    | nil =>
      rw [List.nil_append] at hall
      subst hall
      exact .inl ⟨0, _, _, (Nat.zero_add _).symm, .refl _ [], .up h w⟩
    | cons step steps =>
      rw [List.cons_append, List.cons.injEq] at hall
      obtain ⟨rfl, hall⟩ := hall
      rcases ih hall with ⟨k₁, k₂, q, hk, w₁, w₂⟩ | ⟨left, hne, hlast, w₁⟩
      · exact .inl ⟨k₁, k₂, q, hk, .up h w₁, w₂⟩
      · exact .inr ⟨left, hne, hlast, .up h w₁⟩
  | down h hn he hplain w ih =>
    cases steps with
    | nil =>
      rw [List.nil_append] at hall
      subst hall
      exact .inl ⟨0, _, _, (Nat.zero_add _).symm, .refl _ [], .down h hn he hplain w⟩
    | cons step steps =>
      rw [List.cons_append, List.cons.injEq] at hall
      obtain ⟨rfl, hall⟩ := hall
      rcases ih hall with ⟨k₁, k₂, q, hk, w₁, w₂⟩ | ⟨left, hne, hlast, w₁⟩
      · exact .inl ⟨k₁, k₂, q, hk, .down h hn he hplain w₁, w₂⟩
      · exact .inr ⟨left, hne, hlast, .down h hn he hplain w₁⟩
  | link h hn he w ih =>
    cases steps with
    | nil =>
      rw [List.nil_append] at hall
      subst hall
      exact .inl ⟨0, _, _, (Nat.zero_add _).symm, .refl _ [], .link h hn he w⟩
    | cons step steps =>
      rw [List.cons_append, List.cons.injEq] at hall
      obtain ⟨rfl, rfl⟩ := hall
      rcases ih (List.append_assoc ..) with ⟨k₁, k₂, q, hk, w₁, w₂⟩ | ⟨left, hne, hlast, w₁⟩
      · exact .inl ⟨k₁ + 1, k₂, q, by omega, .link h hn he w₁, w₂⟩
      · exact .inr ⟨left, hne, hlast, .link h hn he w₁⟩

/-- A walk to the end of a row of steps passes the end of its first part. -/
theorem split_end {p r : Place} {steps more : List Step} {k : Nat}
    (w : Walk t p (steps ++ more) k r []) :
    ∃ k₁ k₂ q, k = k₁ + k₂ ∧ Walk t p steps k₁ q [] ∧ Walk t q more k₂ r [] := by
  rcases w.split with h | ⟨left, hne, hlast, -⟩
  · exact h
  · exact absurd (List.append_eq_nil_iff.1 hlast.symm).1 hne

/-- Without steps there is nothing to walk. -/
theorem eq_nil {p q : Place} {rest : List Step} {k : Nat} (w : Walk t p [] k q rest) :
    rest = [] := by
  cases w
  rfl

/-- A walk that has steps left has the last one left, unless that goes down. -/
theorem getLast?_eq {p q : Place} {steps rest : List Step} {k : Nat} (w : Walk t p steps k q rest)
    (hrest : rest ≠ []) {step : Step} (hlast : steps.getLast? = some step)
    (hstep : ∀ name, step ≠ .down name) : rest.getLast? = some step := by
  have htail : ∀ (s : Step) (steps : List Step), (s :: steps).getLast? = some step →
      steps ≠ [] → steps.getLast? = some step := by
    intro s steps h hne
    obtain ⟨a, steps, rfl⟩ := List.exists_cons_of_ne_nil hne
    rwa [List.getLast?_cons_cons] at h
  have hdown : ∀ (name : String) (steps : List Step), (.down name :: steps).getLast? = some step →
      steps ≠ [] := by
    rintro name steps h rfl
    exact hstep name (by simpa using h.symm)
  induction w with
  | refl p steps => exact hlast
  | stay h w ih => exact ih hrest (htail _ _ hlast fun hs => hrest (eq_nil (hs ▸ w)))
  | up h w ih => exact ih hrest (htail _ _ hlast fun hs => hrest (eq_nil (hs ▸ w)))
  | down h hn he hplain w ih => exact ih hrest (htail _ _ hlast (hdown _ _ hlast))
  | link h hn he w ih =>
    refine ih hrest ?_
    rw [List.getLast?_append, htail _ _ hlast (hdown _ _ hlast)]
    rfl

/-- Where a walk ends depends on nothing else. -/
theorem unique {p q q' : Place} {steps : List Step} {k k' : Nat} (w : Walk t p steps k q [])
    (w' : Walk t p steps k' q' []) : q = q' := by
  have h : t.followSteps (max k k') p steps = .ok (.found q) :=
    followSteps_eq_found.2 ⟨k, Nat.le_max_left .., w⟩
  have h' : t.followSteps (max k k') p steps = .ok (.found q') :=
    followSteps_eq_found.2 ⟨k', Nat.le_max_right .., w'⟩
  rw [h] at h'
  simpa using h'

/-- How many links a walk takes depends on nothing else. -/
theorem links_unique {p q q' : Place} {steps : List Step} {k k' : Nat} (w : Walk t p steps k q [])
    (w' : Walk t p steps k' q' []) : k = k' := by
  generalize hend : ([] : List Step) = last at w
  induction w generalizing k' with
  | refl p steps =>
    subst hend
    cases w'
    rfl
  | stay h w ih =>
    cases w' with
    | stay _ w' => exact ih w' hend
  | up h w ih =>
    cases w' with
    | up _ w' => exact ih w' hend
  | down h hn he hplain w ih =>
    cases w' with
    | down _ _ _ _ w' => exact ih w' hend
    | link _ _ he' _ =>
      rw [he, Option.some.injEq] at he'
      exact absurd he' (hplain _)
  | link h hn he w ih =>
    cases w' with
    | down _ _ he' hplain _ =>
      rw [he, Option.some.injEq] at he'
      exact absurd he'.symm (hplain _)
    | link _ _ he' w' =>
      rw [he, Option.some.injEq, Entry.link.injEq] at he'
      subst he'
      rw [ih w' hend]

/-- No step leads away from what is no directory. -/
theorem eq_of_not_directory {p q : Place} {steps rest : List Step} {k : Nat}
    (w : Walk t p steps k q rest) (h : t.isDirectoryAt p = false) : q = p := by
  cases w with
  | refl => rfl
  | stay h' _ => exact absurd h' (by simp [h])
  | up h' _ => exact absurd h' (by simp [h])
  | down h' _ _ _ _ => exact absurd h' (by simp [h])
  | link h' _ _ _ => exact absurd h' (by simp [h])

/-- What a walk to a directory starts from is one. -/
theorem isDirectoryAt_start {p q : Place} {steps rest : List Step} {k : Nat}
    (w : Walk t p steps k q rest) (hq : t.isDirectoryAt q = true) : t.isDirectoryAt p = true := by
  cases hp : t.isDirectoryAt p with
  | true => rfl
  | false =>
    rw [← w.eq_of_not_directory hp, hq] at hp
    exact absurd hp (by simp)

/-! ## Walks in two trees -/

/-- **Writing files leaves a walk as it was**, unless it ends at one of them. -/
theorem frame {t u : FileTree} {changed : Place → Prop} (hsame : AgreesOff changed t u)
    (hchanged : ∀ p, changed p → Writable t p) {p q : Place} {steps rest : List Step} {k : Nat} (w : Walk t p steps k q rest)
    (hq : ¬ changed q) : Walk u p steps k q rest := by
  have hdir : ∀ p, t.isDirectoryAt p = true → u.isDirectoryAt p = true := by
    intro p h
    have hp : ¬ changed p := fun hp => by
      rw [(hchanged p hp).not_directory] at h
      exact absurd h (by simp)
    obtain ⟨time, htime⟩ := isDirectoryAt_iff.1 h
    exact isDirectoryAt_iff.2 ⟨time, hsame p _ hp htime⟩
  induction w with
  | refl p steps => exact .refl p steps
  | stay h _ ih => exact .stay (hdir _ h) (ih hq)
  | up h _ ih => exact .up (hdir _ h) (ih hq)
  | @down p q steps rest k name e h hn he hplain w ih =>
    have hnext : ¬ changed (p ++ [name]) := fun hp => by
      rw [w.eq_of_not_directory (hchanged _ hp).not_directory] at hq
      exact hq hp
    exact .down (hdir _ h) hn (hsame _ _ hnext he) hplain (ih hq)
  | @link p q steps rest k name target h hn he w ih =>
    have hnext : ¬ changed (p ++ [name]) := fun hp => (hchanged _ hp).not_link target he
    exact .link (hdir _ h) hn (hsame _ _ hnext he) (ih hq)

/-- **A walk does without a link, or ends where the link leads.** The link leads to what is no
directory, so nothing can come after it; and the way to its end is longer than the link's own. -/
theorem without_link {t u : FileTree} {d q : Place} {name : String} {target : Path} {m : Nat}
    (hat : t.at? (d ++ [name]) = some (.link target))
    (htarget : Walk t (linkStart target d) (stepsOf target) m q [])
    (hq : t.isDirectoryAt q = false) (hsame : AgreesOff (· = d ++ [name]) t u) {p r : Place}
    {steps : List Step} {k : Nat} (w : Walk t p steps k r []) :
    Walk u p steps k r [] ∨ r = q ∧ m < k := by
  have hdir : ∀ p, t.isDirectoryAt p = true → u.isDirectoryAt p = true := by
    intro p hp
    obtain ⟨time, htime⟩ := isDirectoryAt_iff.1 hp
    refine isDirectoryAt_iff.2 ⟨time, hsame p _ ?_ htime⟩
    rintro rfl
    rw [hat] at htime
    exact absurd htime (by simp)
  generalize hend : ([] : List Step) = last at w ⊢
  induction w with
  | refl p steps => exact .inl (.refl p steps)
  | stay h _ ih => exact (ih hend).imp_left (.stay (hdir _ h))
  | up h _ ih => exact (ih hend).imp_left (.up (hdir _ h))
  | @down p r steps last k name' e h hn he hplain _ ih =>
    have hoff : p ++ [name'] ≠ d ++ [name] := by
      intro hplace
      rw [hplace, hat, Option.some.injEq] at he
      exact hplain target he.symm
    exact (ih hend).imp_left (.down (hdir _ h) hn (hsame _ _ hoff he) hplain)
  | @link p r steps last k name' target' h hn he w ih =>
    by_cases hplace : p ++ [name'] = d ++ [name]
    · -- The link itself is taken: it leads to `q`, and there the walk is over.
      obtain rfl := (List.append_inj' hplace rfl).1
      rw [hplace, hat, Option.some.injEq, Entry.link.injEq] at he
      subst he hend
      obtain ⟨k₁, k₂, q', rfl, w₁, w₂⟩ := w.split_end
      obtain rfl := w₁.unique htarget
      obtain rfl := w₁.links_unique htarget
      exact .inr ⟨w₂.eq_of_not_directory hq, by omega⟩
    · rcases ih hend with hw | ⟨hr, hm⟩
      · exact .inl (.link (hdir _ h) hn (hsame _ _ hplace he) hw)
      · exact .inr ⟨hr, by omega⟩

/-- **A walk goes on in a tree with the same links and no less of the rest.** -/
theorem grow {t u : FileTree} (hdirs : ∀ p, t.isDirectoryAt p = true → u.isDirectoryAt p = true)
    (hlinks : ∀ p target, t.at? p = some (.link target) → u.at? p = some (.link target))
    (hplain : ∀ p e, t.at? p = some e → IsPlain e → ∃ e', u.at? p = some e' ∧ IsPlain e')
    {p q : Place} {steps rest : List Step} {k : Nat} (w : Walk t p steps k q rest) :
    Walk u p steps k q rest := by
  induction w with
  | refl p steps => exact .refl p steps
  | stay h _ ih => exact .stay (hdirs _ h) ih
  | up h _ ih => exact .up (hdirs _ h) ih
  | down h hn he hp w ih =>
    obtain ⟨e', he', hp'⟩ := hplain _ _ he hp
    exact .down (hdirs _ h) hn he' hp' ih
  | link h hn he w ih => exact .link (hdirs _ h) hn (hlinks _ _ he) ih

end Walk

/-! ## Places without links -/

/-- Below a place there are no links. -/
def IsLinkless (d : Place) (t : FileTree) : Prop :=
  ∀ ns e, ns ≠ [] → t.at? (d ++ ns) = some e → IsPlain e

/-- Steps down from a place without links below it go to the place with their names. -/
theorem IsLinkless.eq_of_walk {d c : Place} (h : IsLinkless d t) {ns : List String} {m : Nat}
    (w : Walk t d (ns.map .down) m c []) : c = d ++ ns := by
  induction ns generalizing d m with
  | nil =>
    cases w
    exact (List.append_nil _).symm
  | cons n ns ih =>
    have hbelow : IsLinkless (d ++ [n]) t := fun ms e _ he =>
      h (n :: ms) e nofun (by simpa using he)
    cases w with
    | down _ _ _ _ w => simpa using ih hbelow w
    | link _ _ he _ => exact absurd rfl (h [n] _ nofun he _)

end FileTree

end QmlStubs
