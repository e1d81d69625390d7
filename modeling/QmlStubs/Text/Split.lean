/-!
# Splitting at a separator

Module names are split at dots and paths at slashes. `split` keeps empty parts, so that joining
gives the text back (`joinWith_split`).
-/

set_option autoImplicit false

namespace QmlStubs.Text

/-- The parts of a text between the occurrences of a separator; empty parts are kept. -/
def split (sep : Char) : List Char → List (List Char)
  | [] => [[]]
  | c :: rest =>
    if c = sep then [] :: split sep rest
    else
      match split sep rest with
      | [] => [[c]]
      | part :: parts => (c :: part) :: parts

/-- Parts with a separator between them. -/
def joinWith (sep : Char) : List (List Char) → List Char
  | [] => []
  | [part] => part
  | part :: parts => part ++ sep :: joinWith sep parts

theorem split_ne_nil (sep : Char) (s : List Char) : split sep s ≠ [] := by
  cases s with
  | nil => simp [split]
  | cons c s =>
    rw [split]
    split
    · simp
    · split <;> simp

/-- **Splitting loses nothing.** -/
theorem joinWith_split (sep : Char) (s : List Char) : joinWith sep (split sep s) = s := by
  induction s with
  | nil => rfl
  | cons c s ih =>
    rw [split]
    split
    next h =>
      cases hs : split sep s with
      | nil => exact absurd hs (split_ne_nil sep s)
      | cons p ps =>
        rw [joinWith, ← hs, ih, h]
        · simp
        · simp
    next h =>
      cases hs : split sep s with
      | nil => exact absurd hs (split_ne_nil sep s)
      | cons p ps =>
        rw [hs] at ih
        cases ps with
        | nil => simpa [joinWith] using ih
        | cons q qs => simpa [joinWith] using ih

/-- No part holds the separator. -/
theorem not_mem_of_mem_split {sep : Char} {s part : List Char} (h : part ∈ split sep s) :
    sep ∉ part := by
  induction s generalizing part with
  | nil => simp [split] at h; simp [h]
  | cons c s ih =>
    rw [split] at h
    split at h
    next =>
      rcases List.mem_cons.1 h with rfl | h
      · simp
      · exact ih h
    next hc =>
      cases hs : split sep s with
      | nil => exact absurd hs (split_ne_nil sep s)
      | cons p ps =>
        rw [hs] at h
        rcases List.mem_cons.1 h with rfl | h
        · have hp : p ∈ split sep s := by simp [hs]
          simp [ih hp, Ne.symm hc]
        · exact ih (by simp [hs, h])

/-- The parts of a string between the occurrences of a separator. -/
def splitString (sep : Char) (s : String) : List String :=
  (split sep s.toList).map String.ofList

/-- Strings with a separator between them. -/
def joinStrings (sep : Char) (parts : List String) : String :=
  String.ofList (joinWith sep (parts.map String.toList))

theorem joinStrings_splitString (sep : Char) (s : String) :
    joinStrings sep (splitString sep s) = s := by
  simp [joinStrings, splitString, Function.comp_def, joinWith_split]

/-- The decimal text of a natural number. -/
def ofNat (n : Nat) : String := String.ofList (Nat.toDigits 10 n)

/-- The value of a decimal digit. -/
def digit? (c : Char) : Option Nat :=
  if '0' ≤ c && c ≤ '9' then some (c.toNat - '0'.toNat) else none

/-- The value of a row of decimal digits, at least one. -/
def digits? (s : List Char) : Option Nat :=
  if s.isEmpty then none
  else s.foldl (fun n c => do return 10 * (← n) + (← digit? c)) (some 0)

end QmlStubs.Text
