import Mathlib.Data.List.Basic
import Mathlib.Tactic.Common
import QmlStubs.Collections.SortedMap

/-!
# More look-up equations

`SortedMap.lean` gives the look-ups of the single operations. Here they are carried over to lists
of insertions, where the last entry under a key counts, and restated as membership: in the keys, in
the values, and in the members of a set. What a look-up or a run gives when it is known to succeed
comes first.
-/

set_option autoImplicit false

namespace QmlStubs

open Std

/-- What does not fail gives a value. -/
theorem exists_ok_of_toBool {ε α : Type} {x : Except ε α} (h : x.toBool = true) :
    ∃ a, x = .ok a := by
  cases x with
  | ok a => exact ⟨a, rfl⟩
  | error e => exact absurd h (by simp [Except.toBool])

theorem ok_of_toOption {ε α : Type} {x : Except ε α} {a : α} (h : x.toOption = some a) :
    x = .ok a := by
  cases x with
  | ok b => exact congrArg Except.ok (Option.some.inj h)
  | error e => exact absurd h (by simp [Except.toOption])

/-- A run whose answer is good has one. -/
theorem exists_pair_of_toBool {ε α β : Type} {x : Except ε α × β} (h : x.1.toBool = true) :
    ∃ a, x = (.ok a, x.2) := by
  obtain ⟨a, ha⟩ := exists_ok_of_toBool h
  exact ⟨a, Prod.ext ha rfl⟩

/-- Increasing lists with the same members are equal. -/
theorem eq_of_pairwise_lt {α : Type} [Ord α] [TransOrd α] {l l' : List α}
    (hl : l.Pairwise fun a b => compare a b = .lt) (hl' : l'.Pairwise fun a b => compare a b = .lt)
    (hmem : ∀ a, a ∈ l ↔ a ∈ l') : l = l' := by
  have hnodup : ∀ {l : List α}, l.Pairwise (fun a b => compare a b = .lt) → l.Nodup :=
    fun h => h.imp fun {a b} hlt he => by
      rw [he] at hlt
      exact absurd hlt (by simp)
  refine List.Perm.eq_of_pairwise (fun a b _ _ hab hba => ?_) hl hl'
    ((List.perm_ext_iff_of_nodup (hnodup hl) (hnodup hl')).2 hmem)
  rw [OrientedOrd.eq_swap, hba] at hab
  exact absurd hab (by simp)

namespace SortedMap

variable {α β : Type} [Ord α]

/-! ## Presence -/

theorem contains_iff {m : SortedMap α β} {k : α} :
    m.contains k = true ↔ ∃ v, m.find? k = some v := by
  unfold contains
  exact Option.isSome_iff_exists

theorem contains_eq_false {m : SortedMap α β} {k : α} :
    m.contains k = false ↔ m.find? k = none := by
  unfold contains
  cases m.find? k <;> simp

theorem contains_of_find? {m : SortedMap α β} {k : α} {v : β} (h : m.find? k = some v) :
    m.contains k = true := contains_iff.2 ⟨v, h⟩

/-- The keys are strictly increasing. -/
theorem keys_pairwise (m : SortedMap α β) : m.keys.Pairwise fun a b => compare a b = .lt := by
  unfold keys
  exact List.pairwise_map.2 m.increasing

variable [TransOrd α] [LawfulEqOrd α]

theorem mem_keys {m : SortedMap α β} {k : α} : k ∈ m.keys ↔ m.contains k = true := by
  rw [contains_iff]
  unfold keys
  constructor
  · intro h
    obtain ⟨⟨k', v⟩, hm, rfl⟩ := List.mem_map.1 h
    exact ⟨v, mem_entries.1 hm⟩
  · rintro ⟨v, hv⟩
    exact List.mem_map.2 ⟨(k, v), mem_entries.2 hv, rfl⟩

theorem mem_values {m : SortedMap α β} {v : β} : v ∈ m.values ↔ ∃ k, m.find? k = some v := by
  unfold values
  constructor
  · intro h
    obtain ⟨⟨k, v'⟩, hm, rfl⟩ := List.mem_map.1 h
    exact ⟨k, mem_entries.1 hm⟩
  · rintro ⟨k, hk⟩
    exact List.mem_map.2 ⟨(k, v), mem_entries.2 hk, rfl⟩

variable [DecidableEq α]

theorem contains_insert {m : SortedMap α β} {k j : α} {v : β} :
    (m.insert k v).contains j = true ↔ j = k ∨ m.contains j = true := by
  rw [contains_iff, contains_iff, find?_insert]
  by_cases h : j = k <;> simp [h]

theorem contains_erase {m : SortedMap α β} {k j : α} :
    (m.erase k).contains j = true ↔ j ≠ k ∧ m.contains j = true := by
  rw [contains_iff, contains_iff, find?_erase]
  by_cases h : j = k <;> simp [h]

theorem find?_erase_of_ne {m : SortedMap α β} {k j : α} (h : j ≠ k) :
    (m.erase k).find? j = m.find? j := by rw [find?_erase, if_neg h]

theorem find?_insert_self {m : SortedMap α β} {k : α} {v : β} :
    (m.insert k v).find? k = some v := by rw [find?_insert, if_pos rfl]

theorem find?_insert_of_ne {m : SortedMap α β} {k j : α} {v : β} (h : j ≠ k) :
    (m.insert k v).find? j = m.find? j := by rw [find?_insert, if_neg h]

/-! ## Lists of insertions -/

section LastValue

variable {α β : Type} [DecidableEq α]

/-- The value of the last entry under a key. -/
def lastValue? (k : α) (l : List (α × β)) : Option β :=
  ((l.filter fun e => decide (e.1 = k)).getLast?).map (·.2)

theorem lastValue?_cons (k : α) (e : α × β) (l : List (α × β)) :
    lastValue? k (e :: l) = (lastValue? k l).or (if e.1 = k then some e.2 else none) := by
  unfold lastValue?
  by_cases h : e.1 = k
  · rw [List.filter_cons_of_pos (by simpa using h), if_pos h]
    cases hl : l.filter fun e => decide (e.1 = k) with
    | nil => simp
    | cons a l' =>
      rw [List.getLast?_cons_cons]
      cases hg : (a :: l').getLast? with
      | none => simp at hg
      | some b => simp
  · rw [List.filter_cons_of_neg (by simpa using h), if_neg h, Option.or_none]

theorem lastValue?_eq_some {k : α} {v : β} {l : List (α × β)} (h : lastValue? k l = some v) :
    (k, v) ∈ l := by
  unfold lastValue? at h
  obtain ⟨⟨k', v'⟩, hl, rfl⟩ := Option.map_eq_some_iff.1 h
  have hm := List.mem_filter.1 (List.mem_of_getLast? hl)
  have hk : k' = k := by simpa using hm.2
  exact hk ▸ hm.1

theorem lastValue?_eq_none {k : α} {l : List (α × β)} :
    lastValue? k l = none ↔ ∀ e ∈ l, e.1 ≠ k := by
  unfold lastValue?
  rw [Option.map_eq_none_iff, List.getLast?_eq_none_iff, List.filter_eq_nil_iff]
  simp

end LastValue

theorem find?_foldl_insert (l : List (α × β)) (m : SortedMap α β) (k : α) :
    (l.foldl (fun m e => m.insert e.1 e.2) m).find? k = (lastValue? k l).or (m.find? k) := by
  induction l generalizing m with
  | nil => simp [lastValue?]
  | cons e l ih =>
    rw [List.foldl_cons, ih, lastValue?_cons, find?_insert, Option.or_assoc]
    congr 1
    by_cases h : e.1 = k
    · simp [h]
    · simp [h, Ne.symm h]

/-- **Of equal keys the last one counts.** -/
theorem find?_ofList (l : List (α × β)) (k : α) : (ofList l).find? k = lastValue? k l := by
  unfold ofList
  rw [find?_foldl_insert, find?_empty, Option.or_none]

theorem find?_union (m n : SortedMap α β) (k : α) :
    (m.union n).find? k = (lastValue? k n.entries).or (m.find? k) := by
  unfold union
  exact find?_foldl_insert _ _ _

theorem mem_of_find?_ofList {l : List (α × β)} {k : α} {v : β} (h : (ofList l).find? k = some v) :
    (k, v) ∈ l := lastValue?_eq_some (by rwa [find?_ofList] at h)

theorem contains_ofList {l : List (α × β)} {k : α} :
    (ofList l).contains k = true ↔ ∃ e ∈ l, e.1 = k := by
  rw [contains_iff]
  constructor
  · rintro ⟨v, hv⟩
    exact ⟨(k, v), mem_of_find?_ofList hv, rfl⟩
  · rintro ⟨e, he, rfl⟩
    cases hv : (ofList l).find? e.1 with
    | some v => exact ⟨v, rfl⟩
    | none =>
      rw [find?_ofList, lastValue?_eq_none] at hv
      exact absurd rfl (hv e he)

/-- A map is made again from its own entries. -/
theorem ofList_entries (m : SortedMap α β) : ofList m.entries = m := by
  apply ext_find?
  intro k
  cases hv : m.find? k with
  | some v =>
    cases hw : (ofList m.entries).find? k with
    | none =>
      rw [find?_ofList, lastValue?_eq_none] at hw
      exact absurd rfl (hw _ (mem_entries.2 hv))
    | some w =>
      rw [← hv, ← mem_entries.1 (mem_of_find?_ofList hw)]
  | none =>
    rw [find?_ofList, lastValue?_eq_none]
    rintro ⟨k', v⟩ he rfl
    rw [mem_entries.1 he] at hv
    exact absurd hv (by simp)

end SortedMap

namespace SortedSet

variable {α : Type} [Ord α] [TransOrd α] [LawfulEqOrd α]

theorem mem_toList {s : SortedSet α} {a : α} : a ∈ s.toList ↔ s.contains a = true :=
  SortedMap.mem_keys

/-- Sets with the same members are equal. -/
theorem ext_mem {s t : SortedSet α} (h : ∀ a, a ∈ s.toList ↔ a ∈ t.toList) : s = t := by
  apply SortedMap.ext_find?
  intro a
  have ha := h a
  rw [mem_toList, mem_toList, SortedMap.contains_iff, SortedMap.contains_iff] at ha
  cases hs : s.find? a with
  | some u =>
    obtain ⟨v, hv⟩ := ha.1 ⟨u, hs⟩
    rw [hv]
  | none =>
    cases ht : t.find? a with
    | none => rfl
    | some v =>
      obtain ⟨u, hu⟩ := ha.2 ⟨v, ht⟩
      rw [hs] at hu
      exact absurd hu (by simp)

variable [DecidableEq α]

theorem contains_insertAll {s : SortedSet α} {l : List α} {a : α} :
    (s.insertAll l).contains a = true ↔ a ∈ l ∨ s.contains a = true := by
  unfold insertAll
  induction l generalizing s with
  | nil => simp
  | cons b l ih =>
    rw [List.foldl_cons, ih, SortedMap.contains_insert, List.mem_cons, or_left_comm, or_assoc]

theorem mem_toList_insertAll {s : SortedSet α} {l : List α} {a : α} :
    a ∈ (s.insertAll l).toList ↔ a ∈ l ∨ a ∈ s.toList := by
  rw [mem_toList, mem_toList, contains_insertAll]

theorem mem_toList_ofList {l : List α} {a : α} : a ∈ (ofList l).toList ↔ a ∈ l := by
  have h : ofList l = insertAll .empty l := rfl
  rw [h, mem_toList_insertAll]
  simp [toList, SortedMap.keys, SortedMap.empty]

theorem ofList_toList (s : SortedSet α) : ofList s.toList = s :=
  ext_mem fun _ => mem_toList_ofList

end SortedSet

end QmlStubs
