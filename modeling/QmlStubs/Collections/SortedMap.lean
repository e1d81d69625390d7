/-!
# Sorted maps and sets

Every table of the generator that an answer can show (the modules of a snapshot, the edges of a
trace, the entries of a file tree) is listed in key order. A `SortedMap` is the list of its
entries in strictly increasing key order, with the order as a field, so that two maps with equal
look-ups are equal (`SortedMap.ext_find?`) and the printed order needs no sorting step.

The main statements are the look-up equations of each operation: `find?_insert`, `find?_erase`,
`find?_mapVal`, `find?_filter`, and `mem_entries`, which says that the entries are the look-ups.
-/

set_option autoImplicit false

namespace QmlStubs

open Std

/-- The keys of a list of entries are strictly increasing. -/
def KeysIncreasing {α β : Type} [Ord α] (l : List (α × β)) : Prop :=
  l.Pairwise fun a b => compare a.1 b.1 = .lt

/-- A finite map held as its entries in increasing key order. -/
structure SortedMap (α β : Type) [Ord α] where
  entries : List (α × β)
  increasing : KeysIncreasing entries

/-- A finite set held as its members in increasing order. -/
abbrev SortedSet (α : Type) [Ord α] := SortedMap α Unit

namespace SortedMap

variable {α β γ : Type} [Ord α]

@[ext] theorem ext_entries {m n : SortedMap α β} (h : m.entries = n.entries) : m = n := by
  cases m; cases n; cases h; rfl

instance [DecidableEq α] [DecidableEq β] : DecidableEq (SortedMap α β) := fun m n =>
  decidable_of_iff (m.entries = n.entries) ⟨ext_entries, fun h => h ▸ rfl⟩

/-! ## Lists of entries -/

/-- Put a value under a key, in the place of a value that is there. -/
def insertEntry (k : α) (v : β) : List (α × β) → List (α × β)
  | [] => [(k, v)]
  | e :: rest =>
    match compare k e.1 with
    | .lt => (k, v) :: e :: rest
    | .eq => (k, v) :: rest
    | .gt => e :: insertEntry k v rest

/-- The first value under a key. -/
def findEntry (k : α) : List (α × β) → Option β
  | [] => none
  | e :: rest => if compare k e.1 = .eq then some e.2 else findEntry k rest

theorem mem_insertEntry {k : α} {v : β} {e : α × β} {l : List (α × β)}
    (h : e ∈ insertEntry k v l) : e = (k, v) ∨ e ∈ l := by
  induction l with
  | nil => simpa [insertEntry] using h
  | cons a l ih =>
    rw [insertEntry] at h
    split at h
    · simpa using h
    · rcases List.mem_cons.1 h with h | h
      · exact .inl h
      · exact .inr (List.mem_cons_of_mem _ h)
    · rcases List.mem_cons.1 h with h | h
      · exact .inr (h ▸ List.mem_cons_self ..)
      · exact (ih h).imp id (List.mem_cons_of_mem _)

theorem keysIncreasing_insertEntry [TransOrd α] (k : α) (v : β) {l : List (α × β)}
    (h : KeysIncreasing l) : KeysIncreasing (insertEntry k v l) := by
  induction l with
  | nil => simp [insertEntry, KeysIncreasing]
  | cons a l ih =>
    obtain ⟨ha, hl⟩ := List.pairwise_cons.1 h
    rw [insertEntry]
    split
    next hk =>
      refine List.pairwise_cons.2 ⟨fun b hb => ?_, h⟩
      rcases List.mem_cons.1 hb with rfl | hb
      · exact hk
      · exact TransCmp.lt_trans hk (ha b hb)
    next hk =>
      exact List.pairwise_cons.2 ⟨fun b hb => TransCmp.lt_of_eq_of_lt hk (ha b hb), hl⟩
    next hk =>
      refine List.pairwise_cons.2 ⟨fun b hb => ?_, ih hl⟩
      rcases mem_insertEntry hb with rfl | hb
      · exact OrientedCmp.lt_of_gt hk
      · exact ha b hb

/-! ## The map -/

/-- The map with no entry. -/
def empty : SortedMap α β := ⟨[], .nil⟩

instance : EmptyCollection (SortedMap α β) := ⟨empty⟩
instance : Inhabited (SortedMap α β) := ⟨empty⟩

/-- The value under a key. -/
def find? (m : SortedMap α β) (k : α) : Option β := findEntry k m.entries

/-- Whether there is a value under a key. -/
def contains (m : SortedMap α β) (k : α) : Bool := (m.find? k).isSome

/-- Number of entries. -/
def size (m : SortedMap α β) : Nat := m.entries.length

/-- Whether there is no entry. -/
def isEmpty (m : SortedMap α β) : Bool := m.entries.isEmpty

/-- The keys in increasing order. -/
def keys (m : SortedMap α β) : List α := m.entries.map (·.1)

/-- The values in the order of their keys. -/
def values (m : SortedMap α β) : List β := m.entries.map (·.2)

/-- Put a value under a key; the value that was there is lost. -/
def insert [TransOrd α] (m : SortedMap α β) (k : α) (v : β) : SortedMap α β :=
  ⟨insertEntry k v m.entries, keysIncreasing_insertEntry k v m.increasing⟩

/-- Put a value under a key that has none; a value that is there stays. -/
def insertNew [TransOrd α] (m : SortedMap α β) (k : α) (v : β) : SortedMap α β :=
  if m.contains k then m else m.insert k v

/-- The entries that pass a test. -/
def filter (m : SortedMap α β) (p : α → β → Bool) : SortedMap α β :=
  ⟨m.entries.filter fun e => p e.1 e.2, m.increasing.filter _⟩

/-- Take a key out. -/
def erase (m : SortedMap α β) (k : α) : SortedMap α β := m.filter fun a _ => compare k a != .eq

/-- Change each value by its key. -/
def mapVal (m : SortedMap α β) (f : α → β → γ) : SortedMap α γ :=
  ⟨m.entries.map fun e => (e.1, f e.1 e.2), by
    simpa [KeysIncreasing, List.pairwise_map] using m.increasing⟩

/-- The entries of a list; of equal keys the last one counts. -/
def ofList [TransOrd α] (l : List (α × β)) : SortedMap α β :=
  l.foldl (fun m e => m.insert e.1 e.2) empty

/-- Put all entries of the second map into the first. -/
def union [TransOrd α] (m n : SortedMap α β) : SortedMap α β :=
  n.entries.foldl (fun m e => m.insert e.1 e.2) m

/-! ## Look-up equations -/

theorem findEntry_insertEntry [TransOrd α] [LawfulEqOrd α] [DecidableEq α] (k j : α) (v : β)
    (l : List (α × β)) :
    findEntry j (insertEntry k v l) = if j = k then some v else findEntry j l := by
  induction l with
  | nil => simp [insertEntry, findEntry]
  | cons a l ih =>
    rw [insertEntry]
    split
    next => simp only [findEntry]; simp
    next hk =>
      have hk : k = a.1 := by simpa using hk
      subst hk
      by_cases hj : j = a.1 <;> simp [findEntry, hj]
    next hk =>
      rw [findEntry, ih]
      by_cases hj : j = k
      · subst hj; simp [hk]
      · simp [findEntry, hj]

theorem find?_insert [TransOrd α] [LawfulEqOrd α] [DecidableEq α] (m : SortedMap α β) (k j : α)
    (v : β) : (m.insert k v).find? j = if j = k then some v else m.find? j :=
  findEntry_insertEntry k j v m.entries

@[simp] theorem find?_empty (k : α) : (empty : SortedMap α β).find? k = none := rfl

/-- **The entries are the look-ups.** -/
theorem mem_entries [TransOrd α] [LawfulEqOrd α] {m : SortedMap α β} {k : α} {v : β} :
    (k, v) ∈ m.entries ↔ m.find? k = some v := by
  obtain ⟨l, hl⟩ := m
  simp only [find?]
  induction l with
  | nil => simp [findEntry]
  | cons a l ih =>
    obtain ⟨ha, hl⟩ := List.pairwise_cons.1 hl
    rw [List.mem_cons, findEntry]
    split
    next h =>
      have h : k = a.1 := by simpa using h
      subst h
      refine ⟨fun h => ?_, fun h => .inl ?_⟩
      · rcases h with h | h
        · rw [← h]
        · exact absurd (ha _ h) (by simp)
      · cases h; rfl
    next h =>
      rw [← ih hl]
      refine ⟨fun h' => h'.resolve_left fun e => h (by rw [← e]; simp), .inr⟩

theorem find?_filter [TransOrd α] [LawfulEqOrd α] (m : SortedMap α β) (p : α → β → Bool) (k : α) :
    (m.filter p).find? k = (m.find? k).filter (p k) := by
  apply Option.ext
  intro v
  rw [← mem_entries]
  simp [filter, mem_entries, Option.filter_eq_some_iff]

theorem find?_erase [TransOrd α] [LawfulEqOrd α] [DecidableEq α] (m : SortedMap α β) (k j : α) :
    (m.erase k).find? j = if j = k then none else m.find? j := by
  rw [erase, find?_filter]
  by_cases h : j = k
  · subst h; cases m.find? j <;> simp [Option.filter]
  · have h' : ¬ k = j := fun e => h e.symm
    cases hm : m.find? j <;> simp [Option.filter, h, h']

theorem find?_mapVal (m : SortedMap α β) (f : α → β → γ) [LawfulEqOrd α] (k : α) :
    (m.mapVal f).find? k = (m.find? k).map (f k) := by
  obtain ⟨l, hl⟩ := m
  simp only [find?, mapVal]
  clear hl
  induction l with
  | nil => rfl
  | cons a l ih =>
    simp only [List.map_cons, findEntry]
    by_cases h : compare k a.1 = .eq
    · have h' : k = a.1 := by simpa using h
      simp [h']
    · simp [h, ih]

/-- **Maps with equal look-ups are equal.** -/
theorem ext_find? [TransOrd α] [LawfulEqOrd α] {m n : SortedMap α β}
    (h : ∀ k, m.find? k = n.find? k) : m = n := by
  have key : ∀ {l l' : List (α × β)}, KeysIncreasing l → KeysIncreasing l' →
      (∀ e, e ∈ l ↔ e ∈ l') → l = l' := by
    intro l
    induction l with
    | nil =>
      intro l' _ _ h
      cases l' with
      | nil => rfl
      | cons b l' => exact absurd ((h b).2 (List.mem_cons_self ..)) (by simp)
    | cons a l ih =>
      intro l' hl hl' h
      cases l' with
      | nil => exact absurd ((h a).1 (List.mem_cons_self ..)) (by simp)
      | cons b l' =>
        obtain ⟨ha, hlt⟩ := List.pairwise_cons.1 hl
        obtain ⟨hb, hlt'⟩ := List.pairwise_cons.1 hl'
        have hab : a = b := by
          rcases List.mem_cons.1 ((h a).1 (List.mem_cons_self ..)) with e | hm
          · exact e
          · rcases List.mem_cons.1 ((h b).2 (List.mem_cons_self ..)) with e | hm'
            · exact e.symm
            · have := TransCmp.lt_trans (hb a hm) (ha b hm')
              simp at this
        subst hab
        congr 1
        refine ih hlt hlt' fun e => ⟨fun he => ?_, fun he => ?_⟩
        · rcases List.mem_cons.1 ((h e).1 (List.mem_cons_of_mem _ he)) with rfl | h'
          · exact absurd (ha _ he) (by simp)
          · exact h'
        · rcases List.mem_cons.1 ((h e).2 (List.mem_cons_of_mem _ he)) with rfl | h'
          · exact absurd (hb _ he) (by simp)
          · exact h'
  exact ext_entries (key m.increasing n.increasing fun e => by
    obtain ⟨k, v⟩ := e
    rw [mem_entries, mem_entries, h])

theorem size_erase_lt [TransOrd α] [LawfulEqOrd α] {m : SortedMap α β} {k : α}
    (h : m.contains k = true) : (m.erase k).size < m.size := by
  obtain ⟨v, hv⟩ := Option.isSome_iff_exists.1 h
  have hm : (k, v) ∈ m.entries := mem_entries.2 hv
  simp only [size, erase, filter]
  rw [List.length_filter_lt_length_iff_exists]
  exact ⟨(k, v), hm, by simp⟩

end SortedMap

namespace SortedSet

variable {α : Type} [Ord α]

/-- The members of a list. -/
def ofList [TransOrd α] (l : List α) : SortedSet α := l.foldl (fun s a => s.insert a ()) .empty

/-- The members in increasing order. -/
def toList (s : SortedSet α) : List α := s.keys

/-- Put all members of a list into a set. -/
def insertAll [TransOrd α] (s : SortedSet α) (l : List α) : SortedSet α :=
  l.foldl (fun s a => s.insert a ()) s

end SortedSet

end QmlStubs
