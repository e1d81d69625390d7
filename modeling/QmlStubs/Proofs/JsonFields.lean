import QmlStubs.Json.Reader
import QmlStubs.Proofs.Collections
import QmlStubs.Proofs.JsonRoundTrip

/-!
# Reading back what is stored

A stored form is made of records, lists and texts. Reading one back never meets the cases that the
readers are careful about: no field is missing or given twice, and no string is unreadable. This
file says so once for each part, so that the round trip of a stored type is a matter of naming its
fields.
-/

set_option autoImplicit false

namespace QmlStubs

namespace Json

/-- A reader that succeeds on every member of a list reads the list. -/
theorem mapM_eq_some {α β γ : Type} {f : β → Option γ} {g : α → β} {h : α → γ} {l : List α}
    (hf : ∀ a ∈ l, f (g a) = some (h a)) : (l.map g).mapM f = some (l.map h) := by
  induction l with
  | nil => rfl
  | cons a l ih =>
    rw [List.map_cons, List.mapM_cons, hf a (List.mem_cons_self ..),
      ih fun b hb => hf b (List.mem_cons_of_mem _ hb)]
    rfl

/-! ## Records -/

theorem reread_record (members : List (String × Json)) :
    (record members).reread = record (members.map fun m => (m.1, m.2.reread)) := by
  unfold record
  rw [reread, rereadMembers_eq_map]
  simp

theorem valuesOf_eq_nil {name : String} {members : List (String × Json)}
    (h : name ∉ members.map (·.1)) :
    valuesOf name (members.map fun m => (some m.1, m.2)) = [] := by
  unfold valuesOf
  rw [List.filterMap_eq_nil_iff]
  intro m hm
  obtain ⟨m', hm', rfl⟩ := List.mem_map.1 hm
  have hne : m'.1 ≠ name := fun he => h (List.mem_map.2 ⟨m', hm', he⟩)
  simp [hne]

/-- A name that is given once has its value. -/
theorem valuesOf_eq_singleton {name : String} {v : Json} {members : List (String × Json)}
    (hnodup : (members.map (·.1)).Nodup) (h : (name, v) ∈ members) :
    valuesOf name (members.map fun m => (some m.1, m.2)) = [v] := by
  induction members with
  | nil => exact absurd h (by simp)
  | cons m members ih =>
    rw [List.map_cons, List.nodup_cons] at hnodup
    rcases List.mem_cons.1 h with rfl | h
    · have hrest := valuesOf_eq_nil hnodup.1
      unfold valuesOf at hrest ⊢
      rw [List.map_cons, List.filterMap_cons, hrest]
      simp
    · have hne : m.1 ≠ name := fun he => hnodup.1 (List.mem_map.2 ⟨(name, v), h, he.symm⟩)
      have hrest := ih hnodup.2 h
      unfold valuesOf at hrest ⊢
      rw [List.map_cons, List.filterMap_cons, hrest]
      simp [hne]

/-- **The fields of a record are read by their names.** -/
theorem fields?_record {members : List (String × Json)} (h : (members.map (·.1)).Nodup) :
    (record members).fields? (members.map (·.1)) = some (members.map fun m => some m.2) := by
  have hall : (members.map fun m => (some m.1, m.2)).all (fun m => m.1.isSome) = true := by simp
  unfold record fields?
  dsimp only
  rw [if_pos hall]
  refine mapM_eq_some fun m hm => ?_
  unfold field?
  rw [valuesOf_eq_singleton h hm]

/-! ## Texts, lists and maps -/

theorem reread_text (s : String) : (text s).reread = text s := rfl

theorem reread_texts (l : List String) : (texts l).reread = texts l := by
  unfold texts
  rw [reread, rereadItems_eq_map, List.map_map]
  rfl

theorem list?_string? (l : List String) : (texts l).list? string? = some l := by
  have h := mapM_eq_some (f := string?) (g := text) (h := id) (l := l) fun _ _ => rfl
  rw [List.map_id] at h
  exact h

theorem list?_map {α : Type} {read : Json → Option α} {write : α → Json} {l : List α}
    (h : ∀ a ∈ l, read (write a).reread = some a) :
    (array (l.map write)).reread.list? read = some l := by
  have hread := mapM_eq_some (f := read) (g := fun a => (write a).reread) (h := id) (l := l) h
  rw [List.map_id] at hread
  rw [reread, rereadItems_eq_map, List.map_map]
  exact hread

/-- A map is read back from the object of its entries. -/
theorem map?_record {α : Type} {read : Json → Option α} {write : α → Json}
    {m : SortedMap String α} (h : ∀ k v, m.find? k = some v → read (write v).reread = some v) :
    (record (m.entries.map fun e => (e.1, write e.2))).reread.map? read = some m := by
  have hread := mapM_eq_some (l := m.entries)
    (f := fun e : Option String × Json => do return (← e.1, ← read e.2))
    (g := fun e => (some e.1, (write e.2).reread)) (h := id) (fun e he => by
      obtain ⟨k, v⟩ := e
      simp [h k v (SortedMap.mem_entries.1 he)])
  rw [List.map_id] at hread
  rw [reread_record, List.map_map]
  unfold record map?
  dsimp only
  rw [List.map_map]
  have heq : (m.entries.map ((fun m => (some m.1, m.2)) ∘ (fun m => (m.1, m.2.reread)) ∘
      fun e => (e.1, write e.2))) = m.entries.map fun e => (some e.1, (write e.2).reread) := rfl
  rw [heq, hread]
  exact congrArg some (SortedMap.ofList_entries m)

end Json

end QmlStubs
