import QmlStubs.Proofs.JsonFields
import QmlStubs.Snapshot.Store

/-!
# Stored snapshots read back

A snapshot is stored with the current version, whatever version it carries, and only the times of
its records can keep it from being read: a time that is not finite has no numeral. Every other part
of a record, and every module name, comes back as it was:

> `Snapshot.ofText s.text = .ok (.ofModules s.modules)` (`ofText_text`).
-/

set_option autoImplicit false

namespace QmlStubs

/-- The recorded times are finite. -/
def Modules.HasFiniteTimes (modules : Modules) : Prop :=
  ∀ name r, modules.find? name = some (some r) → r.modified.isFinite = true

/-- Only the entries have to be looked at. -/
instance (modules : Modules) : Decidable modules.HasFiniteTimes :=
  decidable_of_iff (∀ e ∈ modules.entries, e.2.all (·.modified.isFinite) = true) <| by
    constructor
    · intro h name r hfind
      have hr := h _ (SortedMap.mem_entries.2 hfind)
      rwa [Option.all_some] at hr
    · rintro h ⟨name, entry⟩ he
      rw [SortedMap.mem_entries] at he
      cases entry with
      | none => rfl
      | some r => exact h name r he

namespace ModuleRecord

/-- **A record of a finite time is read back.** -/
theorem ofJson?_reread {r : ModuleRecord} (h : r.modified.isFinite = true) :
    ofJson? r.toJson.reread = some r := by
  have hnodup : (([("modification_time", (Json.binary64 r.modified).reread),
      ("path", (Json.text r.path.text).reread),
      ("dependencies", (Json.texts r.dependencies.toList).reread)] :
        List (String × Json)).map (·.1)).Nodup := by
    simp
  have hfields := Json.fields?_record hnodup
  have htime : (Json.binary64 r.modified).reread.binary64? = some r.modified := by
    unfold Json.binary64
    rw [if_pos h]
    exact Numeral.toBinary64?_reread h
  have hpath : (Json.text r.path.text).reread.string? = some r.path.text := rfl
  unfold toJson ofJson?
  rw [Json.reread_record]
  simp only [List.map_cons, List.map_nil] at hfields ⊢
  rw [hfields]
  simp [Json.required, Json.withDefault, htime, hpath, Json.reread_texts, Json.list?_string?,
    SortedSet.ofList_toList]

end ModuleRecord

namespace Snapshot

theorem nullable?_entry {e : ModuleEntry} (h : ∀ r, e = some r → r.modified.isFinite = true) :
    (ModuleEntry.toJson e).reread.nullable? ModuleRecord.ofJson? = some e := by
  cases e with
  | none => rfl
  | some r =>
    have hread := ModuleRecord.ofJson?_reread (h r rfl)
    have hnull : ∀ members, (Json.record members).nullable? ModuleRecord.ofJson? =
        (ModuleRecord.ofJson? (Json.record members)).map some := fun _ => rfl
    unfold ModuleEntry.toJson
    unfold ModuleRecord.toJson at hread ⊢
    rw [Json.reread_record] at hread ⊢
    rw [hnull, hread]
    rfl

theorem ofJson?_reread {s : Snapshot} (h : s.modules.HasFiniteTimes) :
    ofJson? s.toJson.reread = some (.ofModules s.modules) := by
  have hmodules : (Json.record (s.modules.entries.map fun e =>
      (e.1, ModuleEntry.toJson e.2))).reread.map? (Json.nullable? ModuleRecord.ofJson?) =
        some s.modules := by
    refine Json.map?_record fun name e he => nullable?_entry ?_
    rintro r rfl
    exact h name r he
  have hversion : (Json.text currentVersion).reread.string? = some currentVersion := rfl
  have hnodup : (([("modules", (Json.record (s.modules.entries.map fun e =>
      (e.1, ModuleEntry.toJson e.2))).reread),
      ("generating_version", (Json.text currentVersion).reread)] :
        List (String × Json)).map (·.1)).Nodup := by
    simp
  have hfields := Json.fields?_record hnodup
  unfold toJson ofJson?
  rw [Json.reread_record]
  simp only [List.map_cons, List.map_nil] at hfields ⊢
  rw [hfields]
  simp [Json.required, Json.withDefault, hmodules, hversion, ofModules]

/-- **A stored snapshot of finite times is read back.** -/
theorem ofText_text {s : Snapshot} (h : s.modules.HasFiniteTimes) :
    ofText s.text = .ok (.ofModules s.modules) := by
  unfold ofText text
  rw [Json.parse?_indented, Option.bind_some, ofJson?_reread h]
  rfl

end Snapshot

end QmlStubs
