import QmlStubs.Proofs.JsonFields
import QmlStubs.Proofs.Saving
import QmlStubs.TypesFile.Format

/-!
# Types files read back

Every field of an entry is written, except for the accessors that a property does not have, so
nothing of what a refresh has put into a types file is lost before the next one:

> `TypesFile.ofBytes? (TypesFile.text entries).toUTF8 = some entries` (`ofBytes?_text`).

A file in another spelling, which leaves out what has a default, is read as the same entries as the
one that is written for them, so **storing what was read changes nothing that is read later**
(`entries_unchanged_by_storing`).
-/

set_option autoImplicit false

namespace QmlStubs

namespace Json

/-! ## Fields that may be missing -/

/-- Each field of a record is what stands under its name. -/
theorem field?_record {members : List (String × Json)} (h : (members.map (·.1)).Nodup)
    (name : String) :
    field? (members.map fun m => (some m.1, m.2)) name = some (members.lookup name) := by
  unfold field?
  cases hlookup : members.lookup name with
  | none =>
    have hno : name ∉ members.map (·.1) := by
      intro hmem
      obtain ⟨m, hm, rfl⟩ := List.mem_map.1 hmem
      exact absurd (List.lookup_eq_none_iff.1 hlookup m hm) (by simp)
    rw [valuesOf_eq_nil hno]
  | some v =>
    obtain ⟨l₁, l₂, rfl, -⟩ := List.lookup_eq_some_iff.1 hlookup
    have hmem : (name, v) ∈ l₁ ++ (name, v) :: l₂ :=
      List.mem_append_right _ (List.mem_cons_self ..)
    rw [valuesOf_eq_singleton h hmem]

/-- The named fields of a record, whether they are there or not. -/
theorem fields?_lookup {members : List (String × Json)} (h : (members.map (·.1)).Nodup)
    (names : List String) :
    (record members).fields? names = some (names.map fun name => members.lookup name) := by
  have hall : (members.map fun m => (some m.1, m.2)).all (fun m => m.1.isSome) = true := by simp
  unfold record fields?
  dsimp only
  rw [if_pos hall]
  have hread := mapM_eq_some (l := names) (f := field? (members.map fun m => (some m.1, m.2)))
    (g := id) (h := fun name => members.lookup name) fun name _ => field?_record h name
  rwa [List.map_id] at hread

/-! ## Numbers of 32 bits -/

theorem intBetween?_reread_ofInt {low high i : Int} (hlow : low ≤ i) (hhigh : i ≤ high) :
    (number (.ofInt i)).reread.intBetween? low high = some i := by
  have hint : (Numeral.ofInt i).reread.toInt? = some i := by
    have hsame : (Numeral.ofInt i).reread = ⟨decide (i < 0), i.natAbs, 0, true⟩ := rfl
    unfold Numeral.toInt?
    rw [hsame]
    dsimp only
    have habs : (if decide (i < 0) = true then -(i.natAbs : Int) else (i.natAbs : Int)) = i := by
      split
      next h =>
        have := of_decide_eq_true h
        omega
      next h =>
        have : ¬ i < 0 := fun hi => h (decide_eq_true hi)
        omega
    rw [habs, if_pos]
    by_cases hneg : i < 0
    · have hne : i.natAbs ≠ 0 := by omega
      simp [hne]
    · simp [hneg]
  unfold reread intBetween?
  dsimp only
  rw [hint]
  simp [Option.filter, hlow, hhigh]

theorem uint32?_reread_nat (n : UInt32) : (nat n.toNat).reread.uint32? = some n := by
  have hlt := n.toNat_lt
  have hint : (number (.ofInt n.toNat)).reread.intBetween? 0 4294967295 = some (n.toNat : Int) :=
    intBetween?_reread_ofInt (by omega) (by omega)
  have hnum : (Numeral.ofInt n.toNat) = .ofNat n.toNat := by
    unfold Numeral.ofInt Numeral.ofNat
    simp
  unfold nat uint32?
  rw [← hnum, hint]
  simp

theorem int32?_reread (n : Int32) : (number (.ofInt n.toInt)).reread.int32? = some n := by
  have hlow := n.le_toInt
  have hhigh := n.toInt_lt
  unfold int32?
  rw [intBetween?_reread_ofInt (by omega) (by omega)]
  simp

theorem reread_bool (b : Bool) : (bool b).reread = bool b := rfl

theorem string?_text (s : String) : (text s).string? = some s := rfl

theorem nullable?_text {α : Type} (read : Json → Option α) (s : String) :
    (text s).nullable? read = (read (text s)).map some := rfl

theorem bool?_bool (b : Bool) : (bool b).bool? = some b := rfl

/-- A list of written values under a reader that may find nothing. -/
theorem listOrEmpty_map {α : Type} {read : Json → Option α} {write : α → Json} (l : List α)
    (h : ∀ a, read (write a).reread = some a) :
    listOrEmpty read (some (array (l.map write)).reread) = some l :=
  list?_map fun a _ => h a

end Json

open Json

/-! ## The parts of an entry -/

/-- **A property is read back with the accessors it has.** -/
theorem Property.ofJson?_reread (p : Property) : ofJson? p.toJson.reread = some p := by
  obtain ⟨name, typeName, index, notify, read, write⟩ := p
  have hindex := int32?_reread index
  unfold Property.toJson Property.ofJson?
  rw [reread_record]
  cases notify <;> cases read <;> cases write <;>
    simp [optionalMember, fields?_lookup, List.lookup_cons, required, Json.optional,
      withDefault, nullable?_text, reread_text, string?_text, hindex]

theorem Argument.ofJson?_reread (a : Argument) : ofJson? a.toJson.reread = some a := by
  unfold Argument.toJson Argument.ofJson?
  rw [reread_record]
  simp [fields?_lookup, List.lookup_cons, required, reread_text, string?_text]

theorem Method.ofJson?_reread (m : Method) : ofJson? m.toJson.reread = some m := by
  have harguments := listOrEmpty_map m.arguments Argument.ofJson?_reread
  unfold Method.toJson Method.ofJson?
  rw [reread_record]
  simp [fields?_lookup, List.lookup_cons, required, withDefault, reread_text, string?_text,
    harguments]

theorem Enumeration.ofJson?_reread (e : Enumeration) : ofJson? e.toJson.reread = some e := by
  unfold Enumeration.toJson Enumeration.ofJson?
  rw [reread_record]
  simp [fields?_lookup, List.lookup_cons, required, reread_text, string?_text, reread_bool,
    bool?_bool, reread_texts, list?_string?]

theorem ClassInfo.ofJson?_reread (c : ClassInfo) : ofJson? c.toJson.reread = some c := by
  unfold ClassInfo.toJson ClassInfo.ofJson?
  rw [reread_record]
  simp [fields?_lookup, List.lookup_cons, required, reread_text, string?_text]

theorem SuperClass.ofJson?_reread (c : SuperClass) : ofJson? c.toJson.reread = some c := by
  unfold SuperClass.toJson SuperClass.ofJson?
  rw [reread_record]
  simp [fields?_lookup, List.lookup_cons, required, withDefault, reread_text, string?_text]

theorem ClassLayout.ofJson?_reread (c : ClassLayout) : ofJson? c.toJson.reread = some c := by
  have hsupers := listOrEmpty_map c.superClasses SuperClass.ofJson?_reread
  have hinfos := listOrEmpty_map c.classInfos ClassInfo.ofJson?_reread
  have henums := listOrEmpty_map c.enums Enumeration.ofJson?_reread
  have hproperties := listOrEmpty_map c.properties Property.ofJson?_reread
  have hsignals := listOrEmpty_map c.signals Method.ofJson?_reread
  have hslots := listOrEmpty_map c.slots Method.ofJson?_reread
  unfold ClassLayout.toJson ClassLayout.ofJson?
  rw [reread_record]
  simp [fields?_lookup, List.lookup_cons, required, reread_text, string?_text, reread_bool,
    bool?_bool, hsupers, hinfos, henums, hproperties, hsignals, hslots]

/-- **An entry is read back.** -/
theorem TypesEntry.ofJson?_reread (e : TypesEntry) : ofJson? e.toJson.reread = some e := by
  have hclasses : (array (e.classes.map ClassLayout.toJson)).reread.list? ClassLayout.ofJson? =
      some e.classes := list?_map fun c _ => c.ofJson?_reread
  unfold TypesEntry.toJson TypesEntry.ofJson?
  rw [reread_record]
  simp [fields?_lookup, List.lookup_cons, required, withDefault, listOrEmpty, reread_text,
    string?_text, uint32?_reread_nat, reread_texts, list?_string?, hclasses]

/-! ## The file -/

/-- A text is read from its bytes. -/
theorem Json.parseBytes?_toUTF8 (s : String) : Json.parseBytes? s.toUTF8 = Json.parse? s := by
  have hsymbols : Text.symbols s.toUTF8 = Text.ofString s := by
    unfold Text.symbols
    rw [Text.fromUTF8?_toUTF8]
  unfold Json.parseBytes? Json.parse?
  rw [hsymbols]

namespace TypesFile

/-- **A types file is read back.** -/
theorem ofBytes?_text (entries : List TypesEntry) :
    ofBytes? (text entries).toUTF8 = some entries := by
  unfold ofBytes?
  rw [Json.parseBytes?_toUTF8, text, Json.parse?_indented, Option.bind_some]
  exact list?_map fun e _ => e.ofJson?_reread

theorem read_eq_ok {t : FileTree} {p : Path} {entries : List TypesEntry} :
    read t p = .ok entries ↔
      ∃ content, t.read? p = .ok content ∧ ofBytes? content = some entries := by
  unfold read
  cases t.read? p with
  | error e => simp
  | ok content => cases h : ofBytes? content <;> simp [h]

/-- What a list of entries leaves in its file depends on nothing else. -/
theorem read?_of_run_write {t u : FileTree} {p : Path} {entries : List TypesEntry}
    (h : t.run (write p entries) = (.ok (), u)) : u.read? p = .ok (text entries).toUTF8 :=
  FileTree.read?_of_run_write h

theorem read_of_run_write {t u : FileTree} {p : Path} {entries : List TypesEntry}
    (h : t.run (write p entries) = (.ok (), u)) : read u p = .ok entries :=
  read_eq_ok.2 ⟨_, read?_of_run_write h, ofBytes?_text entries⟩

/-- **Entries are not changed by being stored.** Whatever list of entries is written, wherever, is
the list that is read there afterwards.

So it is with every file that can be read, in whatever spelling: with defaults left out, with
unknown fields, with records as lists. Writing what was read cannot be refused for lack of a place,
it gives a file that reads back as the same list, and writing this again leaves the file's bytes as
they are. -/
theorem entries_unchanged_by_storing :
    (∀ (t u : FileTree) (p : Path) (entries : List TypesEntry),
      t.run (write p entries) = (.ok (), u) → read u p = .ok entries) ∧
    ∀ (t : FileTree) (p : Path) (entries : List TypesEntry), read t p = .ok entries →
      ∃ u v, t.run (write p entries) = (.ok (), u) ∧ read u p = .ok entries ∧
        u.run (write p entries) = (.ok (), v) ∧ v.read? p = u.read? p := by
  refine ⟨fun t u p entries h => read_of_run_write h, ?_⟩
  intro t p entries hread
  obtain ⟨content, hcontent, -⟩ := read_eq_ok.1 hread
  obtain ⟨u, hu⟩ := FileTree.exists_run_write_of_read? hcontent (text entries).toUTF8
  have hbytes := read?_of_run_write hu
  obtain ⟨v, hv⟩ := FileTree.exists_run_write_of_read? hbytes (text entries).toUTF8
  exact ⟨u, v, hu, read_of_run_write hu, hv, (read?_of_run_write hv).trans hbytes.symm⟩

/-- An entry in the shortest spelling that is understood: defaults are left out, the base class is a
list of its fields, and a field that nobody knows is there. -/
def tersePart : String :=
  "[\x7b\"classes\": [\x7b\"className\": \"A\\u00e9\\n\", " ++
    "\"qualifiedClassName\": \"\", \"object\": true," ++
    "\"superClasses\": [[\"private\", \"B\"]], " ++
    "\"lineNumber\": 1e2, \"properties\": [" ++
    "\x7b\"name\": \"p\", \"type\": \"int\", \"index\": " ++
    "-2147483648, \"notify\": null, \"read\": \"r\"\x7d]\x7d]," ++
    "\"QML_IMPORT_MAJOR_VERSION\": 4294967295, " ++
    "\"QML_IMPORT_MINOR_VERSION\": 0, \"inputFile\": \"a.py\"\x7d]"

/-- What the terse spelling says. -/
def terseEntries : List TypesEntry :=
  [⟨[⟨"Aé\n", "", true, [⟨"private", "B"⟩], [], [], [⟨"p", "int", -2147483648, none, some "r", none⟩],
    [], []⟩], 68, 4294967295, 0, [], [], "a.py"⟩]

/-- A types file that is reached through a link. -/
def terseTree : FileTree where
  entries := .ofList [(["kept.json"], .file tersePart.toUTF8 ⟨100, 0⟩ false),
    (["types1-0.json"], .link ⟨"kept.json"⟩)]
  current := []
  clock := ⟨200, 0⟩

theorem ofBytes?_tersePart : ofBytes? tersePart.toUTF8 = some terseEntries := by
  unfold ofBytes?
  rw [Json.parseBytes?_toUTF8]
  unfold Json.parse? Text.ofString tersePart
  -- The characters of a long text are costly to compute, those of its lines are not.
  iterate 7 rw [String.toList_append]
  decide +kernel

/-- The terse file is read, and what it says stays when it is written in full. -/
theorem terse_entries_unchanged :
    read terseTree ⟨"/types1-0.json"⟩ = .ok terseEntries ∧
    ∃ u v, terseTree.run (write ⟨"/types1-0.json"⟩ terseEntries) = (.ok (), u) ∧
      read u ⟨"/types1-0.json"⟩ = .ok terseEntries ∧
      u.run (write ⟨"/types1-0.json"⟩ terseEntries) = (.ok (), v) ∧
      v.read? ⟨"/types1-0.json"⟩ = u.read? ⟨"/types1-0.json"⟩ ∧
      read v ⟨"/types1-0.json"⟩ = .ok terseEntries := by
  have hread : read terseTree ⟨"/types1-0.json"⟩ = .ok terseEntries :=
    read_eq_ok.2 ⟨tersePart.toUTF8, rfl, ofBytes?_tersePart⟩
  obtain ⟨hwritten, hstored⟩ := entries_unchanged_by_storing
  obtain ⟨u, v, hu, hback, hv, hsame⟩ := hstored _ _ _ hread
  exact ⟨hread, u, v, hu, hback, hv, hsame, hwritten _ _ _ _ hv⟩

end TypesFile

end QmlStubs
