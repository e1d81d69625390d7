import QmlStubs.Proofs.Dirtiness

/-!
# What survives an assessment

`Assessment.unreached` takes each name that it reaches out of the modules, so that it is visited
once. That the edges disappear along with the names does not matter: a path to a name can be cut at
its last visit of the one that is taken out (`leads_erase`). So what is left are exactly the modules
that no queued name leads to (`contains_unreached`), and the surviving entries are the clean ones
that a current file leads to (`find?_surviving`), which makes them closed under dependencies.
-/

set_option autoImplicit false

namespace QmlStubs

namespace Assessment

open Modules

variable {modules : Modules} {stat : Path → Option Binary64}

/-! ## Reaching -/

/-- A path to another name avoids the erased one or can be cut after its last visit there. -/
theorem leads_erase {name a b : String} (hb : b ≠ name) (h : Leads modules a b) :
    Leads (modules.erase name) a b ∨
      ∃ d, Needs modules name d ∧ Leads (modules.erase name) d b := by
  induction h using Relation.ReflTransGen.head_induction_on with
  | refl => exact .inl .refl
  | @head a c hac _ ih =>
    rcases ih with ih | ih
    · by_cases ha : a = name
      · subst ha
        exact .inr ⟨c, hac, ih⟩
      · exact .inl (.head (needs_erase.2 ⟨ha, hac⟩) ih)
    · exact .inr ih

theorem leads_of_erase {name a b : String} (h : Leads (modules.erase name) a b) :
    Leads modules a b :=
  Relation.ReflTransGen.mono (r := Needs (modules.erase name))
    (fun _ _ hd => (needs_erase.1 hd).2) a b h

theorem mem_dependenciesOf {name d : String} :
    d ∈ dependenciesOf (modules.find? name).join ↔ Needs modules name d := by
  unfold Needs
  cases h : modules.find? name with
  | none => simp [dependenciesOf]
  | some e => cases e <;> simp [dependenciesOf]

/-- A name that is not a module leads nowhere else. -/
theorem eq_of_leads_of_not_contains {a b : String} (ha : ¬ modules.contains a = true)
    (h : Leads modules a b) : b = a := by
  cases h using Relation.ReflTransGen.head_induction_on with
  | refl => rfl
  | head hac _ =>
    obtain ⟨r, hr, -⟩ := hac
    exact absurd (SortedMap.contains_of_find? hr) ha

/-- **What is left are the modules that no queued name leads to.** -/
theorem contains_unreached {queue : List String} {b : String} :
    (unreached modules queue).contains b = true ↔
      modules.contains b = true ∧ ∀ q ∈ queue, ¬ Leads modules q b := by
  induction modules, queue using unreached.induct with
  | case1 modules =>
    unfold unreached
    simp
  | case2 modules name rest h ih =>
    unfold unreached
    rw [dif_pos h, ih, SortedMap.contains_erase]
    constructor
    · rintro ⟨⟨hne, hb⟩, hall⟩
      refine ⟨hb, fun q hq hl => ?_⟩
      rcases leads_erase hne hl with hl' | ⟨d, hd, hl'⟩
      · rcases List.mem_cons.1 hq with rfl | hq
        · -- Taken out, the name has no dependencies left, so it leads to itself alone.
          have hne' : ¬ (modules.erase q).contains q = true := fun hc =>
            (SortedMap.contains_erase.1 hc).1 rfl
          exact hne (eq_of_leads_of_not_contains hne' hl')
        · exact hall q (List.mem_append_left _ hq) hl'
      · exact hall d (List.mem_append_right _ (mem_dependenciesOf.2 hd)) hl'
    · rintro ⟨hb, hall⟩
      refine ⟨⟨?_, hb⟩, fun q hq hl => ?_⟩
      · rintro rfl
        exact hall b (List.mem_cons_self ..) .refl
      · rcases List.mem_append.1 hq with hq | hq
        · exact hall q (List.mem_cons_of_mem _ hq) (leads_of_erase hl)
        · exact hall name (List.mem_cons_self ..)
            (.head (mem_dependenciesOf.1 hq) (leads_of_erase hl))
  | case3 modules name rest h ih =>
    unfold unreached
    rw [dif_neg h, ih]
    constructor
    · rintro ⟨hb, hall⟩
      refine ⟨hb, fun q hq hl => ?_⟩
      rcases List.mem_cons.1 hq with rfl | hq
      · exact h (eq_of_leads_of_not_contains h hl ▸ hb)
      · exact hall q hq hl
    · rintro ⟨hb, hall⟩
      exact ⟨hb, fun q hq => hall q (List.mem_cons_of_mem _ hq)⟩

/-! ## The assessment, field by field -/

variable {snapshot : Snapshot} {files : List Path}

theorem states_ofFiles :
    (ofFiles snapshot stat files).states = finalStates snapshot.modules stat := rfl

/-- The name that a current file is known by. -/
abbrev nameOfFile (modules : Modules) (f : Path) : Option String :=
  (moduleOfFile modules).find? f.components

/-- A module that a current file leads to. -/
def IsReached (modules : Modules) (files : List Path) (name : String) : Prop :=
  ∃ f ∈ files, ∃ q, nameOfFile modules f = some q ∧ Leads modules q name

/-- **The surviving entries are the clean ones that a current file leads to.** -/
theorem find?_surviving {name : String} {e : ModuleEntry} :
    (ofFiles snapshot stat files).surviving.find? name = some e ↔
      snapshot.modules.find? name = some e ∧
      (finalStates snapshot.modules stat).find? name = some .clean ∧
      IsReached snapshot.modules files name := by
  have hsurv : (ofFiles snapshot stat files).surviving =
      snapshot.modules.filter fun name _ => isCleanAt (finalStates snapshot.modules stat) name &&
        !(unreached snapshot.modules (files.filterMap (nameOfFile snapshot.modules))).contains
          name := rfl
  rw [hsurv, SortedMap.find?_filter, Option.filter_eq_some_iff, Bool.and_eq_true, isCleanAt_iff,
    Bool.not_eq_true', ← Bool.not_eq_true, contains_unreached]
  refine and_congr_right fun he => and_congr_right fun _ => ?_
  unfold IsReached
  have hc := SortedMap.contains_of_find? he
  simp only [hc, true_and, not_forall, not_not, List.mem_filterMap]
  constructor
  · rintro ⟨q, ⟨f, hf, hq⟩, hl⟩
    exact ⟨f, hf, q, hq, hl⟩
  · rintro ⟨f, hf, q, hq, hl⟩
    exact ⟨q, ⟨f, hf, hq⟩, hl⟩

/-- **What survives is closed under dependencies.** -/
theorem closed_surviving : Closed (ofFiles snapshot stat files).surviving := by
  rintro a b ⟨r, hr, hb⟩
  obtain ⟨ha, hclean, f, hf, q, hq, hl⟩ := find?_surviving.1 hr
  have hd : Needs snapshot.modules a b := ⟨r, ha, hb⟩
  have hbc := finalStates_clean_of_needs hclean hd
  obtain ⟨e, he, -⟩ := ownState_of_finalStates_clean hbc
  exact SortedMap.contains_of_find? (find?_surviving.2 ⟨he, hbc, f, hf, q, hq, hl.tail hd⟩)

/-- A surviving entry is a record, and its file has the time that was recorded. -/
theorem fresh_surviving {name : String} {e : ModuleEntry}
    (h : (ofFiles snapshot stat files).surviving.find? name = some e) :
    ∃ r, e = some r ∧ r.isStale (stat r.path) = false := by
  obtain ⟨he, hclean, -⟩ := find?_surviving.1 h
  obtain ⟨e', he', ho⟩ := ownState_of_finalStates_clean hclean
  rw [he, Option.some.injEq] at he'
  subst he'
  cases e with
  | none => exact absurd ho (by simp [ownState])
  | some r =>
    refine ⟨r, rfl, ?_⟩
    cases hs : r.isStale (stat r.path) with
    | false => rfl
    | true => exact absurd ho (by simp [ownState, hs])

end Assessment

end QmlStubs
