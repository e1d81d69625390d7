import QmlStubs.Proofs.Changes
import QmlStubs.Proofs.Globbing
import QmlStubs.Proofs.Scanning

/-!
# What a scan changes

A scan writes one file, its snapshot, with a draft beside it that is gone in the end. In a site,
where no links are in the way, **that is all that a scan changes** (`Scan.kept_of_keep`).
-/

set_option autoImplicit false

namespace QmlStubs

open FileTree

namespace Scan

variable {t u : FileTree} {s : Snapshot} {outDir : Path} {d : Place}

/-- A place that a scan writes to. -/
def IsStore (d q : Place) : Prop := q = d ++ [storeName] ∨ q = d ++ [draftName]

/-- What keeping a snapshot in a site comes to. -/
structure Kept (s : Snapshot) (outDir : Path) (d : Place) (t u : FileTree) : Prop where
  change : Change outDir d (IsStore d) t u
  saved : Saved s t u d
  storable : Storable t outDir d

/-- No name in a site is a link. -/
theorem isLink_eq_false (h : Ground t outDir d) {n : String} (hn : IsName n) (hfits : Fits outDir n) :
    t.isLink (outDir.join n) = false := by
  unfold isLink
  rw [followParent?_join hn hfits h.reaches]
  split
  next q hq =>
    split at hq
    next =>
      have hq : d ++ [n] = q := by simpa using hq
      subst hq
      split
      next target he => exact absurd rfl (h.plain [n] _ (by simp) he target)
      next => rfl
    next => exact absurd hq (by simp)
  next => rfl

/-- A save in a site leaves a site. -/
theorem ground_of_saved (h : Ground t outDir d) (hstorable : Storable t outDir d)
    (hs : Saved s t u d) : Ground u outDir d := by
  have hafter := hstorable.of_saved hs
  obtain ⟨x, hx⟩ := hs.stored
  have hcases : ∀ q e, u.at? q = some e →
      q = d ++ [storeName] ∧ e = .file s.text.toUTF8 t.clock x ∨ t.at? q = some e := by
    intro q e he
    by_cases hstore : q = d ++ [storeName]
    · rw [hstore, hx] at he
      exact .inl ⟨hstore, (Option.some.inj he).symm⟩
    · by_cases hdraft : q = d ++ [draftName]
      · rw [hdraft, hs.drafted] at he
        exact absurd he (by simp)
      · rw [hs.same q hstore hdraft] at he
        exact .inr he
  refine ⟨hafter.isTree, h.direct, hafter.reaches, fun ns e hne he => ?_, fun q n e he => ?_⟩
  · rcases hcases _ e he with ⟨-, rfl⟩ | hold
    · exact nofun
    · exact h.plain ns e hne hold
  · rcases hcases _ e he with ⟨hq, -⟩ | hold
    · obtain rfl : n = storeName := by simpa using (List.append_inj' hq rfl).2
      exact ⟨isName_storeName, (fits_storeName hstorable.fits).short⟩
    · exact h.named q n e hold

/-- **Keeping a snapshot in a site changes the file of the snapshot alone.** -/
theorem kept_of_keep (h : Ground t outDir d) (hkeep : keep s outDir t = (.ok (), u)) :
    Kept s outDir d t u := by
  have htext : textError? outDir = none :=
    textError?_of_keep (h.direct.ne_empty) hkeep
  have hmade : madeFor outDir t = t := by
    unfold madeFor
    rw [makeDirectories_of_isDirectory (isDirectory_iff.2 ⟨htext, d, h.reaches⟩)]
  obtain ⟨steps⟩ := nonempty_steps hkeep
  obtain ⟨hfits, -⟩ := of_run_write_join isName_draftName steps.openDraft
  obtain ⟨d', hstorable, hsaved⟩ := storable_of_keep h.isTree hkeep
    (by rw [hmade]; exact isLink_eq_false h isName_draftName hfits)
    (by rw [hmade]; exact isLink_eq_false h isName_storeName (fits_storeName hfits))
  rw [hmade] at hstorable hsaved
  obtain rfl := hstorable.reaches.unique h.reaches
  refine ⟨⟨ground_of_saved h hstorable hsaved, ⟨fun q hq => ?_, hsaved.current, hsaved.clock⟩,
    fun q hq => .inl ?_, fun q hq => .inl ?_, fun q time hq => ?_⟩, hsaved, hstorable⟩
  · exact hsaved.same q (hq _ (by simp)) (hq _ (by simp))
  · exact hsaved.same q (fun he => hq (.inl he)) fun he => hq (.inr he)
  · obtain ⟨time, htime⟩ := isDirectoryAt_iff.1 hq
    by_cases hstore : IsStore d' q
    · obtain ⟨x, hx⟩ := hsaved.stored
      rcases hstore with rfl | rfl
      · rw [hx] at htime
        exact absurd htime (by simp)
      · rw [hsaved.drafted] at htime
        exact absurd htime (by simp)
    · rw [hsaved.same q (fun he => hstore (.inl he)) fun he => hstore (.inr he)] at htime
      exact isDirectoryAt_iff.2 ⟨time, htime⟩
  · have hdir := isDirectoryAt_iff.2 ⟨time, hq⟩
    rw [hsaved.same q, hq]
    · rintro rfl
      rw [hstorable.store.not_directory] at hdir
      exact absurd hdir (by simp)
    · rintro rfl
      rw [hstorable.draft.not_directory] at hdir
      exact absurd hdir (by simp)

end Scan

end QmlStubs
