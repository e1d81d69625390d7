import QmlStubs.Importer.Table
import QmlStubs.Proofs.Collections
import QmlStubs.Scan

/-!
# What is loaded after the imports

A scan asks the importer for the module of one dirty file after the other. Whether the module of a
file is still loaded from that file when the scan looks at what was loaded is up to the importer.
`Importer.KeepsFiles` says what it takes: what is loaded keeps its file, and a module that was asked
for is loaded from the file it is answered with. Then **every file that was asked for is loaded under
its own name** (`Scan.exists_isLoadedFrom_of_ok`). A table is such an importer.
-/

set_option autoImplicit false

namespace QmlStubs

namespace Importer

variable {σ : Type}

/-- A name is loaded, and from that file. -/
def IsLoadedFrom (imp : Importer σ) (s : σ) (name : String) (p : Path) : Prop :=
  ∃ m, imp.loaded? s name = some m ∧ m.file = some p

/-- An importer in which a loaded module keeps its file. -/
structure KeepsFiles (imp : Importer σ) : Prop where
  /-- What is loaded keeps its file. -/
  keeps : ∀ s module name p, imp.IsLoadedFrom s name p →
    imp.IsLoadedFrom (imp.importModule module s).state name p
  /-- The module that was asked for is loaded from the file of the answer. -/
  answers : ∀ s module m p, (imp.importModule module s).outcome = .ok m → m.file = some p →
    imp.IsLoadedFrom (imp.importModule module s).state module p

end Importer

namespace Scan

variable {σ : Type} {imp : Importer σ} {nameOf : Path → Except NamingError String} {t : FileTree}
  {s : σ}

/-- What is loaded stays loaded while files are imported. -/
theorem isLoadedFrom_importFiles (hlaw : imp.KeepsFiles) {name : String} {p : Path}
    (ds : List DirtyFile) {trace : Trace} {s : σ} (h : imp.IsLoadedFrom s name p) :
    imp.IsLoadedFrom (importFiles imp nameOf t ds trace s).state name p := by
  induction ds generalizing trace s with
  | nil => exact h
  | cons d ds ih =>
    rw [importFiles]
    split
    next => exact h
    next module hname =>
      have hone := hlaw.keeps s module name p h
      dsimp only
      split
      next => exact hone
      next =>
        split
        next => exact ih hone
        next => exact hone

/-- **When all imports succeeded, the module of every file was asked for and is loaded from that
file.** -/
theorem exists_isLoadedFrom_of_ok (hlaw : imp.KeepsFiles) {ds : List DirtyFile} {trace : Trace}
    {s : σ} (h : (importFiles imp nameOf t ds trace s).outcome = .ok ()) {d : DirtyFile}
    (hd : d ∈ ds) :
    ∃ module p, nameOf d.path = .ok module ∧
      module ∈ (importFiles imp nameOf t ds trace s).requested ∧
      imp.IsLoadedFrom (importFiles imp nameOf t ds trace s).state module p ∧
      (t.canonicalOr d.path).same (t.canonicalOr p) = true := by
  induction ds generalizing trace s with
  | nil => exact absurd hd (by simp)
  | cons d' ds ih =>
    rw [importFiles] at h ⊢
    split at h
    next => exact absurd h (by simp)
    next module hname =>
      dsimp only at h ⊢
      split at h
      next => exact absurd h (by simp)
      next loaded hloaded =>
        split at h
        next horigin =>
          rw [if_pos horigin]
          rcases List.mem_cons.1 hd with rfl | hd
          · unfold isOrigin at horigin
            split at horigin
            next p hp =>
              exact ⟨module, p, hname, List.mem_cons_self .., isLoadedFrom_importFiles hlaw ds
                (hlaw.answers s module loaded p hloaded hp), horigin⟩
            next => exact absurd horigin (by simp)
          · obtain ⟨other, p, hother, hmem, hloaded, hsame⟩ := ih h hd
            exact ⟨other, p, hother, List.mem_cons_of_mem _ hmem, hloaded, hsame⟩
        next => exact absurd h (by simp)

/-- Only the modules of files are asked for. -/
theorem exists_nameOf_of_requested {ds : List DirtyFile} {trace : Trace} {s : σ} {module : String}
    (h : module ∈ (importFiles imp nameOf t ds trace s).requested) :
    ∃ d ∈ ds, nameOf d.path = .ok module := by
  induction ds generalizing trace s with
  | nil => exact absurd h (by simp [importFiles])
  | cons d ds ih =>
    rw [importFiles] at h
    split at h
    next => exact absurd h (by simp)
    next first hname =>
      have hfirst : ∀ {module : String}, module = first →
          ∃ d' ∈ d :: ds, nameOf d'.path = .ok module := fun he =>
        ⟨d, List.mem_cons_self .., he ▸ hname⟩
      dsimp only at h
      split at h
      next => exact hfirst (List.mem_singleton.1 h)
      next =>
        split at h
        next =>
          rcases List.mem_cons.1 h with he | hrest
          · exact hfirst he
          · obtain ⟨d', hd', hother⟩ := ih hrest
            exact ⟨d', List.mem_cons_of_mem _ hd', hother⟩
        next => exact hfirst (List.mem_singleton.1 h)

/-- A record is for the file that its name is loaded from. -/
theorem exists_isLoadedFrom_of_record {name : String} {ds : SortedSet String} {r : ModuleRecord}
    (h : recordOf? imp s t name ds = some r) :
    ∃ p, imp.IsLoadedFrom s name p ∧ r.path = t.canonicalOr p := by
  unfold recordOf? at h
  simp only [Option.bind_eq_bind, Option.bind_eq_some_iff, Option.pure_def,
    Option.some.injEq] at h
  obtain ⟨m, hm, p, hp, _, -, rfl⟩ := h
  exact ⟨p, ⟨m, hm, hp⟩, rfl⟩

end Scan

/-! ## A table keeps its files -/

namespace TableImporter

/-- The namespace and the imports reported so far. -/
abbrev Point := State × List ImportEvent

/-- Let a run go on from a point. -/
def runFrom {α : Type} (p : Point) (x : Run α) : Except ImportError α × Point := x.run.run p

/-- A run that keeps a property of the points, whether it fails or not. -/
def Keeps {α : Type} (P : Point → Prop) (x : Run α) : Prop := ∀ p, P p → P (runFrom p x).2

/-- A run that keeps a property of the points when it does not fail. -/
def KeepsOnSuccess {α : Type} (P : Point → Prop) (x : Run α) : Prop :=
  ∀ p, P p → ∀ a, (runFrom p x).1 = .ok a → P (runFrom p x).2

section Keeps

variable {α β : Type} {P : Point → Prop} {x : Run α} {f : α → Run β}

theorem runFrom_bind (p : Point) :
    runFrom p (x >>= f) =
      match runFrom p x with
      | (.ok a, q) => runFrom q (f a)
      | (.error e, q) => (.error e, q) := by
  unfold runFrom
  simp only [ExceptT.run, ExceptT.bind, bind, StateT.run, StateT.bind, ExceptT.mk]
  cases h : (x p : Id (Except ImportError α × Point)) with
  | mk r q => cases r <;> rfl

theorem runFrom_throw (p : Point) (e : ImportError) :
    runFrom p (throw e : Run α) = (.error e, p) := rfl

theorem runFrom_tryCatch (p : Point) (handler : ImportError → Run α) :
    runFrom p (tryCatch x handler) =
      match runFrom p x with
      | (.ok a, q) => (.ok a, q)
      | (.error e, q) => runFrom q (handler e) := by
  unfold runFrom
  simp only [tryCatch, tryCatchThe, MonadExceptOf.tryCatch, ExceptT.tryCatch, ExceptT.run, bind,
    StateT.run, StateT.bind, ExceptT.mk]
  cases h : (x p : Id (Except ImportError α × Point)) with
  | mk r q => cases r <;> rfl

theorem Keeps.onSuccess (h : Keeps P x) : KeepsOnSuccess P x := fun p hp _ _ => h p hp

theorem keeps_pure (a : α) : Keeps P (pure a) := fun _ hp => hp

theorem keeps_throw (e : ImportError) : Keeps P (throw e : Run α) := fun _ hp => hp

theorem keeps_modify {g : Point → Point} (h : ∀ p, P p → P (g p)) : Keeps P (modify g : Run Unit) :=
  h

theorem keeps_get {f : Point → Run α} (h : ∀ p, P p → P (runFrom p (f p)).2) :
    Keeps P (get >>= f) := h

theorem Keeps.bind (hx : Keeps P x) (hf : ∀ a, Keeps P (f a)) : Keeps P (x >>= f) := by
  intro p hp
  have hq := hx p hp
  rw [runFrom_bind]
  cases h : runFrom p x with
  | mk r q =>
    rw [h] at hq
    cases r with
    | ok a => exact hf a q hq
    | error e => exact hq

theorem KeepsOnSuccess.bind (hx : KeepsOnSuccess P x) (hf : ∀ a, KeepsOnSuccess P (f a)) :
    KeepsOnSuccess P (x >>= f) := by
  intro p hp b hb
  have hq := hx p hp
  rw [runFrom_bind] at hb ⊢
  cases h : runFrom p x with
  | mk r q =>
    rw [h] at hq hb
    cases r with
    | ok a => exact hf a q (hq a rfl) b hb
    | error e => exact absurd hb (by simp)

theorem Keeps.tryCatch (hx : Keeps P x) {handler : ImportError → Run α}
    (hh : ∀ e, Keeps P (handler e)) : Keeps P (tryCatch x handler) := by
  intro p hp
  have hq := hx p hp
  rw [runFrom_tryCatch]
  cases h : runFrom p x with
  | mk r q =>
    rw [h] at hq
    cases r with
    | ok a => exact hq
    | error e => exact hh e q hq

theorem keeps_forM {g : α → Run Unit} (l : List α) (h : ∀ a ∈ l, Keeps P (g a)) :
    Keeps P (l.forM g) := by
  induction l with
  | nil => exact keeps_pure ()
  | cons a l ih =>
    exact (h a (List.mem_cons_self ..)).bind fun _ =>
      ih fun b hb => h b (List.mem_cons_of_mem _ hb)

end Keeps

/-- At a point a name is loaded. -/
def HasLoaded (name : String) (p : Point) : Prop := p.1.loaded.contains name = true

/-- What a module imports, as its execution does it. -/
theorem keeps_imports {P : Point → Prop} {table : ModuleTable} {depth : Nat} {name : String}
    (hevents : ∀ s events events', P (s, events) → P (s, events'))
    (h : ∀ module, Keeps P (execute table depth module)) (l : List TableImport) :
    Keeps P (l.forM fun i => do
      modify fun (s, events) => (s, events ++ [⟨some name, i.module, i.reexports⟩])
      if i.isOptional then tryCatch (execute table depth i.module) fun _ => pure ()
      else execute table depth i.module : Run Unit) := by
  refine keeps_forM l fun i _ => (keeps_modify fun ⟨s, events⟩ hp => hevents s events _ hp).bind
    fun _ => ?_
  split
  next => exact (h i.module).tryCatch fun _ => keeps_pure ()
  next => exact h i.module

/-- What is loaded stays loaded, whatever is executed. -/
theorem keeps_execute (table : ModuleTable) (other : String) (depth : Nat) (name : String) :
    Keeps (HasLoaded other) (execute table depth name) := by
  induction depth generalizing name with
  | zero => exact keeps_pure ()
  | succ depth ih =>
    unfold execute
    refine keeps_get fun p hp => ?_
    split
    next => exact hp
    next hname =>
      split
      next => exact hp
      next m hm =>
        -- A name that is loaded already is not the one that is executed, so it is not taken out.
        have hne : other ≠ name := fun he => hname (he ▸ hp)
        refine (keeps_modify fun p hp => SortedMap.contains_insert.2 (.inr hp)).bind (fun _ =>
          (keeps_imports (fun _ _ _ hp => hp) ih m.imports).bind fun _ => ?_) p hp
        split
        next =>
          exact (keeps_modify fun p hp => SortedMap.contains_erase.2 ⟨hne, hp⟩).bind fun _ =>
            keeps_throw _
        next => exact keeps_modify fun p hp => hp

/-- A module that was executed without failing is loaded. -/
theorem hasLoaded_of_execute {table : ModuleTable} {depth : Nat} {name : String} {p : Point}
    {u : Unit} (h : (runFrom p (execute table (depth + 1) name)).1 = .ok u) :
    HasLoaded name (runFrom p (execute table (depth + 1) name)).2 := by
  unfold execute at h ⊢
  have hget : ∀ f : Point → Run Unit, runFrom p (get >>= f) = runFrom p (f p) := fun _ => rfl
  rw [hget] at h ⊢
  split at h
  next hname =>
    rw [if_pos hname]
    exact hname
  next hname =>
    rw [if_neg hname]
    split at h
    next => exact absurd h (by rw [runFrom_throw]; simp)
    next m hm =>
      refine (((keeps_imports (fun _ _ _ hp => hp) (keeps_execute table name depth)
        m.imports).onSuccess).bind fun _ => ?_) _ (SortedMap.contains_insert.2 (.inl rfl)) u h
      split
      next message _ =>
        exact fun p _ a hthrow => absurd
          (show (.error (.failed name message) : Except ImportError Unit) = .ok a from hthrow)
          (by simp)
      next => exact (keeps_modify fun p hp => hp).onSuccess

theorem isLoadedFrom_iff {table : ModuleTable} {s : State} {name : String} {p : Path} :
    (ofTable table).IsLoadedFrom s name p ↔
      s.loaded.contains name = true ∧ fileOf? table name = some p := by
  unfold Importer.IsLoadedFrom ofTable
  dsimp only
  constructor
  · rintro ⟨m, hm, hp⟩
    split at hm
    next h => exact ⟨h, by rw [← hp, ← Option.some.inj hm]⟩
    next => exact absurd hm (by simp)
  · rintro ⟨h, hp⟩
    exact ⟨⟨name, fileOf? table name⟩, if_pos h, hp⟩

/-- **A table keeps the files of what is loaded.** -/
theorem keepsFiles (table : ModuleTable) : (ofTable table).KeepsFiles where
  keeps s module name p hp := by
    rw [isLoadedFrom_iff] at hp ⊢
    exact ⟨keeps_execute table name (table.size + 1) module (s, []) hp.1, hp.2⟩
  answers s module m p hm hp := by
    rw [isLoadedFrom_iff]
    have hrun : ((ofTable table).importModule module s).outcome =
        (runFrom (s, []) (execute table (table.size + 1) module)).1.map
          fun _ => ⟨module, fileOf? table module⟩ := rfl
    rw [hrun] at hm
    cases hr : (runFrom (s, []) (execute table (table.size + 1) module)).1 with
    | error e =>
      rw [hr] at hm
      exact absurd hm (by simp [Except.map])
    | ok u =>
      rw [hr] at hm
      rw [← Except.ok.inj hm] at hp
      exact ⟨hasLoaded_of_execute hr, hp⟩

end TableImporter

end QmlStubs
