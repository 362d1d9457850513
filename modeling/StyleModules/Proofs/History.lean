import StyleModules.Proofs.Calls

/-!
# The compilations of a session

A session compiles files because it is told of events, also because other files are evicted and
have to be compiled again.  The compilations of all events so far, in the order they came to their
end, are the history of the session.  Nothing is asked of the user's transforms here, except that
they leave the ledger alone: they can fail, and what they do can depend on what they wrote down
before.
-/

namespace StyleModules

open Relation ModuleStore

namespace Compiler

variable {c : Compiler} {fs : FileSystem} {known : List Path} {p q : Path} {d : Draft}

/-- What is asked of every disk that files are compiled on, whatever transforms do: the root
directory is no file, an existing file that is composed from is found by the resolver, no file
composes from itself, not even through others, and all files are known. -/
structure Permits (c : Compiler) (known : List Path) (fs : FileSystem) : Prop where
  root : fs.isFile ⟨"/"⟩ = false
  resolves : ∀ p d, p.IsPlace → c.Drafts fs p d → ∀ r ∈ references d.composes,
    fs.isFile (c.target p r) = true → (c.resolver.absolute r p (.stylesheet false)).isSome = true
  acyclic : ∀ p : Path, p.IsPlace → ¬ TransGen (c.MayCompose fs) p p
  known : ∀ p : Path, p.IsPlace → fs.isFile p = true → p ∈ known

theorem Drafts.isFile (h : c.Drafts fs p d) : fs.isFile p = true := by
  obtain ⟨journal, h⟩ := h
  unfold prepare at h
  split at h
  next => simp at h
  next messages sheet hload => exact isFile_of_mem_sources (mem_sources_of_load hload)

theorem Permits.hands (hresolver : c.resolver.IsNamespaced) (h : c.Permits known fs) :
    c.Hands fs Path.IsPlace := by
  rintro p q hp ⟨d, hd, r, hr, rfl⟩ hexists
  obtain ⟨t, ht⟩ := Option.isSome_iff_exists.1 (h.resolves p d hp hd r hr hexists)
  rw [target, ht]
  exact hresolver.isPlace hp ht

theorem Admits.permits (hc : c.pipeline.IsDetermined) (h : c.Admits known fs) :
    c.Permits known fs where
  root := h.root
  resolves p _ hp hd := h.resolves p _ hp (hd.blueprint_eq hc)
  acyclic p hp hcycle :=
    h.acyclic p hp (TransGen.mono (fun _ _ hxy ↦ MayCompose.composesFrom hc hxy) _ _ hcycle)
  known := h.known

/-- A compiler as sessions make it: the root is absolute, references are resolved by namespace, and
the ledger holds the imports and nothing else. -/
structure KeepsRecords (c : Compiler) : Prop where
  root : c.root.isAbsolute = true
  resolver : c.resolver.IsNamespaced
  pipeline : c.pipeline.RecordsImports
  done : ∀ t ∈ c.pipeline.done, t.KeepsLedger

end Compiler

/-- A session that starts in an absolute directory has such a compiler if the user's transforms
leave the ledger alone. -/
theorem Session.keepsRecords_of_start {o : Options} {extras : Extras} {fs : FileSystem}
    {s : Session} (h : Session.start fs o extras = .ok s)
    (habsolute : ∀ d, fs.workingDirectory = .ok d → d.isAbsolute = true)
    (hpaths : extras.paths = none) (htransforms : extras.transforms.KeepsLedger) :
    s.compiler.KeepsRecords := by
  have hroot := isAbsolute_root_of_start h habsolute
  obtain ⟨d, out, -, -, rfl⟩ := start_eq_ok h
  have hresolver : (extras.paths.getD (namespacesOf o (rootOf o d))).IsNamespaced := by
    rw [hpaths]
    exact isNamespaced_namespacesOf o hroot
  obtain ⟨hrecords, hdone⟩ := htransforms.forBuild
    (extras.paths.getD (namespacesOf o (rootOf o d)))
    ⟨some out, rootOf o d, extras.assets.getD (.below o.publicAddress)⟩
  exact ⟨hroot, hresolver, hrecords, hdone⟩

/-! ## What a store knows -/

namespace ModuleStore

variable {c : Compiler} {fs : FileSystem} {known : List Path} {s s' : ModuleStore}
  {ks : List Compilation} {k : Compilation}

theorem Ends.isPlace (hresolver : c.resolver.IsNamespaced) (hfs : c.Permits known fs)
    (h : Ends c fs Path.IsPlace s k) {e : String × Path} (he : e ∈ k.files) : e.2.IsPlace := by
  obtain ⟨hcomposes, hexists⟩ := h.mayCompose he
  exact hfs.hands hresolver h.allowed hcomposes hexists

theorem Ends.isPlace_files (hresolver : c.resolver.IsNamespaced) (hfs : c.Permits known fs)
    (h : Ends c fs Path.IsPlace s k) : ∀ q ∈ k.files.map Prod.snd, q.IsPlace :=
  List.forall_mem_map.2 fun _ he ↦ h.isPlace hresolver hfs he

/-- The edges of a compilation are added to the graph. -/
theorem graph_finish_eq (c : Compiler) (k : Compilation) (s : ModuleStore) :
    (finish c k.file k.draft k.files s).1.graph =
      s.graph.addAll k.file (k.files.map Prod.snd) := by
  rw [graph_finish, ModuleGraph.addAll, List.foldl_map]

theorem Ends.isTidy (hc : c.KeepsRecords) (hfs : c.Permits known fs)
    (h : Ends c fs Path.IsPlace s k) (hs : s.IsTidy) :
    (finish c k.file k.draft k.files s).1.IsTidy := by
  refine ⟨?_, ?_, ?_⟩
  · rcases h.finish_cases hs.modules.toIsOrdered with ⟨_, -, hmodules, -⟩ | ⟨m, _, -, hmodules, -⟩
    · exact hmodules ▸ hs.modules
    · exact hmodules ▸ hs.modules.insert h.allowed m
  · rw [graph_finish_eq]
    exact hs.graph.addAll h.allowed (h.isPlace_files hc.resolver hfs)
  · rw [Compiler.imports_finish hc.pipeline]
    exact hs.imports

theorem isTidy_prepare (hc : c.KeepsRecords) (hfs : c.Permits known fs) {file : Path}
    (hfile : file.IsPlace) (hs : s.IsTidy) :
    IsTidy { s with journal := (prepare c fs file s.journal).1 } := by
  refine ⟨hs.modules, hs.graph, ?_⟩
  change ImportLedger.IsTidy (prepare c fs file s.journal).1.imports
  rw [Compiler.imports_prepare hc.pipeline]
  exact hs.imports.recordAll (Compiler.isPlace_imports_of_root hc.resolver hfs.root hfile)

/-- What attempts and ends of compilations keep of a tidy store is kept all along. -/
theorem Trail.preserves_tidy (hc : c.KeepsRecords) (hfs : c.Permits known fs)
    (h : Trail c fs Path.IsPlace s ks s') {P : List Compilation → ModuleStore → Prop}
    (hattempt : ∀ ks s file, file.IsPlace → s.IsTidy → P ks s →
      P ks { s with journal := (prepare c fs file s.journal).1 })
    (hfinish : ∀ ks s k, Ends c fs Path.IsPlace s k → s.IsTidy → P ks s →
      P (ks ++ [k]) (ModuleStore.finish c k.file k.draft k.files s).1)
    (hs : s.IsTidy) (hP : P [] s) : s'.IsTidy ∧ P ks s' :=
  (h.preserves (P := fun ks s ↦ s.IsTidy ∧ P ks s)
    (fun ks s file hfile _ hs ↦
      ⟨isTidy_prepare hc hfs hfile hs.1, hattempt ks s file hfile hs.1 hs.2⟩)
    (fun ks s k hends _ hs ↦ ⟨hends.isTidy hc hfs hs.1, hfinish ks s k hends hs.1 hs.2⟩)
    hs.isOrdered ⟨hs, hP⟩).2

/-- Nothing but known files gets into the store. -/
theorem Trail.within (hc : c.KeepsRecords) (hfs : c.Permits known fs)
    (h : Trail c fs Path.IsPlace s ks s') (hs : s.IsTidy) (hwithin : s.Within (· ∈ known)) :
    s'.Within (· ∈ known) := by
  refine (h.preserves_tidy hc hfs (P := fun _ s ↦ s.Within (· ∈ known)) ?_ ?_ hs hwithin).2
  · intro _ s₁ file hfile hs₁ hwithin₁
    refine ⟨hwithin₁.tracked, fun p hp q hq ↦ ?_⟩
    have himports := Compiler.isPlace_imports_of_root hc.resolver hfs.root hfile
    change q ∈ (prepare c fs file s₁.journal).1.imports.parents p at hq
    rw [Compiler.imports_prepare hc.pipeline,
      ImportLedger.mem_parents_recordAll hs₁.imports himports hp] at hq
    rcases hq with hq | hm
    · exact hwithin₁.parents p hp q hq
    · exact hfs.known q (himports _ hm).2
        (Compiler.isFile_of_mem_sources (Compiler.mem_sources_of_mem_imports hm).2)
  · intro _ s₁ k hends hs₁ hwithin₁
    refine ⟨fun p hp htracked ↦ ?_, fun p hp q hq ↦ ?_⟩
    · rw [isTracked_eq, hends.get?_eq hs₁.modules.toIsOrdered] at htracked
      split at htracked
      next hsame =>
        rw [hp.eq_of_components hends.allowed hsame]
        exact hfs.known _ hends.allowed hends.drafted.isFile
      next => exact hwithin₁.tracked p hp ((isTracked_eq s₁ p).trans htracked)
    · rw [Compiler.imports_finish hc.pipeline] at hq
      exact hwithin₁.parents p hp q hq

end ModuleStore

namespace Session

/-! ## The compilations of an event -/

/-- The compilations when an evicted file is compiled again, if it is there and was not tracked. -/
def recompilations (s : Session) (file : Path) : List Compilation :=
  if !s.fs.isFile file || s.isTracked file then [] else compilations s.compiler s.fs file s.store

/-- The compilations when evicted files are compiled again in order. -/
def recompilationsOfAll : List Path → Session → List Compilation
  | [], _ => []
  | file :: files, s => s.recompilations file ++ recompilationsOfAll files (s.retracked file)

def compilationsBy (s : Session) (e : FileEvent) : List Compilation :=
  match e.change with
  | .init | .add => compilations s.compiler s.fs e.file s.store
  | .change =>
    compilations s.compiler s.fs e.file (s.evicting e.file).store ++
      match (s.evicting e.file).track e.file with
      | (_, .error _) => []
      | (s', .ok ()) => recompilationsOfAll (s.evictedWith e.file).tail s'
  | .unlink => recompilationsOfAll (s.evictedWith e.file).tail (s.evicting e.file)

section Trail

variable {s : Session} {A : Path → Prop}

theorem trail_track (hA : s.compiler.Hands s.fs A) (hs : s.store.IsOrdered) {file : Path}
    (hfile : A (s.absolute file)) :
    Trail s.compiler s.fs A s.store (compilations s.compiler s.fs file s.store)
      (s.track file).1.store :=
  (track_trail hA hs file hfile).1

theorem trail_retracked (hA : s.compiler.Hands s.fs A) (hs : s.store.IsOrdered) {file : Path}
    (hfile : s.fs.isFile file = true → A (s.absolute file)) :
    Trail s.compiler s.fs A s.store (s.recompilations file) (s.retracked file).store := by
  unfold recompilations retracked
  split
  next => exact .start
  next h => exact trail_track hA hs (hfile (by simp_all))

theorem trail_foldl_retracked (hA : s.compiler.Hands s.fs A) (hs : s.store.IsOrdered)
    {files : List Path} (hfiles : ∀ p ∈ files, s.fs.isFile p = true → A (s.absolute p)) :
    Trail s.compiler s.fs A s.store (recompilationsOfAll files s)
      (files.foldl retracked s).store := by
  induction files generalizing s with
  | nil => exact .start
  | cons file files ih =>
    obtain ⟨hfile, hrest⟩ := List.forall_mem_cons.1 hfiles
    have hsetup := sameSetup_retracked s file
    have hfirst := trail_retracked hA hs hfile
    have htrail := ih (s := s.retracked file) (by rwa [hsetup.compiler, hsetup.fs])
      (hfirst.isOrdered hs) (by rwa [hsetup.absolute, hsetup.fs])
    rw [hsetup.compiler, hsetup.fs] at htrail
    exact hfirst.trans htrail

/-- Handling an event leaves a trail of its compilations, from where the eviction ended. -/
theorem trail_handle (hA : s.compiler.Hands s.fs A) (e : FileEvent)
    (hs : (s.kept e).store.IsOrdered) (hfile : A (s.absolute e.file))
    (htail : ∀ p ∈ (s.evictedWith e.file).tail, s.fs.isFile p = true → A (s.absolute p)) :
    Trail s.compiler s.fs A (s.kept e).store (s.compilationsBy e) (s.handle e).1.store := by
  have hsetup := sameSetup_evicting s e.file
  have hA' : (s.evicting e.file).compiler.Hands (s.evicting e.file).fs A := by
    rwa [hsetup.compiler, hsetup.fs]
  have hfile' : A ((s.evicting e.file).absolute e.file) := by rwa [hsetup.absolute]
  unfold handle compilationsBy
  unfold kept at hs ⊢
  cases hchange : e.change with
  | init =>
    rw [hchange] at hs
    exact trail_track hA hs hfile
  | add =>
    rw [hchange] at hs
    exact trail_track hA hs hfile
  | change =>
    rw [hchange] at hs
    have hfirst := trail_track hA' hs hfile'
    rw [hsetup.compiler, hsetup.fs] at hfirst
    dsimp only
    rcases htrack : (s.evicting e.file).track e.file with ⟨s₁, fault | u⟩
    all_goals rw [htrack] at hfirst
    · rw [List.append_nil, fst_change_error (by rw [htrack]), htrack]
      exact hfirst
    · have hsetup₁ : s.SameSetup s₁ := by
        have hset := hsetup.trans (sameSetup_track (s.evicting e.file) e.file)
        rwa [htrack] at hset
      have hrest := trail_foldl_retracked (s := s₁) (by rwa [hsetup₁.compiler, hsetup₁.fs])
        (hfirst.isOrdered hs) (by rwa [hsetup₁.absolute, hsetup₁.fs])
      rw [hsetup₁.compiler, hsetup₁.fs] at hrest
      rw [fst_change_ok (by rw [htrack]), htrack]
      exact hfirst.trans hrest
  | unlink =>
    rw [hchange] at hs
    have htail' : ∀ p ∈ (s.evictedWith e.file).tail, (s.evicting e.file).fs.isFile p = true →
        A ((s.evicting e.file).absolute p) := by rwa [hsetup.absolute, hsetup.fs]
    have hrest := trail_foldl_retracked hA' hs htail'
    rw [hsetup.compiler, hsetup.fs] at hrest
    simp only [fst_unlink]
    exact hrest

end Trail

section Order

variable {s : Session}

theorem isOrdered_evicting (hs : s.store.IsOrdered) (file : Path) :
    (s.evicting file).store.IsOrdered :=
  (removed_evicting s file).isOrdered hs

theorem isOrdered_kept (hs : s.store.IsOrdered) (e : FileEvent) :
    (s.kept e).store.IsOrdered :=
  kept_preserves (P := fun s ↦ s.store.IsOrdered) hs (isOrdered_evicting hs e.file)

theorem isOrdered_handle (hs : s.store.IsOrdered) (e : FileEvent) :
    (s.handle e).1.store.IsOrdered :=
  (trail_handle (A := fun _ ↦ True) (fun _ _ _ _ _ ↦ trivial) e (isOrdered_kept hs e) trivial
    fun _ _ _ ↦ trivial).isOrdered (isOrdered_kept hs e)

theorem isOrdered_writeBundle (hs : s.store.IsOrdered) : s.writeBundle.1.store.IsOrdered := by
  obtain ⟨fs, maps, journal, hwritten⟩ := fst_writeBundle s
  rw [hwritten]
  exact ⟨hs.modules, hs.graph⟩

/-- The files of a session are in order, whatever happens to it. -/
theorem Reached.isOrdered {P : FileSystem → Prop} {start s : Session} {origin : Path → FileSystem}
    (h : Reached P start s origin) (hstart : start.store.IsOrdered) : s.store.IsOrdered := by
  induction h with
  | start => exact hstart
  | edit _ _ ih => exact ih
  | event _ _ e ih => exact isOrdered_handle ih e
  | evict _ file ih => exact isOrdered_evicting ih file
  | writeBundle _ ih => exact isOrdered_writeBundle ih
  | writeMaps _ ih => exact ih

end Order

section Kept

variable {s : Session} {e : FileEvent} {p q : Path} {m : Module}

/-- An eviction changes no module. -/
theorem get?_of_kept (h : (s.kept e).store.modules.get? q = some m) :
    s.store.modules.get? q = some m := by
  have hevicting : (s.evicting e.file).store.modules.get? q = some m →
      s.store.modules.get? q = some m := by
    rw [(removed_evicting s e.file).get?]
    split
    next => exact fun h ↦ absurd h (Option.some_ne_none m).symm
    next => exact id
  exact kept_preserves (P := fun s' ↦ s'.store.modules.get? q = some m →
    s.store.modules.get? q = some m) id hevicting h

end Kept

/-- The sessions that a session can become, with their histories.  Events are handled on disks of a
certain kind only, whether or not they fail. -/
inductive Recorded (P : FileSystem → Prop) (start : Session) :
    Session → List Compilation → Prop
  | start : Recorded P start start []
  /-- Files are created, modified and deleted. -/
  | edit {s : Session} {ks : List Compilation} (h : Recorded P start s ks) (fs : FileSystem) :
      Recorded P start { s with fs := fs } ks
  | event {s : Session} {ks : List Compilation} (h : Recorded P start s ks) (hP : P s.fs)
      (e : FileEvent) : Recorded P start (s.handle e).1 (ks ++ s.compilationsBy e)
  | evict {s : Session} {ks : List Compilation} (h : Recorded P start s ks) (file : Path) :
      Recorded P start (s.evict file).2 ks
  | writeBundle {s : Session} {ks : List Compilation} (h : Recorded P start s ks) :
      Recorded P start s.writeBundle.1 ks
  | writeMaps {s : Session} {ks : List Compilation} (h : Recorded P start s ks) :
      Recorded P start s.writeMaps.1 ks

/-- Every session that can be reached, also by handling batches of events, has a history. -/
theorem Reached.recorded {P : FileSystem → Prop} {start s : Session} {origin : Path → FileSystem}
    (h : Reached P start s origin) : ∃ ks, Recorded P start s ks := by
  induction h with
  | start => exact ⟨[], .start⟩
  | edit _ fs ih => exact ih.imp fun _ h ↦ h.edit fs
  | event _ hP e ih =>
    obtain ⟨ks, h⟩ := ih
    exact ⟨_, h.event hP e⟩
  | evict _ file ih => exact ih.imp fun _ h ↦ h.evict file
  | writeBundle _ ih => exact ih.imp fun _ h ↦ h.writeBundle
  | writeMaps _ ih => exact ih.imp fun _ h ↦ h.writeMaps

end Session

end StyleModules
