import StyleModules.Proofs.Invalidation

/-!
# What events do to the store

Every event first evicts some files, or none, and then tracks files step by step.  Writing bundles
and maps leaves the store as it is, up to the notes of transforms.
-/

namespace StyleModules

open Relation ModuleStore

/-- Two stores that differ in the notes of transforms only. -/
structure ModuleStore.Alike (s s' : ModuleStore) : Prop where
  graph : s'.graph = s.graph
  modules : s'.modules = s.modules
  imports : s'.journal.imports = s.journal.imports

theorem ModuleStore.Alike.isTidy {s s' : ModuleStore} (h : s.Alike s') (hs : s.IsTidy) :
    s'.IsTidy :=
  ⟨h.modules ▸ hs.modules, h.graph ▸ hs.graph, h.imports ▸ hs.imports⟩

theorem ModuleStore.Alike.within {s s' : ModuleStore} (h : s.Alike s') {B : Path → Prop}
    (hs : s.Within B) : s'.Within B := by
  refine ⟨fun p hp hpTracked ↦ hs.tracked p hp ?_,
    fun p hp q hq ↦ hs.parents p hp q (h.imports ▸ hq)⟩
  rwa [isTracked_eq, h.modules, ← isTracked_eq] at hpTracked

/-- A bundle is assembled from a store that stays as it is, up to the notes of transforms. -/
theorem ModuleStore.output_fst (c : Compiler) (place : Path) (s : ModuleStore) :
    ∃ journal, (s.output c place).1 = { s with journal := journal } := by
  unfold output
  split <;> exact ⟨_, rfl⟩

namespace Session

/-- Two sessions that differ in their stores and maps only. -/
structure SameSetup (s s' : Session) : Prop where
  options : s'.options = s.options
  compiler : s'.compiler = s.compiler
  outputDirectory : s'.outputDirectory = s.outputDirectory
  fs : s'.fs = s.fs

theorem SameSetup.refl (s : Session) : s.SameSetup s := ⟨rfl, rfl, rfl, rfl⟩

theorem SameSetup.trans {s s' s'' : Session} (h : s.SameSetup s') (h' : s'.SameSetup s'') :
    s.SameSetup s'' :=
  ⟨h'.options.trans h.options, h'.compiler.trans h.compiler,
    h'.outputDirectory.trans h.outputDirectory, h'.fs.trans h.fs⟩

theorem SameSetup.absolute {s s' : Session} (h : s.SameSetup s') : s'.absolute = s.absolute := by
  funext p
  rw [Session.absolute, Session.absolute, h.compiler]

/-- What is tracked in a session of the same setup. -/
theorem isTracked_eq_of_sameSetup {s s' : Session} (h : s.SameSetup s') (p : Path) :
    s'.isTracked p = s'.store.isTracked (s.absolute p) := by
  rw [isTracked, h.absolute]

theorem sameSetup_track (s : Session) (file : Path) : s.SameSetup (s.track file).1 :=
  ⟨rfl, rfl, rfl, rfl⟩

theorem sameSetup_evicting (s : Session) (file : Path) : s.SameSetup (s.evicting file) := by
  rw [evicting_eq]
  exact ⟨rfl, rfl, rfl, rfl⟩

/-! ## Tracking evicted files again -/

/-- The session after an evicted file was compiled again, if it is there and was not tracked. -/
def retracked (s : Session) (file : Path) : Session :=
  if !s.fs.isFile file || s.isTracked file then s else (s.track file).1

theorem fst_retrackOne (s : Session) (failures : List String) (file : Path) :
    (retrackOne (s, failures) file).1 = s.retracked file := by
  unfold retrackOne retracked
  simp only
  split
  next => rfl
  next => rcases s.track file with ⟨s', fault | u⟩ <;> rfl

theorem fst_foldl_retrackOne (files : List Path) (state : Session × List String) :
    (files.foldl retrackOne state).1 = files.foldl retracked state.1 := by
  induction files generalizing state with
  | nil => rfl
  | cons file files ih =>
    rw [List.foldl_cons, ih, List.foldl_cons, fst_retrackOne]

theorem fst_retrack (s : Session) (file : Path) (dependents : List Path) :
    (s.retrack file dependents).1 = dependents.foldl retracked s := by
  unfold retrack
  have hfold := fst_foldl_retrackOne dependents (s, [])
  split
  next s' heq => rw [← hfold, heq]
  next s' failures _ heq => rw [← hfold, heq]

theorem sameSetup_retracked (s : Session) (file : Path) : s.SameSetup (s.retracked file) := by
  unfold retracked
  split
  next => exact SameSetup.refl s
  next => exact sameSetup_track s file

/-- What tracking keeps is kept when evicted files are compiled again. -/
theorem foldl_retracked_preserves {P : Session → Prop} {files : List Path}
    (htrack : ∀ d ∈ files, ∀ s, P s → P (s.track d).1) {s : Session} (hs : P s) :
    P (files.foldl retracked s) := by
  induction files generalizing s with
  | nil => exact hs
  | cons file files ih =>
    obtain ⟨hfile, hrest⟩ := List.forall_mem_cons.1 htrack
    refine ih hrest ?_
    unfold retracked
    split
    next => exact hs
    next => exact hfile s hs

theorem sameSetup_foldl_retracked (files : List Path) (s : Session) :
    s.SameSetup (files.foldl retracked s) :=
  foldl_retracked_preserves (fun d _ s' h ↦ h.trans (sameSetup_track s' d)) (.refl s)

section Steps

variable {s : Session} {A : Path → Prop}

theorem absolute_eq {p : Path} (hp : p.IsPlace) (s : Session) : s.absolute p = p :=
  Compiler.absolute_eq hp

theorem steps_track (hc : s.compiler.IsRegular) (hfs : s.compiler.Suits s.fs)
    (hs : s.store.IsTidy) (hA : s.compiler.Passes s.fs A)
    (file : Path) (hfile : A (s.absolute file)) :
    Steps s.compiler s.fs A s.store (s.track file).1.store :=
  track_steps hc hfs hs file hA hfile

theorem steps_retracked (hc : s.compiler.IsRegular) (hfs : s.compiler.Suits s.fs)
    (hs : s.store.IsTidy) (hA : s.compiler.Passes s.fs A)
    {file : Path} (hfile : file.IsPlace ∧ A file) :
    Steps s.compiler s.fs A s.store (s.retracked file).store := by
  unfold retracked
  split
  next => exact ReflTransGen.refl
  next => exact steps_track hc hfs hs hA file ((absolute_eq hfile.1 s).symm ▸ hfile.2)

theorem steps_foldl_retracked (hc : s.compiler.IsRegular) (hfs : s.compiler.Suits s.fs)
    (hs : s.store.IsTidy) (hA : s.compiler.Passes s.fs A)
    {files : List Path} (hfiles : ∀ p ∈ files, p.IsPlace ∧ A p) :
    Steps s.compiler s.fs A s.store (files.foldl retracked s).store := by
  induction files generalizing s with
  | nil => exact ReflTransGen.refl
  | cons file files ih =>
    obtain ⟨hfile, hrest⟩ := List.forall_mem_cons.1 hfiles
    have hsetup := sameSetup_retracked s file
    have hsteps := steps_retracked hc hfs hs hA hfile
    have hsteps' := ih (s := s.retracked file) (by rwa [hsetup.compiler])
      (by rwa [hsetup.compiler, hsetup.fs]) (hsteps.isTidy hc hfs hs)
      (by rwa [hsetup.compiler, hsetup.fs]) hrest
    rw [hsetup.compiler, hsetup.fs] at hsteps'
    exact hsteps.trans hsteps'

/-- A file that exists and compiles is tracked again. -/
theorem isTracked_foldl_retracked (hc : s.compiler.IsRegular) (hfs : s.compiler.Suits s.fs)
    (hs : s.store.IsTidy) {files : List Path} (hfiles : ∀ p ∈ files, p.IsPlace) {g : Path}
    (hg : g ∈ files) (hexists : s.fs.isFile g = true) (haccepts : s.compiler.Accepts s.fs g) :
    (files.foldl retracked s).isTracked g = true := by
  induction files generalizing s with
  | nil => simp at hg
  | cons file files ih =>
    obtain ⟨hfile, hrest⟩ := List.forall_mem_cons.1 hfiles
    have hsetup := sameSetup_retracked s file
    have htidy := (steps_retracked (A := fun _ ↦ True) hc hfs hs (fun _ _ _ _ _ ↦ trivial)
      ⟨hfile, trivial⟩).isTidy hc hfs hs
    have hc' : (s.retracked file).compiler.IsRegular := by rwa [hsetup.compiler]
    have hfs' : (s.retracked file).compiler.Suits (s.retracked file).fs := by
      rwa [hsetup.compiler, hsetup.fs]
    rw [List.foldl_cons]
    rcases List.mem_cons.1 hg with rfl | hg
    · have hnow : (s.retracked g).isTracked g = true := by
        unfold retracked
        split
        next hdone => simpa [hexists] using hdone
        next =>
          have haccepts' : s.compiler.Accepts s.fs (s.compiler.absolute g) := by
            rwa [Compiler.absolute_eq hfile]
          exact isTracked_track hc hfs hs g (track_ok hc hfs hs g haccepts')
      have hsteps := steps_foldl_retracked (A := fun _ ↦ True) hc' hfs' htidy
        (fun _ _ _ _ _ ↦ trivial) (fun p hp ↦ ⟨hrest p hp, trivial⟩)
      unfold isTracked at hnow ⊢
      rw [absolute_eq hfile] at hnow ⊢
      exact hsteps.isTracked hfile hnow
    · exact ih hc' hfs' htidy hrest hg (by rwa [hsetup.fs]) (by rwa [hsetup.compiler, hsetup.fs])

/-! ## Events -/

/-- The session in which an event starts to track files. -/
def kept (s : Session) (e : FileEvent) : Session :=
  match e.change with
  | .init | .add => s
  | .change | .unlink => s.evicting e.file

theorem kept_preserves {P : Session → Prop} {e : FileEvent} (hs : P s)
    (hevicting : P (s.evicting e.file)) : P (s.kept e) := by
  unfold kept
  split
  · exact hs
  · exact hs
  · exact hevicting
  · exact hevicting

/-- The files that are evicted when an event is handled. -/
def evictedBy (s : Session) (e : FileEvent) : List Path :=
  match e.change with
  | .init | .add => []
  | .change | .unlink => s.evictedWith e.file

theorem evicted_kept (hroot : s.compiler.root.isAbsolute = true) (hs : s.store.IsTidy)
    (e : FileEvent) : Evicted s.store (s.evictedBy e) (s.kept e).store := by
  have hnone : Evicted s.store [] s.store := ⟨hs, by simp, by simp, by simp⟩
  unfold evictedBy kept
  cases e.change with
  | init => exact hnone
  | add => exact hnone
  | change => exact evicted_evicting hroot hs e.file
  | unlink => exact evicted_evicting hroot hs e.file

theorem isClosed_evictedBy (hroot : s.compiler.root.isAbsolute = true) (hs : s.store.IsTidy)
    (e : FileEvent) {B : Path → Prop} (hwithin : s.store.Within B) {files : List Path}
    (hfiles : ∀ p, B p → p ∈ files) (hlength : files.length ≤ Invalidation.maxDepth) :
    s.store.IsClosed (s.evictedBy e) := by
  have hclosed := isClosed_evictedWith hroot hs e.file hwithin hfiles hlength
  unfold evictedBy
  cases e.change with
  | init => exact fun p hp ↦ absurd hp List.not_mem_nil
  | add => exact fun p hp ↦ absurd hp List.not_mem_nil
  | change => exact hclosed
  | unlink => exact hclosed

theorem change_eq_retrack {file : Path} (h : ((s.evicting file).track file).2 = .ok ()) :
    s.change file = ((s.evicting file).track file).1.retrack file (s.evictedWith file).tail := by
  unfold change
  rw [evict_eq]
  rcases htrack : (s.evicting file).track file with ⟨s', fault | u⟩
  · simp [htrack] at h
  · simp only [htrack]

theorem fst_change_ok {file : Path} (h : ((s.evicting file).track file).2 = .ok ()) :
    (s.change file).1 =
      (s.evictedWith file).tail.foldl retracked ((s.evicting file).track file).1 := by
  rw [change_eq_retrack h, fst_retrack]

theorem fst_change_error {file : Path} {fault : Fault}
    (h : ((s.evicting file).track file).2 = .error fault) :
    (s.change file).1 = ((s.evicting file).track file).1 := by
  unfold change
  rw [evict_eq]
  rcases htrack : (s.evicting file).track file with ⟨s', fault | u⟩
  · simp only [htrack]
  · simp [htrack] at h

theorem fst_unlink (s : Session) (file : Path) : (s.unlink file).1 =
    ((s.evictedWith file).tail.foldl retracked (s.evicting file)).forgetUntracked
      (s.evictedWith file) := by
  rw [← fst_retrack _ file]
  rfl

/-- What tracking files keeps of the session after the eviction is kept by an event, if it has
nothing to do with the maps. -/
theorem handle_preserves {P : Session → Prop} {e : FileEvent} (hkept : P (s.kept e))
    (hself : ∀ s, P s → P (s.track e.file).1)
    (htail : ∀ d ∈ (s.evictedWith e.file).tail, ∀ s, P s → P (s.track d).1)
    (hmaps : ∀ s maps, P s → P { s with maps := maps }) : P (s.handle e).1 := by
  revert hkept
  unfold kept handle
  cases e.change with
  | init => exact hself s
  | add => exact hself s
  | change =>
    intro hevicted
    have htracked := hself _ hevicted
    cases htrack : ((s.evicting e.file).track e.file).2 with
    | error fault =>
      simp only [fst_change_error htrack]
      exact htracked
    | ok u =>
      simp only [fst_change_ok htrack]
      exact foldl_retracked_preserves htail htracked
  | unlink =>
    intro hevicted
    simp only [fst_unlink]
    exact hmaps _ _ (foldl_retracked_preserves htail hevicted)

theorem sameSetup_kept (s : Session) (e : FileEvent) : s.SameSetup (s.kept e) :=
  kept_preserves (.refl s) (sameSetup_evicting s e.file)

theorem sameSetup_handle (s : Session) (e : FileEvent) : s.SameSetup (s.handle e).1 :=
  handle_preserves (sameSetup_kept s e) (fun s' h ↦ h.trans (sameSetup_track s' e.file))
    (fun d _ s' h ↦ h.trans (sameSetup_track s' d))
    fun _ _ h ↦ ⟨h.options, h.compiler, h.outputDirectory, h.fs⟩

/-- Handling an event takes steps from where the eviction ended. -/
theorem steps_handle (hc : s.compiler.IsRegular) (hfs : s.compiler.Suits s.fs)
    (hs : s.store.IsTidy) (hA : s.compiler.Passes s.fs A)
    (e : FileEvent) (hfile : ∀ p ∈ s.evictedWith e.file, A p) :
    Steps s.compiler s.fs A (s.kept e).store (s.handle e).1.store := by
  have htidy := (evicted_kept hc.root hs e).isTidy
  have htrack : ∀ d, A (s.absolute d) → ∀ s',
      (s.SameSetup s' ∧ Steps s.compiler s.fs A (s.kept e).store s'.store) →
        s.SameSetup (s'.track d).1 ∧
          Steps s.compiler s.fs A (s.kept e).store (s'.track d).1.store := by
    rintro d hd s' ⟨hsetup, hsteps⟩
    have hstep := steps_track (s := s') (by rwa [hsetup.compiler])
      (by rwa [hsetup.compiler, hsetup.fs]) (hsteps.isTidy hc hfs htidy)
      (by rwa [hsetup.compiler, hsetup.fs]) d (by rwa [hsetup.absolute])
    rw [hsetup.compiler, hsetup.fs] at hstep
    exact ⟨hsetup.trans (sameSetup_track s' d), hsteps.trans hstep⟩
  refine (handle_preserves (P := fun s' ↦ s.SameSetup s' ∧
      Steps s.compiler s.fs A (s.kept e).store s'.store)
    ⟨sameSetup_kept s e, ReflTransGen.refl⟩
    (htrack e.file (hfile _ (self_mem_evictedWith s e.file))) (fun d hd ↦ htrack d ?_)
    fun _ _ h ↦ ⟨⟨h.1.options, h.1.compiler, h.1.outputDirectory, h.1.fs⟩, h.2⟩).2
  have hmem := List.mem_of_mem_tail hd
  rw [absolute_eq ((evictedWith_spec hc.root hs e.file).2 d hmem).1]
  exact hfile d hmem

end Steps

theorem fst_handleInBatch (state : Session × BatchReport) (e : FileEvent) :
    (handleInBatch state e).1 =
      if state.1.options.handles e.file then (state.1.handle e).1 else state.1 := by
  obtain ⟨s, report⟩ := state
  unfold handleInBatch
  by_cases h : s.options.handles e.file = true
  · simp only [h, Bool.not_true, Bool.false_eq_true, ↓reduceIte]
    rcases s.handle e with ⟨s', fault | u⟩ <;> rfl
  · simp [h]

/-- The session after it was told of some events, of which it skips those that do not belong to the
project. -/
def heard (s : Session) (events : List FileEvent) : Session :=
  events.foldl (fun s e ↦ if s.options.handles e.file then (s.handle e).1 else s) s

theorem fst_foldl_handleInBatch (events : List FileEvent) (state : Session × BatchReport) :
    (events.foldl handleInBatch state).1 = state.1.heard events := by
  induction events generalizing state with
  | nil => rfl
  | cons e events ih =>
    rw [List.foldl_cons, ih, fst_handleInBatch]
    rfl

theorem heard_cons (s : Session) (e : FileEvent) (events : List FileEvent) :
    s.heard (e :: events) =
      (if s.options.handles e.file then (s.handle e).1 else s).heard events := rfl

theorem heard_append (s : Session) (events more : List FileEvent) :
    s.heard (events ++ more) = (s.heard events).heard more := List.foldl_append

/-- What every event keeps is kept by all of them. -/
theorem heard_preserves {s : Session} {P : Session → Prop}
    (hstep : ∀ s (e : FileEvent), s.options.handles e.file = true → P s → P (s.handle e).1)
    (events : List FileEvent) (h : P s) : P (s.heard events) := by
  induction events generalizing s with
  | nil => exact h
  | cons e events ih =>
    rw [heard_cons]
    split
    next hhandles => exact ih (hstep s e hhandles h)
    next => exact ih h

theorem sameSetup_heard (s : Session) (events : List FileEvent) : s.SameSetup (s.heard events) :=
  heard_preserves (P := s.SameSetup) (fun s' e _ h ↦ h.trans (sameSetup_handle s' e)) events (.refl s)

/-- Writing a bundle also changes the disk and the maps, and nothing else of a session. -/
theorem fst_writeBundle (s : Session) : ∃ fs maps journal, s.writeBundle.1 =
    { s with fs := fs, maps := maps, store := { s.store with journal := journal } } := by
  obtain ⟨journal, hstore⟩ :=
    output_fst s.compiler (s.outputDirectory.join ⟨bundleName⟩) s.store
  unfold writeBundle
  rcases hout : s.store.output s.compiler (s.outputDirectory.join ⟨bundleName⟩)
    with ⟨store, fault | bundle⟩
  all_goals
    rw [hout] at hstore
    subst hstore
    exact ⟨_, _, journal, rfl⟩

theorem alike_output {c : Compiler} (hdone : ∀ t ∈ c.pipeline.done, t.KeepsLedger) (place : Path)
    (s : ModuleStore) : s.Alike (s.output c place).1 := by
  have himports := Transform.keepsLedger_runAll hdone
    (Job.start s.journal ⟨place, s.bundleChunks⟩)
  unfold output Pipeline.run Pipeline.stage
  simp only
  split
  next heq =>
    rw [heq] at himports
    exact ⟨rfl, rfl, himports⟩
  next heq =>
    rw [heq] at himports
    exact ⟨rfl, rfl, himports⟩

theorem writeBundle_spec {s : Session} (hdone : ∀ t ∈ s.compiler.pipeline.done, t.KeepsLedger) :
    s.writeBundle.1.options = s.options ∧ s.writeBundle.1.compiler = s.compiler ∧
      s.store.Alike s.writeBundle.1.store := by
  have halike := alike_output hdone (s.outputDirectory.join ⟨bundleName⟩) s.store
  unfold writeBundle
  rcases hout : s.store.output s.compiler (s.outputDirectory.join ⟨bundleName⟩)
    with ⟨store, fault | bundle⟩
  all_goals
    rw [hout] at halike
    exact ⟨rfl, rfl, halike⟩

theorem writeMaps_spec (s : Session) :
    s.writeMaps.1.options = s.options ∧ s.writeMaps.1.compiler = s.compiler ∧
      s.writeMaps.1.store = s.store := ⟨rfl, rfl, rfl⟩

/-- A batch ends after the bundle was written, or after the maps were written too. -/
theorem fst_process (s : Session) (events : List FileEvent) :
    (s.process events).1 = (events.foldl handleInBatch (s, .empty)).1.writeBundle.1 ∨
      (s.process events).1 =
        (events.foldl handleInBatch (s, .empty)).1.writeBundle.1.writeMaps.1 := by
  unfold process
  simp only
  rcases (events.foldl handleInBatch (s, .empty)).1.writeBundle with ⟨s', fault | written⟩
  · exact .inl rfl
  · simp only
    rcases s'.writeMaps with ⟨s'', _ | fault⟩
    · exact .inr rfl
    · exact .inr rfl

/-- What is written at the end of a batch changes neither the setup nor what is tracked. -/
theorem process_spec {s : Session} (events : List FileEvent) {handled : Session}
    (hhandled : (events.foldl handleInBatch (s, .empty)).1 = handled)
    (hc : handled.compiler.IsRegular) :
    (s.process events).1.options = handled.options ∧
      (s.process events).1.compiler = handled.compiler ∧
      handled.store.Alike (s.process events).1.store := by
  have hwritten := writeBundle_spec hc.keepsLedger
  rcases fst_process s events with heq | heq
  · rw [heq, hhandled]
    exact hwritten
  · rw [heq, hhandled]
    exact hwritten

theorem fst_handleInBatch_singleton {s : Session} {e : FileEvent}
    (h : s.options.handles e.file = true) :
    ([e].foldl handleInBatch (s, .empty)).1 = (s.handle e).1 := by
  rw [List.foldl_cons, List.foldl_nil, fst_handleInBatch, if_pos h]

end Session

end StyleModules
