import StyleModules.Proofs.Listing
import StyleModules.Proofs.Retracking

/-!
# Changes are seen

A change of a file evicts its module, and from then on whatever module the file gets is compiled
from the disk as it is.  So after a batch with a change no file has an old module, however the
batch went on.  It has a module if it can be compiled, unless an event behind the change took it
away again.
-/

namespace StyleModules

open Relation ModuleStore

namespace ModuleStore

variable {c : Compiler} {fs : FileSystem} {s s' : ModuleStore} {ks : List Compilation}
  {p q : Path} {m : Module}

/-- A module was compiled from a file as it is on a disk. -/
def IsMadeOn (c : Compiler) (fs : FileSystem) (p : Path) (m : Module) : Prop :=
  ∃ s k, Ends c fs (fun _ ↦ True) s k ∧ p.Same k.file ∧ k.made = some m

/-- The module of a file, if there is one, was compiled from the file as it is on a disk. -/
def IsCurrent (c : Compiler) (fs : FileSystem) (s : ModuleStore) (p : Path) : Prop :=
  ∀ m, s.modules.get? p = some m → IsMadeOn c fs p m

theorem Trail.isCurrent (h : Trail c fs (fun _ ↦ True) s ks s') (hs : s.IsOrdered)
    (hp : s.IsCurrent c fs p) : s'.IsCurrent c fs p := by
  refine (h.preserves (P := fun _ s ↦ s.IsCurrent c fs p) (fun _ _ _ _ _ hp ↦ hp) ?_ hs hp).2
  intro _ s₁ k hends hs₁ hp m hm
  rw [hends.get?_eq hs₁.modules] at hm
  split at hm
  next hsame => exact ⟨s₁, k, hends, hsame, hm⟩
  next => exact hp m hm

end ModuleStore

namespace Session

variable {s : Session} {e : FileEvent} {file p : Path}

theorem isPlace_absolute (hroot : s.compiler.root.isAbsolute = true) (file : Path) :
    (s.absolute file).IsPlace :=
  Compiler.isPlace_absolute_of_root hroot file

/-- A file is evicted under every path that leads to it. -/
theorem isTracked_evicting_eq_false (h : ∃ q ∈ s.evictedWith file, s.absolute q = p) :
    (s.evicting file).store.isTracked p = false := by
  obtain ⟨q, hq, rfl⟩ := h
  rw [(removed_evicting s file).isTracked_eq, Bool.and_eq_false_iff, Bool.not_eq_false']
  exact .inr (Path.isAmong_of_mem (List.mem_map_of_mem hq))

theorem isTracked_evicting_self (hroot : s.compiler.root.isAbsolute = true) (file : Path) :
    (s.evicting file).store.isTracked (s.absolute file) = false :=
  isTracked_evicting_eq_false
    ⟨_, self_mem_evictedWith s file, absolute_eq (isPlace_absolute hroot file) s⟩

/-- What is not evicted stays tracked. -/
theorem isTracked_evicting (hroot : s.compiler.root.isAbsolute = true) (hp : p.IsPlace)
    (h : ∀ q ∈ s.evictedWith file, s.absolute q ≠ p)
    (htracked : s.store.isTracked p = true) : (s.evicting file).store.isTracked p = true := by
  rw [(removed_evicting s file).isTracked_eq, htracked, Bool.true_and, Bool.not_eq_true']
  refine Bool.eq_false_iff.2 fun hmet ↦ ?_
  obtain ⟨x, hx, hsame⟩ := Path.isAmong_iff.1 hmet
  obtain ⟨q, hq, rfl⟩ := List.mem_map.1 hx
  exact h q hq ((isPlace_absolute hroot q).eq_of_components hp hsame)

/-- An event makes no module old. -/
theorem isCurrent_handle (hs : s.store.IsOrdered) (e : FileEvent)
    (h : (s.kept e).store.IsCurrent s.compiler s.fs p) :
    (s.handle e).1.store.IsCurrent s.compiler s.fs p :=
  (trail_handle (hands_true s.compiler s.fs) e (isOrdered_kept hs e) trivial
    fun _ _ _ ↦ trivial).isCurrent (isOrdered_kept hs e) h

/-- A change leaves no old module of its file. -/
theorem isCurrent_change (hroot : s.compiler.root.isAbsolute = true) (hs : s.store.IsOrdered)
    (file : Path) :
    (s.handle ⟨.change, file⟩).1.store.IsCurrent s.compiler s.fs (s.absolute file) := by
  refine isCurrent_handle hs ⟨.change, file⟩ fun m hm ↦ ?_
  have hevicted := isTracked_evicting_self hroot file
  rw [isTracked_eq] at hevicted
  change (s.evicting file).store.modules.get? _ = some m at hm
  simp [hm] at hevicted

theorem Reached.compiler_eq {P : FileSystem → Prop} {start s : Session}
    {origin : Path → FileSystem} (h : Reached P start s origin) : s.compiler = start.compiler := by
  induction h with
  | start => rfl
  | edit _ _ ih => exact ih
  | @event s _ _ _ e ih => exact (sameSetup_handle s e).compiler.trans ih
  | @evict s _ _ file ih => exact (sameSetup_evicting s file).compiler.trans ih
  | @writeBundle s _ _ ih => exact (compiler_writeBundle s).trans ih
  | writeMaps _ ih => exact ih

/-- On its disk a session can compile a file, whatever happens to it before. -/
def CanCompile (s : Session) (file : Path) : Prop :=
  ∀ s' origin, Reached (· = s.fs) s s' origin → s'.fs = s.fs → (s'.track file).2 = .ok ()

theorem CanCompile.of_reached {s' : Session} {origin : Path → FileSystem} (h : s.CanCompile file)
    (hreached : Reached (· = s.fs) s s' origin) (hfs : s'.fs = s.fs) : s'.CanCompile file := by
  intro s'' origin' h' hfs'
  rw [hfs] at h' hfs'
  obtain ⟨_, hreached'⟩ := hreached.trans h'
  exact h s'' _ hreached' hfs'

theorem CanCompile.handle (h : s.CanCompile file) (e : FileEvent) :
    (s.handle e).1.CanCompile file :=
  h.of_reached (Reached.event (P := (· = s.fs)) .start rfl e) (sameSetup_handle s e).fs

theorem CanCompile.evicting (h : s.CanCompile file) (p : Path) :
    (s.evicting p).CanCompile file :=
  h.of_reached (Reached.start.evict p) (sameSetup_evicting s p).fs

theorem CanCompile.retracked (h : s.CanCompile file) (p : Path) :
    (s.retracked p).CanCompile file := by
  unfold Session.retracked
  split
  next => exact h
  next => exact h.handle ⟨.init, p⟩

theorem CanCompile.track_eq_ok (h : s.CanCompile file) : (s.track file).2 = .ok () :=
  h s _ .start rfl

/-- If transforms are pure then it is enough that the file compiles on its own. -/
theorem canCompile_of_track_empty {o : Options} {extras : Extras} {fs : FileSystem}
    {start s : Session} {origin : Path → FileSystem} (hstart : Starts o extras fs start)
    (h : Reached start.compiler.Suits start s origin) (hfs : start.compiler.Suits s.fs)
    (hfile : (ModuleStore.track s.compiler s.fs file .empty).2 = .ok ()) : s.CanCompile file := by
  obtain ⟨hcompiler, hs⟩ := h.isTidy hstart.isRegular (hstart.store_eq ▸ isTidy_empty)
  rw [← hcompiler] at hfs
  have hc : s.compiler.IsRegular := hcompiler ▸ hstart.isRegular
  intro s' origin' h' hfs'
  obtain ⟨hcompiler', hs'⟩ := (h'.mono fun _ heq ↦ heq ▸ hfs).isTidy hc hs
  have haccepts := (track_empty_ok_iff hc hfs file).1 hfile
  rw [← hcompiler'] at hc hfs haccepts
  rw [← hfs'] at hfs haccepts
  exact track_ok hc hfs hs' file haccepts

/-! ## Files that stay tracked -/

theorem track_congr {q : Path} (h : s.absolute q = s.absolute file) : s.track q = s.track file := by
  have hplace : s.compiler.absolute q = s.compiler.absolute file := h
  unfold track ModuleStore.track
  rw [hplace]

/-- A file that can be compiled is tracked once it was compiled again under some path. -/
theorem isTracked_foldl_retracked_of_canCompile (hs : s.store.IsOrdered) (h : s.CanCompile file)
    {files : List Path} (hp : p ∈ files) (hplace : s.absolute p = s.absolute file)
    (hexists : s.fs.isFile p = true) : (files.foldl retracked s).isTracked file = true := by
  induction files generalizing s with
  | nil => simp at hp
  | cons q files ih =>
    have hsetup := sameSetup_retracked s q
    have hordered := isOrdered_retracked hs q
    rcases List.mem_cons.1 hp with rfl | hp
    · refine isTracked_foldl_retracked_of_isTracked hordered files ?_
      have hself : (s.retracked p).isTracked p = true := by
        unfold retracked
        split
        next hdone => simpa [hexists] using hdone
        next =>
          refine isTracked_of_track_eq_ok hs ?_
          rw [track_congr hplace]
          exact h.track_eq_ok
      unfold isTracked at hself ⊢
      rw [hsetup.absolute] at hself ⊢
      rwa [← hplace]
    · exact ih hordered (h.retracked q) hp (by rwa [hsetup.absolute]) (by rwa [hsetup.fs])

/-- An event takes a file away: it says that the file is gone; or it evicts the file and stops when
its own file does not compile; or it evicts the file under paths at which no file is found. -/
inductive Drops (s : Session) (e : FileEvent) (p : Path) : Prop
  | gone (change : e.change = .unlink) (file : s.absolute e.file = p)
  | stopped (change : e.change = .change)
      (fails : ((s.evicting e.file).track e.file).2 ≠ .ok ())
      (evicted : ∃ q ∈ s.evictedBy e, s.absolute q = p)
  | astray (evicted : ∃ q ∈ s.evictedBy e, s.absolute q = p)
      (missing : ∀ q ∈ s.evictedBy e, s.absolute q = p → s.fs.isFile q = false)

theorem isTracked_kept (hroot : s.compiler.root.isAbsolute = true) (hp : p.IsPlace)
    (h : ∀ q ∈ s.evictedBy e, s.absolute q ≠ p) (htracked : s.store.isTracked p = true) :
    (s.kept e).store.isTracked p = true := by
  unfold kept
  unfold evictedBy at h
  cases hchange : e.change with
  | init => exact htracked
  | add => exact htracked
  | change =>
    rw [hchange] at h
    exact isTracked_evicting hroot hp h htracked
  | unlink =>
    rw [hchange] at h
    exact isTracked_evicting hroot hp h htracked

/-- A file that can be compiled and was evicted behind the file of a change comes back. -/
theorem isTracked_change_of_evicted (hs : s.store.IsOrdered) (h : s.CanCompile file) {changed : Path}
    (htrack : ((s.evicting changed).track changed).2 = .ok ())
    (hp : p ∈ (s.evictedWith changed).tail) (hplace : s.absolute p = s.absolute file)
    (hexists : s.fs.isFile p = true) : (s.change changed).1.isTracked file = true := by
  have hevicting := isOrdered_evicting hs changed
  have hsetup := (sameSetup_evicting s changed).trans (sameSetup_track (s.evicting changed) changed)
  rw [fst_change_ok htrack]
  exact isTracked_foldl_retracked_of_canCompile
    ((trail_track (hands_true _ _) hevicting trivial).isOrdered hevicting)
    ((h.evicting changed).handle ⟨.init, changed⟩) hp (by rwa [hsetup.absolute])
    (by rwa [hsetup.fs])

theorem isTracked_unlink_of_evicted (hs : s.store.IsOrdered) (h : s.CanCompile file) {gone : Path}
    (hp : p ∈ (s.evictedWith gone).tail) (hplace : s.absolute p = s.absolute file)
    (hexists : s.fs.isFile p = true) : (s.unlink gone).1.isTracked file = true := by
  have hsetup := sameSetup_evicting s gone
  rw [fst_unlink]
  exact isTracked_foldl_retracked_of_canCompile (isOrdered_evicting hs gone) (h.evicting gone) hp
    (by rwa [hsetup.absolute]) (by rwa [hsetup.fs])

/-- Of the files that can be compiled, an event loses only those that it takes away. -/
theorem isTracked_handle_or_drops (hroot : s.compiler.root.isAbsolute = true)
    (hs : s.store.IsOrdered) (h : s.CanCompile file) (hfile : s.isTracked file = true)
    (e : FileEvent) : (s.handle e).1.isTracked file = true ∨ s.Drops e (s.absolute file) := by
  by_cases hevicted : ∀ q ∈ s.evictedBy e, s.absolute q ≠ s.absolute file
  · left
    have hkept := isOrdered_kept hs e
    rw [isTracked_eq_of_sameSetup (sameSetup_handle s e)]
    exact (trail_handle (hands_true s.compiler s.fs) e hkept trivial fun _ _ _ ↦
      trivial).isTracked hkept (isTracked_kept hroot (isPlace_absolute hroot file) hevicted hfile)
  · push Not at hevicted
    by_cases hmissing : ∀ q ∈ s.evictedBy e, s.absolute q = s.absolute file → s.fs.isFile q = false
    · exact .inr (.astray hevicted hmissing)
    · push Not at hmissing
      obtain ⟨q, hq, hplace, hexists⟩ := hmissing
      rw [ne_eq, Bool.not_eq_false] at hexists
      -- The file is the file of the event, or it was evicted behind it.
      have hwhere : q ∈ s.evictedWith e.file →
          s.absolute e.file = s.absolute file ∨ q ∈ (s.evictedWith e.file).tail := by
        obtain ⟨rest, hrest⟩ := evictedWith_eq_cons s e.file
        rw [hrest]
        refine fun hq ↦ (List.mem_cons.1 hq).imp_left ?_
        rintro rfl
        rwa [absolute_eq (isPlace_absolute hroot e.file)] at hplace
      unfold Session.handle
      cases hchange : e.change with
      | init => simp [evictedBy, hchange] at hq
      | add => simp [evictedBy, hchange] at hq
      | change =>
        by_cases htrack : ((s.evicting e.file).track e.file).2 = .ok ()
        · left
          rw [evictedBy, hchange] at hq
          rcases hwhere hq with hself | htail
          · exact isTracked_change_of_track hs htrack hself
          · exact isTracked_change_of_evicted hs h htrack htail hplace hexists
        · exact .inr (.stopped hchange htrack hevicted)
      | unlink =>
        rw [evictedBy, hchange] at hq
        rcases hwhere hq with hself | htail
        · exact .inr (.gone hchange hself)
        · exact .inl (isTracked_unlink_of_evicted hs h htail hplace hexists)

/-! ## Batches -/

theorem isTracked_process (s : Session) (events : List FileEvent) (file : Path) :
    (s.process events).1.isTracked file = (s.heard events).isTracked file := by
  obtain ⟨-, hcompiler, hmodules⟩ := process_heard s events
  rw [isTracked, isTracked, absolute, absolute, isTracked_eq, isTracked_eq, hcompiler, hmodules]

theorem isOrdered_heard (hs : s.store.IsOrdered) (events : List FileEvent) :
    (s.heard events).store.IsOrdered :=
  heard_preserves (P := fun s ↦ s.store.IsOrdered) (fun _ e _ h ↦ isOrdered_handle h e) events hs

theorem CanCompile.heard (h : s.CanCompile file) (events : List FileEvent) :
    (s.heard events).CanCompile file :=
  heard_preserves (P := fun s ↦ s.CanCompile file) (fun _ e _ h ↦ h.handle e) events h

/-- While a batch goes on no module becomes old. -/
theorem isCurrent_heard (hs : s.store.IsOrdered) (events : List FileEvent)
    (h : s.store.IsCurrent s.compiler s.fs p) :
    (s.heard events).store.IsCurrent s.compiler s.fs p := by
  refine (heard_preserves (P := fun s' ↦ s.SameSetup s' ∧ s'.store.IsOrdered ∧
    s'.store.IsCurrent s.compiler s.fs p) ?_ events ⟨.refl s, hs, h⟩).2.2
  rintro s' e - ⟨hsetup, hs', h'⟩
  rw [← hsetup.compiler, ← hsetup.fs] at h' ⊢
  exact ⟨hsetup.trans (sameSetup_handle s' e), isOrdered_handle hs' e,
    isCurrent_handle hs' e fun m hm ↦ h' m (get?_of_kept hm)⟩

/-- While a batch goes on, a file that can be compiled stays tracked until an event takes it away. -/
theorem isTracked_heard_or_drops (hroot : s.compiler.root.isAbsolute = true)
    (hs : s.store.IsOrdered) (h : s.CanCompile file) (hfile : s.isTracked file = true)
    (events : List FileEvent) : (s.heard events).isTracked file = true ∨
      ∃ before e after, events = before ++ e :: after ∧ s.options.handles e.file = true ∧
        (s.heard before).Drops e (s.absolute file) := by
  induction events generalizing s with
  | nil => exact .inl hfile
  | cons e events ih =>
    have hsetup := sameSetup_handle s e
    rw [heard_cons]
    split
    next hhandles =>
      rcases isTracked_handle_or_drops hroot hs h hfile e with htracked | hdrops
      · refine (ih (hsetup.compiler ▸ hroot) (isOrdered_handle hs e) (h.handle e) htracked).imp_right
          fun ⟨before, e', after, heq, hhandles', hdrops⟩ ↦ ⟨e :: before, e', after, ?_, ?_, ?_⟩
        · rw [heq, List.cons_append]
        · rwa [hsetup.options] at hhandles'
        · rwa [heard_cons, if_pos hhandles, ← hsetup.absolute]
      · exact .inr ⟨[], e, events, rfl, hhandles, hdrops⟩
    next hskips =>
      refine (ih hroot hs h hfile).imp_right
        fun ⟨before, e', after, heq, hhandles', hdrops⟩ ↦ ⟨e :: before, e', after, ?_, hhandles', ?_⟩
      · rw [heq, List.cons_append]
      · rwa [heard_cons, if_neg hskips]

/-- Whatever happened to a session before, after a batch with a change of a file of the project the
module of the file, if there is one, was compiled from the disk as it is.  There is one if the file
can be compiled, unless an event behind the change took it away. -/
theorem current_after_change {o : Options} {extras : Extras} {fs : FileSystem} {start s : Session}
    {origin : Path → FileSystem} (hstart : Session.start fs o extras = .ok start)
    (habsolute : ∀ d, fs.workingDirectory = .ok d → d.isAbsolute = true)
    (h : Reached (fun _ ↦ True) start s origin) {file : Path}
    (hhandles : s.options.handles file = true) (before later : List FileEvent) :
    (∀ m, (s.process (before ++ ⟨.change, file⟩ :: later)).1.store.modules.get?
        (s.absolute file) = some m → IsMadeOn s.compiler s.fs (s.absolute file) m) ∧
    (s.CanCompile file →
      (s.process (before ++ ⟨.change, file⟩ :: later)).1.isTracked file = true ∨
      ∃ earlier e after, later = earlier ++ e :: after ∧ s.options.handles e.file = true ∧
        (s.heard (before ++ ⟨.change, file⟩ :: earlier)).Drops e (s.absolute file)) := by
  have hroot : s.compiler.root.isAbsolute = true :=
    h.compiler_eq ▸ isAbsolute_root_of_start hstart habsolute
  have hs : s.store.IsOrdered := h.isOrdered (by
    obtain ⟨d, out, -, -, rfl⟩ := start_eq_ok hstart
    exact isOrdered_empty)
  have hsetup := sameSetup_heard s before
  have hs' := isOrdered_heard hs before
  have hroot' : (s.heard before).compiler.root.isAbsolute = true := hsetup.compiler ▸ hroot
  -- The session right after the change.
  set changed := ((s.heard before).handle ⟨.change, file⟩).1
  have hchangedSetup : s.SameSetup changed := hsetup.trans (sameSetup_handle _ _)
  have hchangedOrdered : changed.store.IsOrdered := isOrdered_handle hs' _
  have hheard : ∀ events, s.heard (before ++ ⟨.change, file⟩ :: events) = changed.heard events := by
    intro events
    rw [heard_append, heard_cons, if_pos (by rwa [hsetup.options])]
  constructor
  · rw [(process_heard _ _).2.2, hheard]
    have hcurrent := isCurrent_change hroot' hs' file
    rw [hsetup.compiler, hsetup.fs, hsetup.absolute] at hcurrent
    rw [← hchangedSetup.compiler, ← hchangedSetup.fs] at hcurrent ⊢
    exact isCurrent_heard hchangedOrdered later hcurrent
  · intro hcompiles
    have hcompiles' := hcompiles.heard before
    have htracked : changed.isTracked file = true :=
      isTracked_change_of_track hs' (hcompiles'.evicting file).track_eq_ok rfl
    rw [isTracked_process, hheard]
    refine (isTracked_heard_or_drops (hchangedSetup.compiler ▸ hroot) hchangedOrdered
      (hcompiles'.handle _) htracked later).imp_right
      fun ⟨earlier, e, after, heq, hhandled, hdrops⟩ ↦ ⟨earlier, e, after, heq, ?_, ?_⟩
    · rwa [hchangedSetup.options] at hhandled
    · rwa [hheard, ← hchangedSetup.absolute]

namespace Sample

/-- The session that has not heard yet that the first file does not import the second one any
more. -/
def unaware : Session := { (start.handle ⟨.init, ⟨"a.mcss"⟩⟩).1 with fs := apart }

theorem reached_unaware : ∃ origin, Reached start.compiler.Suits start unaware origin :=
  ⟨_, (Reached.event (.start : Reached _ start _ _) (starts.fs_eq ▸ admits_before.toSuits)
    ⟨.init, ⟨"a.mcss"⟩⟩).edit apart⟩

end Sample

/-- The change of a file that does not import another one any more is seen. -/
theorem current_after_change_sample :
    ∃ m, (Sample.unaware.process [⟨.change, ⟨"a.mcss"⟩⟩]).1.store.modules.get? ⟨"/a.mcss"⟩ = some m ∧
      IsMadeOn Sample.unaware.compiler Sample.apart ⟨"/a.mcss"⟩ m := by
  obtain ⟨origin, hreached⟩ := Sample.reached_unaware
  obtain ⟨hcurrent, htracked⟩ := current_after_change Sample.starts.start
    Sample.starts.isAbsolute (hreached.mono fun _ _ ↦ trivial)
    (by decide +kernel : Sample.unaware.options.handles ⟨"a.mcss"⟩ = true) [] []
  rw [List.nil_append] at hcurrent htracked
  rcases htracked (canCompile_of_track_empty Sample.starts hreached Sample.suits_apart
    (by decide +kernel)) with hdone | ⟨earlier, e, after, heq, -⟩
  · rw [isTracked_process, isTracked_eq_of_sameSetup (sameSetup_heard _ _)] at hdone
    obtain ⟨m, hm⟩ := isTracked_iff.1 hdone
    rw [← (process_heard _ _).2.2] at hm
    have hplace : Sample.unaware.absolute ⟨"a.mcss"⟩ = ⟨"/a.mcss"⟩ := by decide +kernel
    have hfs : Sample.unaware.fs = Sample.apart := rfl
    rw [hplace] at hm
    rw [hplace, hfs] at hcurrent
    exact ⟨m, hm, hcurrent m hm⟩
  · simp at heq

namespace Sample

/-- A file composes from another one, which does not belong to the project. -/
def loose : FileSystem :=
  disk [("/a.mcss", rule ".a" "composes: b from './b.css'"), ("/b.css", rule ".b" "")]

/-- The class of the other file has got another name. -/
def renamed : FileSystem :=
  disk [("/a.mcss", rule ".a" "composes: b from './b.css'"), ("/b.css", rule ".c" "")]

theorem isSome_startLoose : (Session.start loose options .none).toOption.isSome = true :=
  isSome_start_disk _

def startLoose : Session := (Session.start loose options .none).toOption.get isSome_startLoose

/-- The session that has not heard of the change. -/
def unmoved : Session :=
  { (startLoose.handle ⟨.init, ⟨"a.mcss"⟩⟩).1 with fs := renamed }

end Sample

/-- The change of a file that does not belong to the project is not seen; and a file that is said
to be gone is not tracked, though it is there and its change was seen before. -/
theorem current_after_change_fails :
    (Sample.unmoved.isTracked ⟨"b.css"⟩ = true ∧
      (ModuleStore.track Sample.unmoved.compiler Sample.renamed ⟨"b.css"⟩ .empty).2 = .ok () ∧
      (Sample.unmoved.process [⟨.change, ⟨"b.css"⟩⟩]).1.store.composition? ⟨"/b.css"⟩ ≠
        (ModuleStore.track Sample.unmoved.compiler Sample.renamed ⟨"b.css"⟩
          .empty).1.composition? ⟨"/b.css"⟩) ∧
    (Sample.unaware.isTracked ⟨"a.mcss"⟩ = true ∧
      (ModuleStore.track Sample.unaware.compiler Sample.apart ⟨"a.mcss"⟩ .empty).2 = .ok () ∧
      (Sample.unaware.process [⟨.change, ⟨"a.mcss"⟩⟩, ⟨.unlink, ⟨"a.mcss"⟩⟩]).1.isTracked
        ⟨"a.mcss"⟩ = false) := by
  rw [composition?_eq, (process_heard _ _).2.2, ← composition?_eq, isTracked_process]
  decide +kernel

end Session

end StyleModules
