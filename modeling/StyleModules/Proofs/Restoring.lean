import StyleModules.Proofs.History

/-!
# What is compiled again

A change or a deletion evicts a tree of files, and what exists of the tree is compiled again.  The
tree holds tracked files and importers, and importers need not be tracked: a file that was only
ever inlined is in the tree as soon as something that it imports changes.  It is compiled like the
others and is a module of its own from then on.
-/

namespace StyleModules

open Relation ModuleStore

namespace ModuleStore

variable {c : Compiler} {fs : FileSystem} {A : Path → Prop} {s s' : ModuleStore}
  {ks : List Compilation} {p : Path}

/-- What is newly tracked was compiled. -/
theorem Trail.isTracked_or (h : Trail c fs A s ks s') (hs : s.IsOrdered)
    (hp : s'.isTracked p = true) : s.isTracked p = true ∨ ∃ x, A x ∧ x.Same p := by
  by_cases hknown : ∃ k ∈ ks, p.Same k.file
  · obtain ⟨k, hk, hsame⟩ := hknown
    exact .inr ⟨k.file, (h.ready hs k hk).1, hsame.symm⟩
  · left
    rw [isTracked_eq, ← h.get?_eq_of_apart hs fun k hk hsame ↦ hknown ⟨k, hk, hsame⟩, ← isTracked_eq]
    exact hp

end ModuleStore

namespace Session

variable {s : Session} {e : FileEvent} {file p : Path}

/-- The places that an event sets out to compile: that of its own file, those of the tracked files
that were evicted, and those of the evicted importers, tracked or not. -/
inductive Retried (s : Session) (e : FileEvent) : Path → Prop
  | self : Retried s e (s.absolute e.file)
  | tracked {p : Path} (evicted : p ∈ s.evictedWith e.file) (tracked : s.store.isTracked p = true) :
      Retried s e (s.absolute p)
  | importer {p q : Path} (imported : q ∈ s.evictedWith e.file) (imports : p ∈ s.importers q)
      (exists_ : s.fs.isFile p = true) : Retried s e (s.absolute p)

theorem not_mem_tail_evictedWith (s : Session) (file : Path) :
    s.absolute file ∉ (s.evictedWith file).tail := by
  have hdistinct : Path.AreDistinct (s.evictedWith file) :=
    (walk_evictedWith s file).areDistinct (fun _ ↦ id) List.nodup_nil
  obtain ⟨rest, hrest⟩ := evictedWith_eq_cons s file
  rw [hrest] at hdistinct ⊢
  exact fun hmem ↦ (List.nodup_cons.1 hdistinct).1 (List.mem_map_of_mem hmem)

/-- Behind the file itself the tree holds tracked files and importers. -/
theorem retried_of_mem_tail (hp : p ∈ (s.evictedWith e.file).tail)
    (hexists : s.fs.isFile p = true) : s.Retried e (s.absolute p) := by
  have hmem := List.mem_of_mem_tail hp
  rcases (walk_evictedWith s e.file).mem_next p hmem with hself | ⟨q, hq, hnext⟩
  · obtain rfl := List.mem_singleton.1 hself
    exact absurd hp (not_mem_tail_evictedWith s e.file)
  · rcases List.mem_append.1 hnext with hdependent | hparent
    · refine .tracked hmem ?_
      change p ∈ (s.store.dependents s.compiler q).toOption.getD [] at hdependent
      unfold dependents at hdependent
      simp only at hdependent
      split at hdependent
      next => exact (List.mem_filter.1 hdependent).2
      next => simp [Except.toOption] at hdependent
    · exact .importer hq hparent hexists

theorem isTracked_of_kept (h : (s.kept e).store.isTracked p = true) :
    s.store.isTracked p = true := by
  obtain ⟨m, hm⟩ := isTracked_iff.1 h
  exact isTracked_iff.2 ⟨m, get?_of_kept hm⟩

/-- What is tracked after an event was tracked before, or is composed from, in some steps, by what
the event set out to compile. -/
theorem isTracked_or_of_handle (hs : s.store.IsOrdered) {g : Path}
    (hg : (s.handle e).1.isTracked g = true) : s.isTracked g = true ∨
      ∃ p x, s.Retried e p ∧ ReflTransGen (s.compiler.MayCompose s.fs) p x ∧
        x.Same (s.absolute g) := by
  have hkept := isOrdered_kept hs e
  have htrail := trail_handle
    (A := fun x ↦ ∃ p, s.Retried e p ∧ ReflTransGen (s.compiler.MayCompose s.fs) p x)
    (fun p q ⟨r, hr, hpath⟩ hpq _ ↦ ⟨r, hr, hpath.tail hpq⟩) e hkept
    ⟨_, .self, ReflTransGen.refl⟩
    fun p hp hexists ↦ ⟨_, retried_of_mem_tail hp hexists, ReflTransGen.refl⟩
  unfold isTracked at hg ⊢
  rw [(sameSetup_handle s e).absolute] at hg
  rcases htrail.isTracked_or hkept hg with hbefore | ⟨x, ⟨p, hp, hpath⟩, hsame⟩
  · exact .inl (isTracked_of_kept hbefore)
  · exact .inr ⟨p, x, hp, hpath, hsame⟩

theorem isTracked_of_track_eq_ok (hs : s.store.IsOrdered) (h : (s.track file).2 = .ok ()) :
    (s.track file).1.isTracked file = true := by
  have hsettles : (trackFrom s.compiler s.fs s.fs.chainLimit [] (s.absolute file) s.store).2 =
      .ok () → Settles [] (s.absolute file)
        (trackFrom s.compiler s.fs s.fs.chainLimit [] (s.absolute file) s.store).1 _ :=
    (trackFrom_trail (hands_true _ _) _ trivial (List.forall_mem_nil _) hs).2.2
  exact (hsettles h).tracked.resolve_right (by simp)

theorem isOrdered_retracked (hs : s.store.IsOrdered) (p : Path) :
    (s.retracked p).store.IsOrdered :=
  (trail_retracked (hands_true s.compiler s.fs) hs fun _ ↦ trivial).isOrdered hs

theorem isTracked_foldl_retracked_of_isTracked (hs : s.store.IsOrdered) (files : List Path)
    (hp : s.isTracked p = true) : (files.foldl retracked s).isTracked p = true := by
  have hsetup := sameSetup_foldl_retracked files s
  unfold isTracked at hp ⊢
  rw [hsetup.absolute]
  exact (trail_foldl_retracked (hands_true s.compiler s.fs) hs fun _ _ _ ↦ trivial).isTracked hs hp

/-- A changed file that compiles is tracked. -/
theorem isTracked_change_of_track (hs : s.store.IsOrdered) {changed : Path}
    (htrack : ((s.evicting changed).track changed).2 = .ok ())
    (hplace : s.absolute changed = s.absolute file) : (s.change changed).1.isTracked file = true := by
  have hevicting := isOrdered_evicting hs changed
  have hself : (s.change changed).1.isTracked changed = true := by
    rw [fst_change_ok htrack]
    exact isTracked_foldl_retracked_of_isTracked ((trail_track (hands_true _ _) hevicting
      trivial).isOrdered hevicting) _ (isTracked_of_track_eq_ok hevicting htrack)
  have hsetup : s.SameSetup (s.change changed).1 := sameSetup_handle s ⟨.change, changed⟩
  rwa [isTracked_eq_of_sameSetup hsetup, hplace, ← isTracked_eq_of_sameSetup hsetup] at hself

theorem prefix_snd_retrackOne (files : List Path) (state : Session × List String) :
    state.2 <+: (files.foldl retrackOne state).2 := by
  induction files generalizing state with
  | nil => exact List.prefix_refl _
  | cons file files ih =>
    refine List.IsPrefix.trans ?_ (ih (retrackOne state file))
    obtain ⟨s, failures⟩ := state
    unfold retrackOne
    simp only
    split
    next => exact List.prefix_refl _
    next => split <;> simp

theorem isTracked_retracked_of_no_failure (hs : s.store.IsOrdered)
    (h : (retrackOne (s, []) p).2 = []) (hexists : s.fs.isFile p = true) :
    (s.retracked p).isTracked p = true := by
  unfold retrackOne at h
  unfold retracked
  simp only at h
  split at h
  next hdone =>
    rw [if_pos hdone]
    simpa [hexists] using hdone
  next hopen =>
    rw [if_neg hopen]
    refine isTracked_of_track_eq_ok hs ?_
    rcases htrack : s.track p with ⟨s', fault | u⟩
    · simp [htrack] at h
    · rfl

/-- If no evicted file fails, all of them that exist are tracked afterwards. -/
theorem isTracked_foldl_retracked_of_no_failures (hs : s.store.IsOrdered) {files : List Path}
    (h : (files.foldl retrackOne (s, [])).2 = []) (hp : p ∈ files)
    (hexists : s.fs.isFile p = true) : (files.foldl retracked s).isTracked p = true := by
  induction files generalizing s with
  | nil => simp at hp
  | cons file files ih =>
    have hsetup := sameSetup_retracked s file
    have hordered := isOrdered_retracked hs file
    have hfirst : (retrackOne (s, []) file).2 = [] := by
      have hprefix := prefix_snd_retrackOne files (retrackOne (s, []) file)
      rw [List.foldl_cons] at h
      rwa [h, List.prefix_nil] at hprefix
    rcases List.mem_cons.1 hp with rfl | hp
    · exact isTracked_foldl_retracked_of_isTracked hordered files
        (isTracked_retracked_of_no_failure hs hfirst hexists)
    · have hstep : retrackOne (s, []) file = (s.retracked file, []) :=
        Prod.ext (fst_retrackOne s [] file) hfirst
      rw [List.foldl_cons, hstep] at h
      exact ih hordered h hp (by rwa [hsetup.fs])

theorem isTracked_of_retrack_eq_ok (hs : s.store.IsOrdered) {files : List Path}
    (h : (s.retrack file files).2 = .ok ()) (hp : p ∈ files) (hexists : s.fs.isFile p = true) :
    (s.retrack file files).1.isTracked p = true := by
  rw [fst_retrack]
  refine isTracked_foldl_retracked_of_no_failures hs ?_ hp hexists
  unfold retrack at h
  split at h
  next heq => rw [heq]
  next => simp at h

/-- After a change or a deletion that was taken in without failures, all that exists of the tree is
tracked. -/
theorem isTracked_of_handle_eq_ok (hs : s.store.IsOrdered)
    (hchange : e.change = .change ∨ e.change = .unlink) (hok : (s.handle e).2 = .ok ())
    (hp : p ∈ (s.evictedWith e.file).tail) (hexists : s.fs.isFile p = true) :
    (s.handle e).1.isTracked p = true := by
  have hevicting := isOrdered_evicting hs e.file
  have hsetup := sameSetup_evicting s e.file
  unfold handle at hok ⊢
  rcases hchange with hchange | hchange
  · simp only [hchange] at hok ⊢
    rcases htrack : (s.evicting e.file).track e.file with ⟨s', fault | u⟩
    · unfold change at hok
      simp [evict_eq, htrack] at hok
    · rw [change_eq_retrack (by rw [htrack])] at hok ⊢
      exact isTracked_of_retrack_eq_ok ((trail_track (hands_true _ _) hevicting
        trivial).isOrdered hevicting) hok hp (by
          rwa [(hsetup.trans (sameSetup_track (s.evicting e.file) e.file)).fs])
  · simp only [hchange] at hok ⊢
    exact isTracked_of_retrack_eq_ok hevicting hok hp (by rwa [hsetup.fs])

/-- Whatever happened to a session before, what is tracked after a change or a deletion was tracked
before, or is composed from, in some steps, by the file itself, by an evicted file that was tracked,
or by an evicted importer.  And if nothing failed, then whatever exists of the evicted files is
tracked: also an importer that was only ever inlined. -/
theorem tracked_after_event {o : Options} {extras : Extras} {fs : FileSystem} {start s : Session}
    {origin : Path → FileSystem} (hstart : Session.start fs o extras = .ok start)
    (h : Reached (fun _ ↦ True) start s origin) (e : FileEvent)
    (hchange : e.change = .change ∨ e.change = .unlink) :
    (∀ g, (s.handle e).1.isTracked g = true → s.isTracked g = true ∨
      ∃ p x, s.Retried e p ∧ ReflTransGen (s.compiler.MayCompose s.fs) p x ∧
        x.Same (s.absolute g)) ∧
    ((s.handle e).2 = .ok () → ∀ p ∈ (s.evictedWith e.file).tail, s.fs.isFile p = true →
      (s.handle e).1.isTracked p = true) := by
  have hs : s.store.IsOrdered := h.isOrdered (by
    obtain ⟨d, out, -, -, rfl⟩ := start_eq_ok hstart
    exact isOrdered_empty)
  exact ⟨fun g hg ↦ isTracked_or_of_handle hs hg,
    fun hok p hp hexists ↦ isTracked_of_handle_eq_ok hs hchange hok hp hexists⟩

namespace Sample

/-- A file is inlined into the file that is inlined into the first one. -/
def nested : FileSystem :=
  disk [("/a.mcss", "@import 'b'"), ("/b.mcss", "@import 'c'"), ("/c.mcss", rule ".c" "top:0")]

theorem isSome_startNested : (Session.start nested options .none).toOption.isSome = true :=
  isSome_start_disk _

def startNested : Session :=
  (Session.start nested options .none).toOption.get isSome_startNested

def inlined : Session := (startNested.handle ⟨.init, ⟨"a.mcss"⟩⟩).1

end Sample

/-- Of three nested files only the first one is tracked, until the last one changes. -/
theorem tracked_after_event_sample :
    Sample.inlined.store.modules.keys = [⟨"/a.mcss"⟩] ∧
      (Sample.inlined.handle ⟨.change, ⟨"c.mcss"⟩⟩).1.isTracked ⟨"/b.mcss"⟩ = true ∧
      ∃ p x, Sample.inlined.Retried ⟨.change, ⟨"c.mcss"⟩⟩ p ∧
        ReflTransGen (Sample.inlined.compiler.MayCompose Sample.inlined.fs) p x ∧
        x.Same (Sample.inlined.absolute ⟨"/b.mcss"⟩) := by
  have hstart := Sample.eq_ok_get Sample.isSome_startNested
  have hreached := Reached.event (P := fun _ ↦ True) (.start : Reached _ Sample.startNested _ _)
    trivial ⟨.init, ⟨"a.mcss"⟩⟩
  obtain ⟨hkeys, hnew, hok, htree, hexists⟩ :
      Sample.inlined.store.modules.keys = [⟨"/a.mcss"⟩] ∧
        Sample.inlined.isTracked ⟨"/b.mcss"⟩ = false ∧
        (Sample.inlined.handle ⟨.change, ⟨"c.mcss"⟩⟩).2 = .ok () ∧
        ⟨"/b.mcss"⟩ ∈ (Sample.inlined.evictedWith ⟨"c.mcss"⟩).tail ∧
        Sample.inlined.fs.isFile ⟨"/b.mcss"⟩ = true := by
    decide +kernel
  obtain ⟨horigin, hagain⟩ :=
    tracked_after_event hstart hreached ⟨.change, ⟨"c.mcss"⟩⟩ (.inl rfl)
  have htracked := hagain hok ⟨"/b.mcss"⟩ htree hexists
  refine ⟨hkeys, htracked, (horigin _ htracked).resolve_left ?_⟩
  rw [Bool.not_eq_true]
  exact hnew

end Session

end StyleModules
