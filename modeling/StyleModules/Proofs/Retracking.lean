import StyleModules.Proofs.Restoring

/-!
# Which files an event can lose

An event evicts more than its own file, and compiles the rest again afterwards.  Where that is done
every file that compiles comes back.  It is left out in one case: the file of a change does not
compile.  Then exactly those files are lost that were evicted with it and that the failed attempt
did not happen to track.
-/

namespace StyleModules.Session

open ModuleStore

/-- Handling events keeps all paths in the store places, whatever is on the disks. -/
theorem Reached.isTidy {start s : Session} {origin : Path → FileSystem}
    (hc : start.compiler.IsRegular) (hstore : start.store.IsTidy)
    (h : Reached start.compiler.Suits start s origin) :
    s.compiler = start.compiler ∧ s.store.IsTidy := by
  induction h with
  | start => exact ⟨rfl, hstore⟩
  | edit _ fs ih => exact ih
  | @event s _ _ hfs e ih =>
    obtain ⟨hcompiler, htidy⟩ := ih
    refine ⟨(sameSetup_handle s e).compiler.trans hcompiler, ?_⟩
    have hc' : s.compiler.IsRegular := hcompiler ▸ hc
    have hkept := (evicted_kept hc'.root htidy e).isTidy
    exact (steps_handle (A := fun _ ↦ True) hc' (hcompiler ▸ hfs) htidy (fun _ _ _ _ _ ↦ trivial) e
      (fun _ _ ↦ trivial)).isTidy hc' (hcompiler ▸ hfs) hkept
  | @evict s _ _ file ih =>
    exact ⟨(sameSetup_evicting s file).compiler.trans ih.1,
      (evicted_evicting (ih.1 ▸ hc.root) ih.2 file).isTidy⟩
  | @writeBundle s _ _ ih =>
    obtain ⟨-, hcompiler, halike⟩ := writeBundle_spec (s := s) (ih.1 ▸ hc.keepsLedger)
    exact ⟨hcompiler.trans ih.1, halike.isTidy ih.2⟩
  | @writeMaps s _ _ ih =>
    obtain ⟨-, hcompiler, hstore⟩ := writeMaps_spec s
    exact ⟨hcompiler.trans ih.1, hstore ▸ ih.2⟩

section Retracking

variable {s : Session} (hc : s.compiler.IsRegular) (hfs : s.compiler.Suits s.fs)
  (hs : s.store.IsTidy) {file g : Path}

include hc hfs hs

/-- If the other files are compiled again from a session in which nothing is missing but what was
evicted, then each of them that compiles is tracked. -/
theorem isTracked_retracked_tail {s' : Session} (hsetup : s.SameSetup s') (hs' : s'.store.IsTidy)
    (hkept : ∀ p : Path, p.IsPlace → (s.evicting file).store.isTracked p = true →
      s'.store.isTracked p = true)
    (hne : s.absolute g ≠ s.absolute file) (hg : s.isTracked g = true)
    (hexists : s.fs.isFile (s.absolute g) = true)
    (haccepts : s.compiler.Accepts s.fs (s.absolute g)) :
    ((s.evictedWith file).tail.foldl retracked s').store.isTracked (s.absolute g) = true := by
  have hgPlace : (s.absolute g).IsPlace := Compiler.isPlace_absolute hc g
  have hplaces : ∀ p ∈ (s.evictedWith file).tail, p.IsPlace := fun p hp ↦
    ((evictedWith_spec hc.root hs file).2 p (List.mem_of_mem_tail hp)).1
  have hc' : s'.compiler.IsRegular := hsetup.compiler ▸ hc
  have hfs' : s'.compiler.Suits s'.fs := by rwa [hsetup.compiler, hsetup.fs]
  by_cases hmem : s.absolute g ∈ s.evictedWith file
  · obtain ⟨⟨rest, hrest⟩, -⟩ := evictedWith_spec hc.root hs file
    have htail : s.absolute g ∈ (s.evictedWith file).tail := by
      rw [hrest] at hmem ⊢
      exact (List.mem_cons.1 hmem).resolve_left hne
    have htracked := isTracked_foldl_retracked hc' hfs' hs' hplaces htail (by rwa [hsetup.fs])
      (by rwa [hsetup.compiler, hsetup.fs])
    rwa [isTracked, absolute_eq hgPlace] at htracked
  · have htracked := ((evicted_evicting hc.root hs file).isTracked_iff hgPlace).2 ⟨hg, hmem⟩
    exact (steps_foldl_retracked (A := fun _ ↦ True) hc' hfs' hs' (fun _ _ _ _ _ ↦ trivial)
      fun p hp ↦ ⟨hplaces p hp, trivial⟩).isTracked hgPlace (hkept _ hgPlace htracked)

/-- Tracking a file in a session from which files were evicted only adds to what was kept. -/
theorem isTracked_track_evicting {p : Path} (hp : p.IsPlace)
    (htracked : (s.evicting file).store.isTracked p = true) :
    ((s.evicting file).track file).1.store.isTracked p = true := by
  have hsetup := sameSetup_evicting s file
  exact (track_steps_all (hsetup.compiler ▸ hc) (by rwa [hsetup.compiler, hsetup.fs])
    (evicted_evicting hc.root hs file).isTidy file).isTracked hp htracked

theorem isTracked_change_iff (hne : s.absolute g ≠ s.absolute file) (hg : s.isTracked g = true)
    (hexists : s.fs.isFile (s.absolute g) = true)
    (haccepts : s.compiler.Accepts s.fs (s.absolute g)) :
    (s.change file).1.isTracked g = true ↔ ((s.evicting file).track file).2 = .ok () ∨
      s.absolute g ∉ s.evictedWith file ∨ ((s.evicting file).track file).1.isTracked g = true := by
  have hsetup := (sameSetup_evicting s file).trans (sameSetup_track (s.evicting file) file)
  have hgPlace : (s.absolute g).IsPlace := Compiler.isPlace_absolute hc g
  cases htrack : ((s.evicting file).track file).2 with
  | ok u =>
    refine iff_of_true ?_ (.inl rfl)
    have hset := (sameSetup_evicting s file).compiler
    have htidy : ((s.evicting file).track file).1.store.IsTidy :=
      (track_steps_all (hset ▸ hc) (by rwa [hset, (sameSetup_evicting s file).fs])
        (evicted_evicting hc.root hs file).isTidy file).isTidy (hset ▸ hc)
        (by rwa [hset, (sameSetup_evicting s file).fs]) (evicted_evicting hc.root hs file).isTidy
    rw [fst_change_ok htrack,
      isTracked_eq_of_sameSetup (hsetup.trans (sameSetup_foldl_retracked _ _))]
    exact isTracked_retracked_tail hc hfs hs hsetup htidy
      (fun p hp ↦ isTracked_track_evicting hc hfs hs hp) hne hg hexists haccepts
  | error fault =>
    rw [fst_change_error htrack]
    refine ⟨fun h ↦ .inr (.inr h), ?_⟩
    rintro (h | h | h)
    · simp at h
    · rw [isTracked_eq_of_sameSetup hsetup]
      exact isTracked_track_evicting hc hfs hs hgPlace
        (((evicted_evicting hc.root hs file).isTracked_iff hgPlace).2 ⟨hg, h⟩)
    · exact h

/-- The file of an event that compiles is tracked, unless the event says that it is gone. -/
theorem isTracked_handle_self {e : FileEvent} (hok : e.change = .change →
      ((s.evicting e.file).track e.file).2 = .ok ()) (hgone : e.change ≠ .unlink)
    (haccepts : s.compiler.Accepts s.fs (s.absolute e.file)) :
    (s.handle e).1.isTracked e.file = true := by
  have htrack := isTracked_track hc hfs hs e.file (track_ok hc hfs hs e.file haccepts)
  unfold handle
  cases hchange : e.change with
  | init => exact htrack
  | add => exact htrack
  | change => exact isTracked_change_of_track hs.isOrdered (hok hchange) rfl
  | unlink => exact absurd hchange hgone

theorem isTracked_unlink (hne : s.absolute g ≠ s.absolute file) (hg : s.isTracked g = true)
    (hexists : s.fs.isFile (s.absolute g) = true)
    (haccepts : s.compiler.Accepts s.fs (s.absolute g)) :
    (s.unlink file).1.isTracked g = true := by
  have hsetup := sameSetup_evicting s file
  have htracked := isTracked_retracked_tail hc hfs hs hsetup (evicted_evicting hc.root hs file).isTidy
    (fun p _ h ↦ h) hne hg hexists haccepts
  rw [fst_unlink]
  change ((s.evictedWith file).tail.foldl retracked (s.evicting file)).isTracked g = true
  rwa [isTracked_eq_of_sameSetup (hsetup.trans (sameSetup_foldl_retracked _ _))]

/-- Unless the file of a change does not compile, an event keeps every file that compiles and is
not itself gone. -/
theorem isTracked_handle {e : FileEvent} (hok : e.change = .change →
      ((s.evicting e.file).track e.file).2 = .ok ())
    (hgone : e.change = .unlink → s.absolute g ≠ s.absolute e.file) (hg : s.isTracked g = true)
    (hexists : s.fs.isFile (s.absolute g) = true)
    (haccepts : s.compiler.Accepts s.fs (s.absolute g)) :
    (s.handle e).1.isTracked g = true := by
  have hgPlace : (s.absolute g).IsPlace := Compiler.isPlace_absolute hc g
  have htrack : (s.track e.file).1.isTracked g = true :=
    (track_steps_all hc hfs hs e.file).isTracked hgPlace hg
  unfold handle
  cases hchange : e.change with
  | init => exact htrack
  | add => exact htrack
  | change =>
    by_cases hself : s.absolute g = s.absolute e.file
    · exact isTracked_change_of_track hs.isOrdered (hok hchange) hself.symm
    · exact (isTracked_change_iff hc hfs hs hself hg hexists haccepts).2 (.inl (hok hchange))
  | unlink => exact isTracked_unlink hc hfs hs (hgone hchange) hg hexists haccepts

end Retracking

/-- Of the files that still compile, an event loses exactly those that were evicted with a changed
file that does not compile, unless the failed attempt tracked them. -/
theorem isTracked_handle_eq_false_iff {o : Options} {extras : Extras} {fs : FileSystem}
    {start s : Session} {origin : Path → FileSystem} (hstart : Starts o extras fs start)
    (h : Reached start.compiler.Suits start s origin) (hfs : start.compiler.Suits s.fs)
    (e : FileEvent) (hchange : e.change = .change ∨ e.change = .unlink) (g : Path)
    (hne : s.absolute g ≠ s.absolute e.file) (hg : s.isTracked g = true)
    (hexists : s.fs.isFile (s.absolute g) = true)
    (haccepts : (ModuleStore.track s.compiler s.fs g .empty).2 = .ok ()) :
    (s.handle e).1.isTracked g = false ↔
      e.change = .change ∧ ((s.evicting e.file).track e.file).2 ≠ .ok () ∧
        s.absolute g ∈ s.evictedWith e.file ∧
        ((s.evicting e.file).track e.file).1.isTracked g = false := by
  obtain ⟨hcompiler, hs⟩ := h.isTidy hstart.isRegular (hstart.store_eq ▸ isTidy_empty)
  have hc : s.compiler.IsRegular := hcompiler ▸ hstart.isRegular
  rw [← hcompiler] at hfs
  have haccepts' := (track_empty_ok_iff hc hfs g).1 haccepts
  unfold handle
  rcases hchange with hchange | hchange
  · have hiff := isTracked_change_iff hc hfs hs hne hg hexists haccepts'
    simp only [hchange, true_and]
    rw [← Bool.not_eq_true, hiff, not_or, not_or, not_not, Bool.not_eq_true]
  · have hunlink := isTracked_unlink hc hfs hs hne hg hexists haccepts'
    simp only [hchange, reduceCtorEq, false_and, iff_false]
    rw [hunlink]
    exact Bool.noConfusion

namespace Sample

/-- The first file does not import the second one any more. -/
def apart : FileSystem := disk [("/a.mcss", ""), ("/b.mcss", "")]

/-- The second file imports a file that does not exist. -/
def broken : FileSystem := disk [("/a.mcss", ""), ("/b.mcss", "@import 'x'")]

theorem suits_apart : start.compiler.Suits apart :=
  Compiler.suits_of_files (isKeyed_disk _) (by decide +kernel) (by decide +kernel)

theorem suits_broken : start.compiler.Suits broken :=
  Compiler.suits_of_files (isKeyed_disk _) (by decide +kernel) (by decide +kernel)

/-- The session that saw the import go away. -/
def unlinked : Session :=
  { ({ (start.handle ⟨.init, ⟨"a.mcss"⟩⟩).1 with fs := apart }.handle
      ⟨.change, ⟨"a.mcss"⟩⟩).1 with fs := broken }

theorem reached_unlinked : ∃ origin, Reached start.compiler.Suits start unlinked origin := by
  have hfirst := Reached.event (.start : Reached _ start _ _)
    (starts.fs_eq ▸ admits_before.toSuits) ⟨.init, ⟨"a.mcss"⟩⟩
  exact ⟨_, ((hfirst.edit apart).event suits_apart ⟨.change, ⟨"a.mcss"⟩⟩).edit broken⟩

end Sample

/-- The ledger still says that `a` was made from `b`, so a change of `b` that does not compile
loses `a`. -/
theorem isTracked_handle_eq_false_iff_sample :
    Sample.unlinked.isTracked ⟨"a.mcss"⟩ = true ∧
      (ModuleStore.track Sample.unlinked.compiler Sample.unlinked.fs ⟨"a.mcss"⟩ .empty).2 = .ok () ∧
      (Sample.unlinked.handle ⟨.change, ⟨"b.mcss"⟩⟩).1.isTracked ⟨"a.mcss"⟩ = false := by
  obtain ⟨origin, hreached⟩ := Sample.reached_unlinked
  obtain ⟨hg, hexists, haccepts, hne, hfails, htree, hlost⟩ :
      Sample.unlinked.isTracked ⟨"a.mcss"⟩ = true ∧
        Sample.unlinked.fs.isFile (Sample.unlinked.absolute ⟨"a.mcss"⟩) = true ∧
        (ModuleStore.track Sample.unlinked.compiler Sample.unlinked.fs ⟨"a.mcss"⟩ .empty).2 =
          .ok () ∧
        Sample.unlinked.absolute ⟨"a.mcss"⟩ ≠ Sample.unlinked.absolute ⟨"b.mcss"⟩ ∧
        ((Sample.unlinked.evicting ⟨"b.mcss"⟩).track ⟨"b.mcss"⟩).2 ≠ .ok () ∧
        Sample.unlinked.absolute ⟨"a.mcss"⟩ ∈ Sample.unlinked.evictedWith ⟨"b.mcss"⟩ ∧
        ((Sample.unlinked.evicting ⟨"b.mcss"⟩).track ⟨"b.mcss"⟩).1.isTracked ⟨"a.mcss"⟩ =
          false := by
    decide +kernel
  exact ⟨hg, haccepts, (isTracked_handle_eq_false_iff Sample.starts hreached Sample.suits_broken
    ⟨.change, ⟨"b.mcss"⟩⟩ (.inl rfl) ⟨"a.mcss"⟩ hne hg hexists haccepts).2
      ⟨rfl, hfails, htree, hlost⟩⟩

end StyleModules.Session
