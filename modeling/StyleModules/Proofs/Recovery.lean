import StyleModules.Proofs.Incremental

/-!
# Recovery

While a file is broken or gone, its dependents may be lost, and they do not come back by themselves
when the file does: eviction has forgotten that they were made from it.  But nothing else changes.
What is tracked has the modules it had before, and once the dependents are told of again, the
session is as if nothing had happened.
-/

namespace StyleModules.Session

open Relation ModuleStore

/-- How a file that is unavailable is told of, and how its return is told of.  One that is still
there but broken changes twice, and one that is gone is unlinked and added. -/
inductive Outage : Bool → FileChange → FileChange → Prop
  | broken : Outage true .change .change
  | missing : Outage false .unlink .add

section Recovery

variable {o : Options} {c : Compiler} {known : List Path} {fs broken : FileSystem} {s : Session}
  {f : Path} {gone back : FileChange}

/-- The file of an outage is evicted when it becomes unavailable. -/
theorem Outage.evictedBy {there : Bool} (h : Outage there gone back) (s : Session) (f : Path) :
    s.evictedBy ⟨gone, f⟩ = s.evictedWith f := by
  cases h <;> rfl

/-- The return of a file evicts all that was made from it while it was broken. -/
theorem Outage.truthful (h : Outage (broken.isFile (c.absolute f)) gone back)
    (hexists : fs.isFile (c.absolute f) = true) :
    Truthful c fs (fun g ↦ g = c.absolute f ∧ broken.isFile g = true) ⟨back, f⟩ := by
  generalize hthere : broken.isFile (c.absolute f) = there at h
  cases h with
  | broken => exact ⟨fun _ ↦ hexists, nofun, fun _ ↦ .inl rfl⟩
  | missing => exact ⟨nofun, nofun, fun hstale ↦ absurd hstale.2 (by simp [hthere])⟩

section Interruption

variable (hc : s.compiler.IsRegular) (hsafe : s.compiler.pipeline.IsSafe)
  (hbroken : o.Hosts s.compiler known s.fs) (hknown : known.length < Invalidation.maxDepth)
  {e : FileEvent} (he : o.handles e.file = true)
  (hsame : ∀ g : Path, g.IsPlace → g ≠ s.absolute e.file → fs.SameAt s.fs g)

include hc hsafe hbroken hknown he hsame

/-- When a file has become unavailable, nothing waits for anything but its return and that of the
files that were evicted with it. -/
theorem Rests.interrupted (back : FileChange) (htree : s.evictedBy e = s.evictedWith e.file)
    (h : Rests o s.compiler known fs (fun _ ↦ True) s) :
    Between o s.compiler known fs (fun g ↦ g = s.absolute e.file ∧ s.fs.isFile g = true)
      (fun p ↦ p = s.absolute e.file ∨ p ∉ s.evictedWith e.file) [⟨back, e.file⟩] (s.handle e).1
      (s.originsAfter e fun _ ↦ fs) := by
  have hself : Pending o s.compiler [⟨back, e.file⟩] (s.absolute e.file) :=
    ⟨_, List.mem_singleton.2 rfl, he, rfl⟩
  have hevicted := evicted_kept hc.root h.isTidy e
  refine ⟨h.toConsistent.handle hc hbroken he hknown fun p b _ _ ↦ Compiler.assemble_ok hsafe p b,
    fun p hp htracked g hg ↦ ?_, fun p hp hwanted hexists ↦ ?_⟩
  · unfold originsAfter at hg ⊢
    split at hg
    next hkept =>
      rw [if_pos hkept]
      exact .inl (FileSystem.SameAt.refl fs g)
    next hkept =>
      rw [if_neg hkept]
      by_cases hgFile : g = s.absolute e.file
      · subst hgFile
        exact .inr ⟨⟨rfl, Compiler.isFile_of_mem_sources hg⟩, hself⟩
      · have hgPlace := Compiler.isPlace_of_mem_sources hc.resolver hbroken.root hp hg
        exact .inl (hsame g hgPlace hgFile).symm
  · rcases hwanted with rfl | hpTree
    · exact .inr hself
    · exact .inl ((h.toConsistent.steps hc hbroken he).isTracked hp.1 ((hevicted.isTracked_iff
        hp.1).2 ⟨Rests.isTracked h hp trivial hexists, htree ▸ hpTree⟩))

end Interruption

/-- A single event is handled, and then the bundle is written. -/
theorem told_singleton_spec (fs : FileSystem) {e : FileEvent} (hc : s.compiler.IsRegular)
    (h : s.options.handles e.file = true) :
    (s.told fs [e]).options = ({ s with fs := fs }.handle e).1.options ∧
      (s.told fs [e]).compiler = ({ s with fs := fs }.handle e).1.compiler ∧
      ({ s with fs := fs }.handle e).1.store.Alike (s.told fs [e]).store := by
  have hhandled := fst_handleInBatch_singleton (s := { s with fs := fs }) h
  unfold told
  refine process_spec [e] hhandled ?_
  rw [(sameSetup_handle _ _).compiler]
  exact hc

/-- After an outage all that is tracked was compiled on the old disk, and the file is tracked and
so is all that was not evicted with it. -/
theorem Rests.restored (hc : s.compiler.IsRegular) (hsafe : s.compiler.pipeline.IsSafe)
    (hknown : known.length < Invalidation.maxDepth) (hfs : o.Builds s.compiler known fs)
    (hbroken : o.Hosts s.compiler known broken) (hf : o.handles f = true)
    (hexists : fs.isFile (s.absolute f) = true)
    (hsame : ∀ g : Path, g.IsPlace → g ≠ s.absolute f → fs.SameAt broken g)
    (houtage : Outage (broken.isFile (s.absolute f)) gone back)
    (h : Rests o s.compiler known fs (fun _ ↦ True) s) :
    Rests o s.compiler known fs (fun p ↦ p = s.absolute f ∨ p ∉ s.evictedWith f)
      ((s.told broken [⟨gone, f⟩]).told fs [⟨back, f⟩]) := by
  have hstart : Rests o s.compiler known fs (fun _ ↦ True) { s with fs := broken } :=
    h.alike rfl rfl ⟨rfl, rfl, rfl⟩
  have hinterrupted := Rests.interrupted (s := { s with fs := broken }) (e := ⟨gone, f⟩) hc hsafe
    hbroken hknown hf hsame back (houtage.evictedBy _ f) hstart
  obtain ⟨hoptions, hcompiler, halike⟩ := told_singleton_spec broken (e := ⟨gone, f⟩) hc
    (h.options.symm ▸ hf)
  refine (hinterrupted.alike hoptions hcompiler halike).told hc hfs hknown fun e he _ ↦ ?_
  obtain rfl := List.mem_singleton.1 he
  exact houtage.truthful hexists

/-- When the files are told of that are not tracked, they are tracked again. -/
theorem Rests.retold {wanted : Path → Prop} (hc : c.IsRegular) (hfs : o.Builds c known fs)
    (hknown : known.length < Invalidation.maxDepth) {events : List FileEvent}
    (hevents : ∀ e ∈ events, o.handles e.file = true →
      e.change ≠ .unlink ∧ fs.isFile (c.absolute e.file) = true)
    (hcovers : ∀ p, o.Owns p → fs.isFile p = true → wanted p ∨ Pending o c events p)
    (h : Rests o c known fs wanted s) : Rests o c known fs (fun _ ↦ True) (s.told fs events) := by
  have hstart : Between o c known fs (fun _ ↦ False) (fun _ ↦ True) events s fun _ ↦ fs := { h with
    upToDate := fun _ _ _ g _ ↦ .inl (FileSystem.SameAt.refl fs g)
    complete := fun p hp _ hexists ↦ (hcovers p hp hexists).imp_left fun hwanted ↦
      Rests.isTracked h hp hwanted hexists }
  refine hstart.told hc hfs hknown fun e he hhandles ↦ ?_
  obtain ⟨hchange, hexists⟩ := hevents e he hhandles
  exact ⟨fun _ ↦ hexists, fun hunlink ↦ absurd hunlink hchange, False.elim⟩

/-- Two sessions that track the same files and have the same bundle. -/
structure SameBuild (s s' : Session) : Prop where
  tracked : ∀ p, s'.isTracked p = s.isTracked p
  output : ∀ place, (s'.store.output s'.compiler place).2 = (s.store.output s.compiler place).2

/-- The disk decides what a session has built in which all files are tracked. -/
theorem Rests.sameBuild {s' : Session} (hc : c.IsRegular) (hacyclic : c.IsAcyclic fs)
    (h : Rests o c known fs (fun _ ↦ True) s) (h' : Rests o c known fs (fun _ ↦ True) s') :
    s.SameBuild s' := by
  have hsettled := Rests.settled h
  have hsettled' := Rests.settled h'
  refine ⟨fun p ↦ ?_, fun place ↦ ?_⟩
  · have hp : (c.absolute p).IsPlace := Compiler.isPlace_absolute hc p
    rw [Session.isTracked, absolute, h'.compiler, Session.isTracked, absolute, h.compiler,
      Bool.eq_iff_iff]
    exact (hsettled'.tracked _ hp).trans (hsettled.tracked _ hp).symm
  · rw [h'.compiler, h.compiler]
    exact hsettled'.output_eq hc hacyclic (fun p hp ↦ hp.2) hsettled place

/-- A file of a project becomes unavailable and is restored.  Then nothing new is tracked, and what
is tracked has the modules it had before; the file is tracked, and all that was not evicted with it.
If other files were evicted, then the session has built what it had before once these are told of
too. -/
theorem restored_after_outage {extras : Extras} {fs₀ : FileSystem} {start : Session}
    (hstart : Starts o extras fs₀ start) (hsafe : extras.transforms.IsSafe)
    (hknown : known.length < 1000) (h : Maintained o known start fs s) (hf : o.handles f = true)
    (hexists : fs.isFile (s.absolute f) = true) (hbroken : o.Hosts s.compiler known broken)
    (hsame : ∀ g : Path, g.IsPlace → g ≠ s.absolute f → fs.SameAt broken g)
    (houtage : Outage (broken.isFile (s.absolute f)) gone back) :
    let s' := (s.told broken [⟨gone, f⟩]).told fs [⟨back, f⟩]
    (∀ p m, s'.store.modules.get? (s.absolute p) = some m →
        s.store.modules.get? (s.absolute p) = some m) ∧
      s'.isTracked f = true ∧
      (∀ p, s.isTracked p = true → s.absolute p ∉ s.evictedWith f → s'.isTracked p = true) ∧
      ((∀ p ∈ s.evictedWith f, fs.isFile p = true → p = s.absolute f) → s.SameBuild s') ∧
      ∀ events : List FileEvent,
        (∀ e ∈ events, o.handles e.file = true →
          e.change ≠ .unlink ∧ fs.isFile (s.absolute e.file) = true) →
        (∀ p ∈ s.evictedWith f, fs.isFile p = true →
          p = s.absolute f ∨ Pending o s.compiler events p) → s.SameBuild (s'.told fs events) := by
  obtain ⟨hbuilds, hrests⟩ := h.rests hstart hknown
  have hc := hstart.isRegular
  have hsafe := hstart.isSafe hsafe
  have hcompiler := hrests.compiler
  rw [← hcompiler] at hbuilds hrests hc hsafe
  intro s'
  have hrestored := Rests.restored hc hsafe hknown hbuilds hbroken hf hexists hsame houtage hrests
  have habsolute : ∀ p, s'.absolute p = s.absolute p := fun p ↦ by
    rw [absolute, hrestored.compiler]
    rfl
  refine ⟨fun p m hm ↦ ?_, ?_, fun p hp hpTree ↦ ?_, fun halone ↦ ?_,
    fun events hevents hcovers ↦ ?_⟩
  · have hp : (s.absolute p).IsPlace := Compiler.isPlace_absolute hc p
    have htracked := isTracked_iff.2 ⟨m, hm⟩
    have howns := hrestored.within.tracked _ hp htracked
    rw [← hm]
    exact (hrestored.sound.get?_eq hbuilds.acyclic hrestored.isTidy
      (fun q hq hqTracked ↦ (hrestored.within.tracked q hq hqTracked).2) hrests.sound hp htracked
      (Rests.isTracked hrests howns.1 trivial (Rests.exists hrestored hp htracked))).symm
  · rw [isTracked, habsolute]
    exact Rests.isTracked hrestored (owns_absolute hc hf) (.inl rfl) hexists
  · have hpPlace : (s.absolute p).IsPlace := Compiler.isPlace_absolute hc p
    rw [isTracked, habsolute]
    exact Rests.isTracked hrestored (hrests.within.tracked _ hpPlace hp).1 (.inr hpTree)
      (Rests.exists hrests hpPlace hp)
  · have hcomplete : Rests o s.compiler known fs (fun _ ↦ True) s' := { hrestored with
      complete := fun p hp _ hpExists ↦ hrestored.complete p hp (by
        by_cases hpTree : p ∈ s.evictedWith f
        · exact .inl (halone p hpTree hpExists)
        · exact .inr hpTree) hpExists }
    exact Rests.sameBuild hc hbuilds.acyclic hrests hcomplete
  · refine Rests.sameBuild hc hbuilds.acyclic hrests
      (Rests.retold hc hbuilds hknown hevents (fun p hp hpExists ↦ ?_) hrestored)
    by_cases hpTree : p ∈ s.evictedWith f
    · exact (hcovers p hpTree hpExists).imp_left .inl
    · exact .inl (.inr hpTree)

end Recovery

namespace Sample

/-- The file that the first one imports is gone. -/
def missing : FileSystem := disk [("/a.mcss", "@import 'b'"), ("/c.mcss", "")]

theorem hosts_missing : options.Hosts start.compiler places missing :=
  hosts_of_files starts.isRegular (isKeyed_disk _) (by decide +kernel) (fun _ ↦ 0)
    (by decide +kernel)

theorem sameAt_missing (g : Path) (hg : g.IsPlace) (hne : g ≠ ⟨"/b.mcss"⟩) :
    before.SameAt missing g :=
  (FileSystem.sameAt_or_of_files (isKeyed_disk _) (isKeyed_disk _)
    (P := fun p ↦ p = ⟨"/b.mcss"⟩) (by decide +kernel) hg).resolve_right hne

end Sample

/-- An importer does not come back by itself when the file that it imports does. -/
theorem lost_after_outage :
    let s := Sample.start.told Sample.before Sample.census
    let s' := (s.told Sample.missing [⟨.unlink, ⟨"b.mcss"⟩⟩]).told Sample.before
      [⟨.add, ⟨"b.mcss"⟩⟩]
    Maintained Sample.options Sample.places Sample.start Sample.before s ∧
      Sample.options.Hosts Sample.start.compiler Sample.places Sample.missing ∧
      (∀ g : Path, g.IsPlace → g ≠ ⟨"/b.mcss"⟩ → Sample.before.SameAt Sample.missing g) ∧
      s.isTracked ⟨"a.mcss"⟩ = true ∧ s'.isTracked ⟨"a.mcss"⟩ = false :=
  ⟨Sample.maintained_before, Sample.hosts_missing, Sample.sameAt_missing, by decide +kernel⟩

/-- The bundle is as it was before once the importer is told of too. -/
theorem restored_after_outage_sample :
    let s := Sample.start.told Sample.before Sample.census
    let s' := ((s.told Sample.missing [⟨.unlink, ⟨"b.mcss"⟩⟩]).told Sample.before
      [⟨.add, ⟨"b.mcss"⟩⟩]).told Sample.before [⟨.change, ⟨"a.mcss"⟩⟩]
    s.SameBuild s' := by
  intro s s'
  have hrests := (Sample.maintained_before.rests Sample.starts (by decide)).2
  have hplace : s.absolute ⟨"b.mcss"⟩ = ⟨"/b.mcss"⟩ := by
    rw [absolute, hrests.compiler]
    decide +kernel
  have hexists : Sample.before.isFile (s.absolute ⟨"b.mcss"⟩) = true := by
    rw [hplace]
    decide +kernel
  have hsame : ∀ g : Path, g.IsPlace → g ≠ s.absolute ⟨"b.mcss"⟩ →
      Sample.before.SameAt Sample.missing g := by
    rw [hplace]
    exact Sample.sameAt_missing
  have hpresent : ∀ e ∈ ([⟨.change, ⟨"a.mcss"⟩⟩] : List FileEvent),
      Sample.options.handles e.file = true →
        e.change ≠ .unlink ∧ Sample.before.isFile (s.absolute e.file) = true := by
    simp only [absolute, s, hrests.compiler]
    decide +kernel
  exact (restored_after_outage Sample.starts Pipeline.isSafe_empty (by decide)
    Sample.maintained_before (by decide +kernel) hexists
    (hrests.compiler ▸ Sample.hosts_missing) hsame
    (show Outage (Sample.missing.isFile (s.absolute ⟨"b.mcss"⟩)) .unlink .add by
      rw [hplace]
      exact .missing)).2.2.2.2 [⟨.change, ⟨"a.mcss"⟩⟩] hpresent (by decide +kernel)

end StyleModules.Session
