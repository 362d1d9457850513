import StyleModules.Proofs.Batches

/-!
# Incremental builds

A session that is told of every file that was created, modified or deleted cannot be told apart
from a new one: after each batch both have the same bundle.
-/

namespace StyleModules

open Relation ModuleStore

/-- Whether an event tells what happened to a file that existed before, or did not, and that exists
now, or does not. -/
def FileEvent.Fits (e : FileEvent) (before after : Bool) : Prop :=
  match e.change with
  | .init | .add => before = false ∧ after = true
  | .change => before = true ∧ after = true
  | .unlink => before = true ∧ after = false

instance (e : FileEvent) (before after : Bool) : Decidable (e.Fits before after) := by
  unfold FileEvent.Fits
  split <;> infer_instance

namespace Session

section Incremental

variable {o : Options} {c : Compiler} {known : List Path} {before after fs : FileSystem}
  {s : Session} {e : FileEvent}

/-- An event that fits evicts its file if that existed before. -/
theorem truthful_of_fits
    (h : e.Fits (before.isFile (c.absolute e.file)) (after.isFile (c.absolute e.file))) :
    Truthful c after (fun p ↦ before.isFile p = true) e := by
  unfold FileEvent.Fits at h
  constructor <;> cases hchange : e.change <;> simp_all

/-- A batch tells, in any order, of each file of the project that was created, modified or deleted
between two disks. -/
structure Batch (o : Options) (c : Compiler) (before after : FileSystem) (events : List FileEvent) :
    Prop where
  fits : ∀ e ∈ events, o.handles e.file = true →
    e.Fits (before.isFile (c.absolute e.file)) (after.isFile (c.absolute e.file))
  covers : ∀ p, o.Owns p → before.SameAt after p ∨ Pending o c events p

/-- A census tells, in any order, of each file of the project that exists. -/
structure Census (o : Options) (c : Compiler) (fs : FileSystem) (events : List FileEvent) :
    Prop where
  init : ∀ e ∈ events, e.change = .init
  exist : ∀ e ∈ events, o.handles e.file = true → fs.isFile (c.absolute e.file) = true
  covers : ∀ p, o.Owns p → fs.isFile p = true → Pending o c events p

/-- A batch takes a session from one disk to another. -/
theorem Rests.told (hc : c.IsRegular) (hbefore : o.Hosts c known before)
    (hafter : o.Builds c known after) (hknown : known.length < Invalidation.maxDepth)
    (h : Rests o c known before (fun _ ↦ True) s) {events : List FileEvent}
    (hbatch : Batch o c before after events) :
    Rests o c known after (fun _ ↦ True) (s.told after events) := by
  -- At the beginning all modules come from the disk as it was before.
  have hstart : Between o c known after (fun p ↦ before.isFile p = true) (fun _ ↦ True) events s
      (fun _ ↦ before) := { h with
    upToDate := fun p hp htracked g hg ↦ by
      have howns := owns_source hc hbefore p (h.within.tracked p hp htracked).1 g hg
      exact (hbatch.covers g howns).imp_right fun hpending ↦
        ⟨Compiler.isFile_of_mem_sources hg, hpending⟩
    complete := fun p hp _ hexists ↦ by
      refine (hbatch.covers p hp).imp_left fun hsame ↦ Rests.isTracked h hp trivial ?_
      rw [hsame.isFile_eq, hexists] }
  exact hstart.told hc hafter hknown fun e he hhandles ↦
    truthful_of_fits (hbatch.fits e he hhandles)

/-- A disk without files asks for nothing. -/
theorem hosts_refusing (o : Options) (c : Compiler) (known : List Path) (reason : String) :
    o.Hosts c known (.refusing reason) := by
  have hnone : ∀ p b, c.blueprint (.refusing reason) p ≠ .ok b := fun p b hb ↦ by
    simpa [FileSystem.isFile] using Compiler.isFile_of_blueprint hb
  have hcomposes : ∀ p q, ¬ c.ComposesFrom (.refusing reason) p q :=
    fun p q hcomposes ↦ by simpa [FileSystem.isFile] using hcomposes.isFile
  refine ⟨⟨rfl, fun p b _ hb ↦ absurd hb (hnone p b)⟩, fun p _ hcycle ↦ ?_, fun p _ h ↦ ?_,
    fun p q _ h _ ↦ absurd h (hcomposes p q), fun p _ g hg ↦ ?_⟩
  · obtain ⟨q, hq, -⟩ := TransGen.head'_iff.1 hcycle
    exact hcomposes p q hq
  · simp [FileSystem.isFile] at h
  · simpa [FileSystem.isFile] using Compiler.isFile_of_mem_sources hg

/-- A census is a batch after which everything is new. -/
theorem Census.batch {events : List FileEvent} (h : Census o c fs events) (reason : String) :
    Batch o c (.refusing reason) fs events := by
  refine ⟨fun e he hhandles ↦ ?_, fun p hp ↦ ?_⟩
  · rw [FileEvent.Fits, h.init e he]
    exact ⟨rfl, h.exist e he hhandles⟩
  · cases hexists : fs.isFile p with
    | true => exact .inr (h.covers p hp hexists)
    | false => exact .inl ⟨hexists.symm, fun hold ↦ by simp [FileSystem.isFile] at hold⟩

/-- A session that was started on a disk rests there after the census. -/
theorem Census.rests {extras : Extras} {start : Session} (hstart : Starts o extras fs start)
    (hbuilds : o.Builds start.compiler known fs) (hknown : known.length < Invalidation.maxDepth)
    {events : List FileEvent} (h : Census o start.compiler fs events) :
    Rests o start.compiler known fs (fun _ ↦ True) (start.told fs events) := by
  have hempty : Rests o start.compiler known (.refusing "") (fun _ ↦ True) start := by
    have hstore := hstart.store_eq
    refine ⟨⟨hstart.options_eq, rfl, hstore ▸ isTidy_empty, hstore ▸ within_empty _,
      hstore ▸ sound_empty _ _, hstore ▸ linked_empty _ _⟩, fun p _ htracked ↦ ?_,
      fun p _ _ hexists ↦ ?_⟩
    · simp [hstore, isTracked_eq, empty] at htracked
    · simp [FileSystem.isFile] at hexists
  exact Rests.told hstart.isRegular (hosts_refusing _ _ _ _) hbuilds hknown hempty (h.batch "")

/-- The sessions that a session can become by a census and then some batches, each with the disk
that its last batch told of.  What the session writes itself counts as a change like any other. -/
inductive Maintained (o : Options) (known : List Path) (start : Session) :
    FileSystem → Session → Prop
  | census {events : List FileEvent} (hbuilds : o.Builds start.compiler known start.fs)
      (hcensus : Census o start.compiler start.fs events) :
      Maintained o known start start.fs (start.told start.fs events)
  | batch {fs after : FileSystem} {s : Session} {events : List FileEvent}
      (h : Maintained o known start fs s) (hbuilds : o.Builds start.compiler known after)
      (hbatch : Batch o start.compiler fs after events) :
      Maintained o known start after (s.told after events)

theorem Maintained.rests {extras : Extras} {fs₀ : FileSystem} {start : Session}
    (hstart : Starts o extras fs₀ start) (hknown : known.length < Invalidation.maxDepth)
    (h : Maintained o known start fs s) :
    o.Builds start.compiler known fs ∧ Rests o start.compiler known fs (fun _ ↦ True) s := by
  induction h with
  | census hbuilds hcensus =>
    refine ⟨hbuilds, ?_⟩
    rw [hstart.fs_eq] at hbuilds hcensus ⊢
    exact hcensus.rests hstart hbuilds hknown
  | batch _ hbuilds hbatch ih =>
    exact ⟨hbuilds, Rests.told hstart.isRegular ih.1.toHosts hbuilds hknown ih.2 hbatch⟩

/-- Sessions with the same options that start in the same directory compile in the same way. -/
theorem Starts.compiler_eq {extras : Extras} {fs₀ : FileSystem} {start fresh : Session}
    (h : Starts o extras fs₀ start) (h' : Starts o extras fs fresh)
    (hdirectory : fs.workingDirectory = fs₀.workingDirectory) :
    fresh.compiler = start.compiler := by
  obtain ⟨d, out, hd, hout, rfl⟩ := h.eq
  obtain ⟨d', out', hd', hout', rfl⟩ := h'.eq
  obtain rfl := Except.ok.inj (hd.symm.trans (hdirectory.symm.trans hd'))
  obtain rfl := Except.ok.inj (hout.symm.trans hout')
  rfl

/-- After every batch the bundle is the one that a new session builds from the disk. -/
theorem output_eq_of_maintained {extras : Extras} {fs₀ : FileSystem} {start fresh : Session}
    (hstart : Starts o extras fs₀ start) (hknown : known.length < 1000)
    (h : Maintained o known start fs s) (hfresh : Starts o extras fs fresh)
    (hdirectory : fs.workingDirectory = fs₀.workingDirectory) {events : List FileEvent}
    (hcensus : Census o fresh.compiler fs events) (place : Path) :
    (s.store.output s.compiler place).2 =
      ((fresh.told fs events).store.output fresh.compiler place).2 := by
  have hcompiler := hstart.compiler_eq hfresh hdirectory
  obtain ⟨hbuilds, hrests⟩ := h.rests hstart hknown
  have hrests' := hcensus.rests hfresh (hcompiler ▸ hbuilds) hknown
  rw [hrests.compiler, hcompiler]
  rw [hcompiler] at hrests'
  exact (Rests.settled hrests).output_eq hstart.isRegular hbuilds.acyclic (fun p hp ↦ hp.2)
    (Rests.settled hrests') place

/-- Whether a disk holds a project can be seen from its files. -/
theorem hosts_of_files (hc : c.IsRegular) (hkeyed : fs.IsKeyed) (hroot : fs.isFile ⟨"/"⟩ = false)
    (rank : Path → Nat)
    (hfiles : ∀ p ∈ fs.files, p ∈ known ∧
      (∀ r ∈ c.referencesOf fs p, (c.resolver.absolute r p (.stylesheet false)).isSome = true ∧
        rank (c.target p r) < rank p ∧ o.handles (c.target p r) = true) ∧
      ∀ g ∈ c.sources fs p, o.handles g = true) :
    o.Hosts c known fs := by
  have hadmits := Compiler.admits_of_files hc hkeyed hroot rank fun p hp r hr ↦
    let ⟨hresolves, hrank, _⟩ := (hfiles p hp).2.1 r hr
    ⟨hresolves, hrank⟩
  refine ⟨hadmits.toSuits, hadmits.acyclic,
    fun p hp hexists ↦ (hfiles p (hadmits.known p hp.1 hexists)).1, fun p q hp hq _ ↦ ?_,
    fun p hp g hg ↦ ?_⟩
  · obtain ⟨b, hb, hq⟩ := hq
    obtain ⟨r, hr, rfl⟩ := List.mem_map.1 hq
    obtain ⟨-, hcomposed, -⟩ := hfiles p (hadmits.known p hp.1 (Compiler.isFile_of_blueprint hb))
    exact (hcomposed r (Compiler.referencesOf_eq hb ▸ hr)).2.2
  · obtain ⟨-, -, himported⟩ := hfiles p (hadmits.known p hp.1
      (Compiler.isFile_of_mem_sources (Compiler.self_mem_sources hg)))
    exact himported g hg

theorem builds_of_files (hkeyed : fs.IsKeyed) (hhosts : o.Hosts c known fs)
    (hcompiles : ∀ p ∈ fs.files, o.handles p = true →
      (ModuleStore.track c fs p .empty).2 = .ok ()) : o.Builds c known fs :=
  ⟨hhosts, fun p hp hexists ↦ hcompiles p (FileSystem.mem_files hkeyed hp.1 hexists) hp.2⟩

theorem batch_of_files (hbefore : before.IsKeyed) (hafter : after.IsKeyed) {events : List FileEvent}
    (hfits : ∀ e ∈ events, o.handles e.file = true →
      e.Fits (before.isFile (c.absolute e.file)) (after.isFile (c.absolute e.file)))
    (hcovers : ∀ p ∈ before.files ++ after.files, before.SameAt after p ∨ Pending o c events p) :
    Batch o c before after events :=
  ⟨hfits, fun _ hp ↦ FileSystem.sameAt_or_of_files hbefore hafter hcovers hp.1⟩

theorem census_of_files (hkeyed : fs.IsKeyed) {events : List FileEvent}
    (hinit : ∀ e ∈ events, e.change = .init ∧ fs.isFile (c.absolute e.file) = true)
    (hcovers : ∀ p ∈ fs.files, Pending o c events p) : Census o c fs events :=
  ⟨fun e he ↦ (hinit e he).1, fun e he _ ↦ (hinit e he).2,
    fun p hp hexists ↦ hcovers p (FileSystem.mem_files hkeyed hp.1 hexists)⟩

end Incremental

namespace Sample

/-- The second file is gone, and the first one imports a new one instead. -/
def moved : FileSystem := disk [("/a.mcss", "@import 'd'"), ("/c.mcss", ""), ("/d.mcss", "")]

def places : List Path := [⟨"/a.mcss"⟩, ⟨"/b.mcss"⟩, ⟨"/c.mcss"⟩, ⟨"/d.mcss"⟩]

theorem isSome_startMoved : (Session.start moved options .none).toOption.isSome = true :=
  isSome_start_disk _

def startMoved : Session := (Session.start moved options .none).toOption.get isSome_startMoved

theorem starts_moved : Starts options .none moved startMoved := starts_disk _

theorem builds_before : options.Builds start.compiler places before :=
  builds_of_files (isKeyed_disk _) (hosts_of_files starts.isRegular (isKeyed_disk _)
    (by decide +kernel) (fun _ ↦ 0) (by decide +kernel)) (by decide +kernel)

theorem builds_moved : options.Builds start.compiler places moved :=
  builds_of_files (isKeyed_disk _) (hosts_of_files starts.isRegular (isKeyed_disk _)
    (by decide +kernel) (fun _ ↦ 0) (by decide +kernel)) (by decide +kernel)

def census : List FileEvent :=
  [⟨.init, ⟨"c.mcss"⟩⟩, ⟨.init, ⟨"a.mcss"⟩⟩, ⟨.init, ⟨"b.mcss"⟩⟩]

theorem census_before : Census options start.compiler before census :=
  census_of_files (isKeyed_disk _) (by decide +kernel) (by decide +kernel)

theorem maintained_before : Maintained options places start before (start.told before census) :=
  .census builds_before census_before

theorem batch_moved : Batch options start.compiler before moved
    [⟨.unlink, ⟨"b.mcss"⟩⟩, ⟨.change, ⟨"a.mcss"⟩⟩, ⟨.add, ⟨"d.mcss"⟩⟩] :=
  batch_of_files (isKeyed_disk _) (isKeyed_disk _) (by decide +kernel) (by decide +kernel)

theorem census_moved : Census options startMoved.compiler moved
    [⟨.init, ⟨"a.mcss"⟩⟩, ⟨.init, ⟨"c.mcss"⟩⟩, ⟨.init, ⟨"d.mcss"⟩⟩] :=
  census_of_files (isKeyed_disk _) (by decide +kernel) (by decide +kernel)

end Sample

/-- A file goes, another one comes, and a third one changes so that it imports the new one. -/
theorem output_eq_of_maintained_sample : ∃ s,
    Maintained Sample.options Sample.places Sample.start Sample.moved s ∧
      ∀ place, (s.store.output s.compiler place).2 = ((Sample.startMoved.told Sample.moved
        [⟨.init, ⟨"a.mcss"⟩⟩, ⟨.init, ⟨"c.mcss"⟩⟩, ⟨.init, ⟨"d.mcss"⟩⟩]).store.output
          Sample.startMoved.compiler place).2 := by
  have hmoved := Sample.maintained_before.batch Sample.builds_moved Sample.batch_moved
  exact ⟨_, hmoved, output_eq_of_maintained Sample.starts (by decide) hmoved Sample.starts_moved
    (by decide +kernel) Sample.census_moved⟩

end Session

end StyleModules
