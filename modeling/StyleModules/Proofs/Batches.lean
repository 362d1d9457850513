import StyleModules.Proofs.Retracking
import StyleModules.Proofs.Settled

/-!
# Batches of events

While a batch is handled, some modules come from the disk as it was before and some from the disk
as it is now, and some files that exist are not tracked.  Between two events each module is up to
date and each file is tracked, except where an event that sets this right is still to come.  After
the last event the store rests on the current disk.
-/

namespace StyleModules

open Relation ModuleStore

/-- The files of a project: the places whose extension is handled. -/
def Options.Owns (o : Options) (p : Path) : Prop := p.IsPlace ∧ o.handles p = true

/-- What is asked of the disks that hold a project: all its files are known, none composes from
itself, and whatever one of them refers to is one of them. -/
structure Options.Hosts (o : Options) (c : Compiler) (known : List Path) (fs : FileSystem) : Prop
    extends c.Suits fs where
  acyclic : c.IsAcyclic fs
  known : ∀ p, o.Owns p → fs.isFile p = true → p ∈ known
  composed : ∀ p q, o.Owns p → c.ComposesFrom fs p q → fs.isFile q = true → o.handles q = true
  imported : ∀ p, o.Owns p → ∀ g ∈ c.sources fs p, o.handles g = true

/-- What is asked of the disks that a project is built on: all its files compile. -/
structure Options.Builds (o : Options) (c : Compiler) (known : List Path) (fs : FileSystem) : Prop
    extends o.Hosts c known fs where
  compiles : ∀ p, o.Owns p → fs.isFile p = true → (track c fs p .empty).2 = .ok ()

namespace Session

variable {o : Options} {c : Compiler} {known : List Path} {fs : FileSystem}
  {stale wanted : Path → Prop} {s : Session} {origin : Path → FileSystem} {rest : List FileEvent}
  {e : FileEvent} {p : Path}

theorem owns_absolute (hc : c.IsRegular) {file : Path} (h : o.handles file = true) :
    o.Owns (c.absolute file) :=
  ⟨Compiler.isPlace_absolute hc file, Options.handles_place hc.root h⟩

section Owned

variable (hc : c.IsRegular)

include hc

theorem owns_composed (hfs : o.Hosts c known fs) : c.Passes fs o.Owns :=
  fun p q hp hq hexists ↦
    ⟨hq.isPlace hc hfs.toSuits hp.1 hexists, hfs.composed p q hp hq hexists⟩

theorem owns_source (hfs : o.Hosts c known fs) (p : Path) (hp : o.Owns p) :
    ∀ g ∈ c.sources fs p, o.Owns g :=
  fun g hg ↦ ⟨Compiler.isPlace_of_mem_sources hc.resolver hfs.root hp.1 hg, hfs.imported p hp g hg⟩

variable (hfs : o.Builds c known fs)

include hfs

theorem accepts_owned (hp : o.Owns p) (hexists : fs.isFile p = true) : c.Accepts fs p := by
  have haccepts := (track_empty_ok_iff hc hfs.toSuits p).1 (hfs.compiles p hp hexists)
  rwa [Compiler.absolute_eq hp.1] at haccepts

theorem compiles_owned (hp : o.Owns p) (hexists : fs.isFile p = true) : c.Compiles fs p :=
  accepts_owned hc hfs hp hexists p ReflTransGen.refl

theorem assemble_owned (p : Path) (b : Blueprint) (hp : o.Owns p)
    (hb : c.blueprint fs p = .ok b) : ∀ known, ∃ m, c.assemble p b known = .ok m := by
  obtain ⟨b', hb', -, hassemble⟩ := compiles_owned hc hfs hp (Compiler.isFile_of_blueprint hb)
  obtain rfl := Except.ok.inj (hb.symm.trans hb')
  exact hassemble

end Owned

/-- One of some events is about a file of the project. -/
def Pending (o : Options) (c : Compiler) (events : List FileEvent) (p : Path) : Prop :=
  ∃ e ∈ events, o.handles e.file = true ∧ c.absolute e.file = p

instance (o : Options) (c : Compiler) (events : List FileEvent) (p : Path) :
    Decidable (Pending o c events p) :=
  inferInstanceAs (Decidable (∃ e ∈ events, o.handles e.file = true ∧ c.absolute e.file = p))

theorem pending_cons : Pending o c (e :: rest) p ↔
    (o.handles e.file = true ∧ c.absolute e.file = p) ∨ Pending o c rest p := by
  simp [Pending]

/-- An event tells the truth about its file, and it evicts a file of which modules may be stale. -/
structure Truthful (c : Compiler) (fs : FileSystem) (stale : Path → Prop) (e : FileEvent) :
    Prop where
  exist : e.change = .change → fs.isFile (c.absolute e.file) = true
  gone : e.change = .unlink → fs.isFile (c.absolute e.file) = false
  evicts : stale (c.absolute e.file) → e.change = .change ∨ e.change = .unlink

/-- What holds of a session at all times: it tracks files of the project only, and both records
connect each module with what it was made from. -/
structure Consistent (o : Options) (c : Compiler) (known : List Path) (s : Session)
    (origin : Path → FileSystem) : Prop where
  options : s.options = o
  compiler : s.compiler = c
  isTidy : s.store.IsTidy
  within : s.store.Within fun p ↦ o.Owns p ∧ p ∈ known
  sound : s.store.Sound c origin
  linked : s.store.Linked c origin

/-- What holds between two events of a batch, when some are still to come.  Modules may be out of
date with regard to the stale files only, and the wanted files are those that are tracked in the
end. -/
structure Between (o : Options) (c : Compiler) (known : List Path) (fs : FileSystem)
    (stale wanted : Path → Prop) (rest : List FileEvent) (s : Session)
    (origin : Path → FileSystem) : Prop extends Consistent o c known s origin where
  upToDate : ∀ p : Path, p.IsPlace → s.store.isTracked p = true → ∀ g ∈ c.sources (origin p) p,
    (origin p).SameAt fs g ∨ (stale g ∧ Pending o c rest g)
  complete : ∀ p, o.Owns p → wanted p → fs.isFile p = true →
    s.store.isTracked p = true ∨ Pending o c rest p

theorem Between.alike {s' : Session} (h : Between o c known fs stale wanted rest s origin)
    (hoptions : s'.options = s.options) (hcompiler : s'.compiler = s.compiler)
    (halike : s.store.Alike s'.store) : Between o c known fs stale wanted rest s' origin := by
  have htracked : ∀ p, s'.store.isTracked p = s.store.isTracked p := fun p ↦ by
    rw [isTracked_eq, isTracked_eq, halike.modules]
  exact ⟨⟨hoptions.trans h.options, hcompiler.trans h.compiler, halike.isTidy h.isTidy,
      halike.within h.within, h.sound.alike halike, h.linked.alike halike⟩,
    fun p hp hpTracked ↦ h.upToDate p hp (htracked p ▸ hpTracked),
    fun p hp hwanted hexists ↦ htracked p ▸ h.complete p hp hwanted hexists⟩

/-- Events of files that do not belong to the project do not matter. -/
theorem Between.skip (he : o.handles e.file = false)
    (h : Between o c known fs stale wanted (e :: rest) s origin) :
    Between o c known fs stale wanted rest s origin := by
  have hrest : ∀ p, Pending o c (e :: rest) p → Pending o c rest p := fun p hp ↦
    (pending_cons.1 hp).resolve_left fun hnow ↦ by simp [he] at hnow
  exact { h with
    upToDate := fun p hp htracked g hg ↦ (h.upToDate p hp htracked g hg).imp_right
      fun hold ↦ ⟨hold.1, hrest g hold.2⟩
    complete := fun p hp hwanted hexists ↦ (h.complete p hp hwanted hexists).imp_right (hrest p) }

/-! ## Handling an event -/

section Handle

variable (hc : s.compiler.IsRegular) (h : Consistent o s.compiler known s origin)

include hc h

theorem Consistent.owns_evictedWith {file : Path} (hfile : o.handles file = true) :
    ∀ p ∈ s.evictedWith file, o.Owns p :=
  mem_evictedWith_within hc.root h.isTidy ⟨fun p hp htracked ↦ (h.within.tracked p hp htracked).1,
    fun p hp q hq ↦ (h.within.parents p hp q hq).1⟩ (owns_absolute hc hfile)

theorem Consistent.isClosed (hknown : known.length < Invalidation.maxDepth) (e : FileEvent) :
    s.store.IsClosed (s.evictedBy e) :=
  isClosed_evictedBy hc.root h.isTidy e h.within (fun _ hp ↦ hp.2) (Nat.le_of_lt hknown)

variable (hfs : o.Hosts s.compiler known s.fs) (he : o.handles e.file = true)

include hfs he

theorem Consistent.steps : Steps s.compiler s.fs o.Owns (s.kept e).store (s.handle e).1.store :=
  steps_handle hc hfs.toSuits h.isTidy (owns_composed hc hfs) e (h.owns_evictedWith hc he)

/-- An event keeps a session consistent where no file fails in the end. -/
theorem Consistent.handle (hknown : known.length < Invalidation.maxDepth)
    (hassemble : ∀ p b, o.Owns p → s.compiler.blueprint s.fs p = .ok b →
      ∀ known, ∃ m, s.compiler.assemble p b known = .ok m) :
    Consistent o s.compiler known (s.handle e).1 (s.originsAfter e origin) := by
  have hsetup := sameSetup_handle s e
  have hevicted := evicted_kept hc.root h.isTidy e
  have hsteps := h.steps hc hfs he
  refine ⟨hsetup.options.trans h.options, hsetup.compiler,
    hsteps.isTidy hc hfs.toSuits hevicted.isTidy, ?_,
    sound_handle hc hfs.toSuits hfs.acyclic h.isTidy e (h.isClosed hc hknown e) h.sound,
    linked_handle hc hfs.toSuits h.isTidy hassemble (owns_composed hc hfs) e
      (h.owns_evictedWith hc he) h.linked⟩
  exact hsteps.within hc hfs.toSuits (owns_source hc hfs)
    (fun p _ hp hexists ↦ ⟨hp, hfs.known p hp hexists⟩) hevicted.isTidy (hevicted.within h.within)

end Handle

section Event

variable (hc : s.compiler.IsRegular) (hfs : o.Builds s.compiler known s.fs)
  (hs : s.store.IsTidy)

include hc hfs hs

/-- The file of a change compiles. -/
theorem track_evicting_ok {file : Path} (hfile : o.handles file = true)
    (hexists : s.fs.isFile (s.absolute file) = true) :
    ((s.evicting file).track file).2 = .ok () := by
  have hsetup := sameSetup_evicting s file
  refine track_ok (hsetup.compiler ▸ hc) ?_ (evicted_evicting hc.root hs file).isTidy file ?_
  · rw [hsetup.compiler, hsetup.fs]
    exact hfs.toSuits
  · rw [hsetup.compiler, hsetup.fs]
    exact accepts_owned hc hfs (owns_absolute hc hfile) hexists

/-- Handling an event keeps what was tracked and still exists, and tracks the file of the event. -/
theorem isTracked_handle_owned (he : o.handles e.file = true)
    (htrue : Truthful s.compiler s.fs stale e) (hp : o.Owns p) (hexists : s.fs.isFile p = true)
    (hold : s.store.isTracked p = true ∨ s.absolute e.file = p) :
    (s.handle e).1.store.isTracked p = true := by
  have habsolute : s.absolute p = p := absolute_eq hp.1 s
  have haccepts := accepts_owned hc hfs hp hexists
  have hok : e.change = .change → ((s.evicting e.file).track e.file).2 = .ok () :=
    fun hchange ↦ track_evicting_ok hc hfs hs he (htrue.exist hchange)
  have hgone : e.change = .unlink → p ≠ s.absolute e.file := by
    rintro hchange rfl
    have hgone := htrue.gone hchange
    exact absurd (hgone.symm.trans hexists) (by simp)
  rcases hold with htracked | rfl
  · have hhandle := isTracked_handle hc hfs.toSuits hs (g := p) hok
      (by rwa [habsolute]) (by rwa [isTracked, habsolute]) (by rwa [habsolute]) (by rwa [habsolute])
    rwa [isTracked_eq_of_sameSetup (sameSetup_handle s e), habsolute] at hhandle
  · have hhandle := isTracked_handle_self hc hfs.toSuits hs hok (fun hchange ↦ hgone hchange rfl)
      haccepts
    rwa [isTracked_eq_of_sameSetup (sameSetup_handle s e)] at hhandle

end Event

/-- Handling an event sets right what waited for it. -/
theorem Between.event (hc : c.IsRegular) (hfs : o.Builds c known fs)
    (hknown : known.length < Invalidation.maxDepth) (he : o.handles e.file = true)
    (htrue : Truthful c fs stale e) (hdisk : s.fs = fs)
    (h : Between o c known fs stale wanted (e :: rest) s origin) :
    Between o c known fs stale wanted rest (s.handle e).1 (s.originsAfter e origin) := by
  subst hdisk
  obtain rfl := h.compiler
  have hconsistent := h.toConsistent
  have hevicted := evicted_kept hc.root h.isTidy e
  refine ⟨hconsistent.handle hc hfs.toHosts he hknown (assemble_owned hc hfs),
    fun p hp htracked g hg ↦ ?_, fun p hp hwanted hexists ↦ ?_⟩
  · unfold originsAfter at hg ⊢
    split at hg
    next hkept =>
      rw [if_pos hkept]
      obtain ⟨hpTracked, hpTree⟩ := (hevicted.isTracked_iff hp).1 hkept
      refine (h.upToDate p hp hpTracked g hg).imp_right fun ⟨hstale, hpending⟩ ↦
        ⟨hstale, (pending_cons.1 hpending).resolve_left fun ⟨_, hself⟩ ↦ ?_⟩
      -- The event of a stale file evicts what was made from it.
      subst hself
      have hmem : s.absolute e.file ∈ s.evictedBy e := by
        have hself := self_mem_evictedWith s e.file
        unfold evictedBy
        rcases htrue.evicts hstale with hchange | hchange <;> simpa only [hchange] using hself
      exact hpTree (h.sound.mem_of_madeFrom hc h.isTidy (hconsistent.isClosed hc hknown e) hmem hp
        hpTracked (.inlined hg))
    next hkept =>
      rw [if_neg hkept]
      exact .inl (FileSystem.SameAt.refl s.fs g)
  · rcases h.complete p hp hwanted hexists with htracked | hpending
    · exact .inl (isTracked_handle_owned hc hfs h.isTidy he htrue hp hexists (.inl htracked))
    · exact (pending_cons.1 hpending).imp_left fun ⟨_, hself⟩ ↦
        isTracked_handle_owned hc hfs h.isTidy he htrue hp hexists (.inr hself)

/-- Handling a whole batch sets everything right. -/
theorem Between.batch (hc : c.IsRegular) (hfs : o.Builds c known fs)
    (hknown : known.length < Invalidation.maxDepth) {events : List FileEvent}
    (htrue : ∀ e ∈ events, o.handles e.file = true → Truthful c fs stale e)
    (state : Session × BatchReport) (hdisk : state.1.fs = fs)
    (h : Between o c known fs stale wanted events state.1 origin) : ∃ origin',
    Between o c known fs stale wanted [] (events.foldl handleInBatch state).1 origin' := by
  induction events generalizing state origin with
  | nil => exact ⟨origin, h⟩
  | cons e events ih =>
    obtain ⟨hfirst, hrest⟩ := List.forall_mem_cons.1 htrue
    rw [List.foldl_cons]
    have hstate := fst_handleInBatch state e
    rw [h.options] at hstate
    cases he : o.handles e.file with
    | true =>
      rw [he, if_pos rfl] at hstate
      exact ih hrest _ (hstate ▸ (sameSetup_handle state.1 e).fs.trans hdisk)
        (hstate ▸ h.event hc hfs hknown he (hfirst he) hdisk)
    | false =>
      rw [he, if_neg (by simp)] at hstate
      exact ih hrest _ (hstate ▸ hdisk) (hstate ▸ h.skip he)

/-! ## Between batches -/

/-- What holds when all events of a batch were handled: all that is tracked was compiled on the
current disk, and the wanted files are tracked. -/
abbrev Rests (o : Options) (c : Compiler) (known : List Path) (fs : FileSystem)
    (wanted : Path → Prop) (s : Session) : Prop :=
  Between o c known fs (fun _ ↦ False) wanted [] s fun _ ↦ fs

theorem not_pending_nil : ¬ Pending o c [] p := by simp [Pending]

theorem Rests.exists (h : Rests o c known fs wanted s) (hp : p.IsPlace)
    (htracked : s.store.isTracked p = true) : fs.isFile p = true := by
  obtain ⟨m, hm⟩ := isTracked_iff.1 htracked
  obtain ⟨b, hb, -⟩ := h.sound.made p m hp hm
  exact Compiler.isFile_of_blueprint hb

theorem Rests.isTracked (h : Rests o c known fs wanted s) (hp : o.Owns p) (hwanted : wanted p)
    (hexists : fs.isFile p = true) : s.store.isTracked p = true :=
  (h.complete p hp hwanted hexists).resolve_right not_pending_nil

theorem Between.rests (hc : c.IsRegular) (hfs : o.Builds c known fs)
    (h : Between o c known fs stale wanted [] s origin) : Rests o c known fs wanted s := by
  have hsame : ∀ p : Path, p.IsPlace → s.store.isTracked p = true →
      ∀ g ∈ c.sources (origin p) p, (origin p).SameAt fs g := fun p hp htracked g hg ↦
    (h.upToDate p hp htracked g hg).resolve_right fun hwaits ↦ not_pending_nil hwaits.2
  have hblueprint : ∀ p : Path, p.IsPlace → s.store.isTracked p = true →
      ∃ b, c.blueprint fs p = .ok b := by
    intro p hp htracked
    obtain ⟨m, hm⟩ := isTracked_iff.1 htracked
    obtain ⟨b, hb, -⟩ := h.sound.made p m hp hm
    have hexists : fs.isFile p = true := by
      rw [← (hsame p hp htracked p (Compiler.mem_sources_of_blueprint hb)).isFile_eq]
      exact Compiler.isFile_of_blueprint hb
    obtain ⟨b', hb', -⟩ := compiles_owned hc hfs (h.within.tracked p hp htracked).1 hexists
    exact ⟨b', hb'⟩
  exact { h with
    sound := h.sound.rebase hfs.toSuits hblueprint hsame
    linked := h.linked.rebase hblueprint hsame h.sound
    upToDate := fun _ _ _ g _ ↦ .inl (FileSystem.SameAt.refl fs g) }

def told (s : Session) (fs : FileSystem) (events : List FileEvent) : Session :=
  ({ s with fs := fs }.process events).1

theorem Reached.told {P : FileSystem → Prop} {start : Session} (h : Reached P start s origin)
    (hP : P fs) (events : List FileEvent) :
    ∃ origin', Reached P start (s.told fs events) origin' := by
  unfold Session.told
  exact Reached.process (h.edit fs) hP events

/-- After a batch the session rests, also when the bundle was written. -/
theorem Between.told (hc : c.IsRegular) (hfs : o.Builds c known fs)
    (hknown : known.length < Invalidation.maxDepth) {events : List FileEvent}
    (htrue : ∀ e ∈ events, o.handles e.file = true → Truthful c fs stale e)
    (h : Between o c known fs stale wanted events s origin) :
    Rests o c known fs wanted (s.told fs events) := by
  have hstart : Between o c known fs stale wanted events { s with fs := fs } origin :=
    h.alike rfl rfl ⟨rfl, rfl, rfl⟩
  obtain ⟨origin', hbetween⟩ := hstart.batch hc hfs hknown htrue ({ s with fs := fs }, .empty) rfl
  have hrests := hbetween.rests hc hfs
  obtain ⟨hoptions, hcompiler, halike⟩ := process_spec (s := { s with fs := fs }) events rfl
    (hrests.compiler ▸ hc)
  exact hrests.alike hoptions hcompiler halike

/-- A session in which all files are tracked has a settled store. -/
theorem Rests.settled (h : Rests o c known fs (fun _ ↦ True) s) :
    s.store.Settled c fs fun p ↦ o.Owns p ∧ p ∈ known :=
  ⟨h.isTidy, h.sound, h.linked, fun p hp ↦
    ⟨fun htracked ↦ ⟨h.within.tracked p hp htracked, Rests.exists h hp htracked⟩,
      fun hp ↦ Rests.isTracked h hp.1.1 trivial hp.2⟩⟩

end Session

end StyleModules
