import StyleModules.Proofs.Place
import StyleModules.Proofs.Table
import StyleModules.Session

/-!
# Pure transforms

A pure transform is a function of the stylesheet and its messages.  The transforms of every build
are pure, except that the first one writes the imports into the ledger; so if those that the user
adds are pure too, then nothing that was compiled before can be seen in what is compiled now.
-/

namespace StyleModules

/-! ## Pure transforms -/

/-- Two jobs with the same stylesheet and messages. -/
structure Job.Alike (j k : Job) : Prop where
  stylesheet : j.stylesheet = k.stylesheet
  messages : j.messages = k.messages

/-- What is done to a job depends on its stylesheet and messages only. -/
structure Job.IsDetermined (run : Job → Job × Option Fault) : Prop where
  alike : ∀ ⦃j k⦄, j.Alike k → (run j).1.Alike (run k).1
  fault : ∀ ⦃j k⦄, j.Alike k → (run j).2 = (run k).2

/-- What is done to a job depends on its stylesheet and messages only, and leaves the ledger
alone. -/
structure Job.IsPure (run : Job → Job × Option Fault) : Prop extends IsDetermined run where
  imports : ∀ j, (run j).1.journal.imports = j.journal.imports

namespace Transform

/-- A transform that is a function of the stylesheet and its messages. -/
def IsPure (t : Transform) : Prop := Job.IsPure t.run

theorem isPure_ofEdit (name : String) (f : Stylesheet → Stylesheet) : (ofEdit name f).IsPure where
  alike _ _ h := ⟨congrArg f h.stylesheet, h.messages⟩
  fault _ _ _ := rfl
  imports _ := rfl

theorem isPure_assets (options : Assets.Options) : (Assets.transform options).IsPure where
  alike j k h := by
    unfold Assets.transform
    dsimp only
    split
    next => exact ⟨congrArg (Stylesheet.mapChunks (Assets.publishChunk options)) h.stylesheet,
      h.messages⟩
    next => exact h
  fault j k h := by
    unfold Assets.transform
    dsimp only
    split
    next => rfl
    next => rw [h.stylesheet]
  imports j := by
    unfold Assets.transform
    dsimp only
    split <;> rfl

theorem isDetermined_runAll {ts : List Transform} (h : ∀ t ∈ ts, Job.IsDetermined t.run) :
    Job.IsDetermined (runAll ts) := by
  induction ts with
  | nil => exact ⟨fun _ _ hjk ↦ hjk, fun _ _ _ ↦ rfl⟩
  | cons t ts ih =>
    obtain ⟨ht, hts⟩ := List.forall_mem_cons.1 h
    have hrest := ih hts
    refine ⟨fun j k hjk ↦ ?_, fun j k hjk ↦ ?_⟩
    all_goals
      have halike := ht.alike hjk
      have hfault := ht.fault hjk
      unfold runAll
      rcases hj : t.run j with ⟨j', _ | f⟩ <;> rcases hk : t.run k with ⟨k', _ | f'⟩ <;>
        simp only [hj, hk, reduceCtorEq] at halike hfault ⊢
    · exact hrest.alike halike
    · exact halike
    · exact hrest.fault halike
    · exact hfault

/-- A transform that leaves the ledger alone. -/
def KeepsLedger (t : Transform) : Prop :=
  ∀ j, (t.run j).1.journal.imports = j.journal.imports

theorem IsPure.keepsLedger {t : Transform} (h : t.IsPure) : t.KeepsLedger := h.imports

theorem keepsLedger_runAll {ts : List Transform} (h : ∀ t ∈ ts, t.KeepsLedger) (j : Job) :
    (runAll ts j).1.journal.imports = j.journal.imports := by
  induction ts generalizing j with
  | nil => rfl
  | cons t ts ih =>
    obtain ⟨ht, hts⟩ := List.forall_mem_cons.1 h
    have himports := ht j
    unfold runAll
    rcases hj : t.run j with ⟨j', _ | f⟩ <;> simp only [hj] at himports ⊢
    · rw [ih hts, himports]
    · exact himports

theorem isDetermined_collectImports : Job.IsDetermined collectImports.run where
  alike _ _ h := ⟨h.stylesheet, h.messages⟩
  fault _ _ _ := rfl

end Transform

/-- No transform of a pipeline sees what was compiled before. -/
def Pipeline.IsDetermined (p : Pipeline) : Prop :=
  ∀ stage, ∀ t ∈ p.stage stage, Job.IsDetermined t.run

theorem Pipeline.IsDetermined.run {p : Pipeline} (h : p.IsDetermined) (stage : Stage) :
    Job.IsDetermined (p.run stage) :=
  Transform.isDetermined_runAll (h stage)

/-- All transforms of a pipeline are pure. -/
def Pipeline.IsPure (p : Pipeline) : Prop := ∀ stage, ∀ t ∈ p.stage stage, t.IsPure

theorem Pipeline.isPure_empty : Pipeline.empty.IsPure := by
  intro stage
  cases stage <;> exact List.forall_mem_nil _

/-- Before all else a pipeline collects the imports, and its other transforms are pure. -/
structure Pipeline.CollectsImports (p : Pipeline) : Prop where
  before : ∃ ts, p.before = Transform.collectImports :: ts ∧ ∀ t ∈ ts, t.IsPure
  processing : ∀ t ∈ p.processing, t.IsPure
  after : ∀ t ∈ p.after, t.IsPure

theorem Pipeline.CollectsImports.forBuild {p : Pipeline} (h : p.IsPure) (paths : PathResolver)
    (assets : Transform.Assets.Options) : (Pipeline.forBuild paths assets p).CollectsImports := by
  refine ⟨⟨_, rfl, h .before⟩, h .processing, fun t ht ↦ ?_⟩
  rcases List.mem_cons.1 ht with rfl | ht
  · exact Transform.isPure_ofEdit _ _
  · rcases List.mem_cons.1 ht with rfl | ht
    · exact Transform.isPure_assets _
    · exact h .after t ht

/-- No transform of a pipeline touches the ledger. -/
def Pipeline.KeepsLedger (p : Pipeline) : Prop := ∀ stage, ∀ t ∈ p.stage stage, t.KeepsLedger

theorem Pipeline.keepsLedger_empty : Pipeline.empty.KeepsLedger := by
  intro stage
  cases stage <;> exact List.forall_mem_nil _

/-- Before all else a pipeline collects the imports, and no other transform touches the ledger. -/
structure Pipeline.RecordsImports (p : Pipeline) : Prop where
  before : ∃ ts, p.before = Transform.collectImports :: ts ∧ ∀ t ∈ ts, t.KeepsLedger
  processing : ∀ t ∈ p.processing, t.KeepsLedger
  after : ∀ t ∈ p.after, t.KeepsLedger

theorem Pipeline.CollectsImports.recordsImports {p : Pipeline} (h : p.CollectsImports) :
    p.RecordsImports where
  before := h.before.imp fun _ hts ↦ ⟨hts.1, fun t ht ↦ (hts.2 t ht).keepsLedger⟩
  processing t ht := (h.processing t ht).keepsLedger
  after t ht := (h.after t ht).keepsLedger

/-- The transforms of every build leave the ledger to the first one, and so does a build if the
user's transforms do not touch the ledger. -/
theorem Pipeline.KeepsLedger.forBuild {p : Pipeline} (h : p.KeepsLedger) (paths : PathResolver)
    (assets : Transform.Assets.Options) : (Pipeline.forBuild paths assets p).RecordsImports ∧
      ∀ t ∈ (Pipeline.forBuild paths assets p).done, t.KeepsLedger := by
  refine ⟨⟨⟨_, rfl, h .before⟩, h .processing, fun t ht ↦ ?_⟩, fun t ht ↦ ?_⟩
  · rcases List.mem_cons.1 ht with rfl | ht
    · exact (Transform.isPure_ofEdit _ _).keepsLedger
    · rcases List.mem_cons.1 ht with rfl | ht
      · exact (Transform.isPure_assets _).keepsLedger
      · exact h .after t ht
  · rcases List.mem_cons.1 ht with rfl | ht
    · exact (Transform.isPure_ofEdit _ _).keepsLedger
    · exact h .done t ht

namespace Transform

/-- A transform that never fails. -/
def IsSafe (t : Transform) : Prop := ∀ j, (t.run j).2 = none

theorem isSafe_ofEdit (name : String) (f : Stylesheet → Stylesheet) : (ofEdit name f).IsSafe :=
  fun _ ↦ rfl

theorem isSafe_assets {options : Assets.Options} (h : options.arePublic = true) :
    (Assets.transform options).IsSafe := fun j ↦ by
  unfold Assets.transform
  dsimp only
  rw [if_pos h]

theorem isSafe_runAll {ts : List Transform} (h : ∀ t ∈ ts, t.IsSafe) (j : Job) :
    ∃ j', runAll ts j = (j', none) := by
  induction ts generalizing j with
  | nil => exact ⟨j, rfl⟩
  | cons t ts ih =>
    obtain ⟨ht, hts⟩ := List.forall_mem_cons.1 h
    obtain ⟨j', hj'⟩ := ih hts (t.run j).1
    refine ⟨j', ?_⟩
    have hrun : t.run j = ((t.run j).1, none) := Prod.ext rfl (ht j)
    rw [runAll, hrun]
    exact hj'

end Transform

/-- The transforms that run once the composed files are known never fail. -/
structure Pipeline.IsSafe (p : Pipeline) : Prop where
  processing : ∀ t ∈ p.processing, t.IsSafe
  after : ∀ t ∈ p.after, t.IsSafe

theorem Pipeline.isSafe_empty : Pipeline.empty.IsSafe :=
  ⟨List.forall_mem_nil _, List.forall_mem_nil _⟩

/-! ## Compilers of sessions -/

/-- A compiler as sessions make it: the root is absolute, references are resolved by namespace,
and before all else imports are collected. -/
structure Compiler.IsRegular (c : Compiler) : Prop where
  root : c.root.isAbsolute = true
  resolver : c.resolver.IsNamespaced
  before : ∃ ts, c.pipeline.before = Transform.collectImports :: ts ∧ ∀ t ∈ ts, t.IsPure
  processing : ∀ t ∈ c.pipeline.processing, t.IsPure
  after : ∀ t ∈ c.pipeline.after, t.IsPure
  done : ∀ t ∈ c.pipeline.done, t.IsPure

theorem Compiler.IsRegular.collectsImports {c : Compiler} (hc : c.IsRegular) :
    c.pipeline.CollectsImports :=
  ⟨hc.before, hc.processing, hc.after⟩

/-- No transform that runs for the whole bundle touches the ledger. -/
theorem Compiler.IsRegular.keepsLedger {c : Compiler} (hc : c.IsRegular) :
    ∀ t ∈ c.pipeline.done, t.KeepsLedger :=
  fun t ht ↦ (hc.done t ht).keepsLedger

theorem Compiler.IsRegular.isDetermined {c : Compiler} (hc : c.IsRegular) :
    c.pipeline.IsDetermined := by
  intro stage
  cases stage with
  | before =>
    obtain ⟨ts, hbefore, hts⟩ := hc.before
    rw [Pipeline.stage, hbefore]
    exact List.forall_mem_cons.2
      ⟨Transform.isDetermined_collectImports, fun t ht ↦ (hts t ht).toIsDetermined⟩
  | processing => exact fun t ht ↦ (hc.processing t ht).toIsDetermined
  | after => exact fun t ht ↦ (hc.after t ht).toIsDetermined
  | done => exact fun t ht ↦ (hc.done t ht).toIsDetermined

/-- What a session consists of when it starts. -/
theorem Session.start_eq_ok {o : Options} {extras : Extras} {fs : FileSystem} {s : Session}
    (h : Session.start fs o extras = .ok s) : ∃ d out, fs.workingDirectory = .ok d ∧
      outputDirectoryOf o (rootOf o d) = .ok out ∧
      s = ⟨o, ⟨rootOf o d, o.mode, extras.paths.getD (namespacesOf o (rootOf o d)),
        .forBuild (extras.paths.getD (namespacesOf o (rootOf o d)))
          ⟨some out, rootOf o d, extras.assets.getD (.below o.publicAddress)⟩ extras.transforms⟩,
        out, fs, .empty, .empty⟩ := by
  unfold Session.start at h
  cases hd : fs.workingDirectory with
  | error fault => simp [hd, bind, Except.bind] at h
  | ok d =>
    cases hout : outputDirectoryOf o (rootOf o d) with
    | error fault => simp [hd, hout, bind, Except.bind] at h
    | ok out =>
      simp only [hd, hout, bind, Except.bind] at h
      exact ⟨d, out, rfl, hout, (Except.ok.inj h).symm⟩

/-- A session that starts in an absolute directory has an absolute root. -/
theorem Session.isAbsolute_root_of_start {o : Options} {extras : Extras} {fs : FileSystem}
    {s : Session} (h : Session.start fs o extras = .ok s)
    (habsolute : ∀ d, fs.workingDirectory = .ok d → d.isAbsolute = true) :
    s.compiler.root.isAbsolute = true := by
  obtain ⟨d, out, hd, -, rfl⟩ := start_eq_ok h
  change (rootOf o d).isAbsolute = true
  unfold rootOf
  split
  next root _ => exact (Path.isPlace_normalize
    (Path.isAbsolute_join (habsolute d hd))).isAbsolute
  next => exact habsolute d hd

/-- References are resolved by namespace, and each namespace is an absolute directory. -/
theorem Session.isNamespaced_namespacesOf (o : Options) {root : Path}
    (hroot : root.isAbsolute = true) : (namespacesOf o root).IsNamespaced := by
  refine ⟨_, fun name p hp ↦ ?_, rfl⟩
  obtain ⟨e, -, heq⟩ := List.mem_map.1 (Table.lookup_mem hp)
  obtain rfl : (root.join e.2).normalize = p := congrArg Prod.snd heq
  exact (Path.isPlace_normalize (Path.isAbsolute_join hroot)).isAbsolute

/-- What is asked of a session: it starts in an absolute directory, resolves references by
namespace, and adds only pure transforms. -/
structure Session.Starts (o : Options) (extras : Extras) (fs : FileSystem) (s : Session) :
    Prop where
  start : Session.start fs o extras = .ok s
  isAbsolute : ∀ d, fs.workingDirectory = .ok d → d.isAbsolute = true
  paths : extras.paths = none
  transforms : extras.transforms.IsPure

namespace Session.Starts

variable {o : Options} {extras : Extras} {fs : FileSystem} {s : Session}

/-- What a session consists of when it starts. -/
theorem eq (h : Starts o extras fs s) : ∃ d out, fs.workingDirectory = .ok d ∧
    outputDirectoryOf o (rootOf o d) = .ok out ∧
    s = ⟨o, ⟨rootOf o d, o.mode, namespacesOf o (rootOf o d),
      .forBuild (namespacesOf o (rootOf o d))
        ⟨some out, rootOf o d, extras.assets.getD (.below o.publicAddress)⟩ extras.transforms⟩,
      out, fs, .empty, .empty⟩ := by
  obtain ⟨d, out, hd, hout, heq⟩ := start_eq_ok h.start
  rw [h.paths] at heq
  exact ⟨d, out, hd, hout, heq⟩

theorem options_eq (h : Starts o extras fs s) : s.options = o := by
  obtain ⟨d, out, -, -, rfl⟩ := h.eq
  rfl

theorem fs_eq (h : Starts o extras fs s) : s.fs = fs := by
  obtain ⟨d, out, -, -, rfl⟩ := h.eq
  rfl

theorem store_eq (h : Starts o extras fs s) : s.store = .empty := by
  obtain ⟨d, out, -, -, rfl⟩ := h.eq
  rfl

theorem isAbsolute_root (h : Starts o extras fs s) : s.compiler.root.isAbsolute = true :=
  isAbsolute_root_of_start h.start h.isAbsolute

theorem isRegular (h : Starts o extras fs s) : s.compiler.IsRegular := by
  have hroot := h.isAbsolute_root
  have htransforms := h.transforms
  obtain ⟨d, out, hd, -, rfl⟩ := h.eq
  have hcollects := Pipeline.CollectsImports.forBuild htransforms (namespacesOf o (rootOf o d))
    ⟨some out, rootOf o d, extras.assets.getD (.below o.publicAddress)⟩
  refine ⟨hroot, isNamespaced_namespacesOf o hroot, hcollects.before, hcollects.processing,
    hcollects.after, fun t ht ↦ ?_⟩
  rcases List.mem_cons.1 ht with rfl | ht
  · exact Transform.isPure_ofEdit _ _
  · exact htransforms .done t ht

/-- Assets have a place, so only transforms that the user adds can fail late. -/
theorem isSafe (h : Starts o extras fs s) (hsafe : extras.transforms.IsSafe) :
    s.compiler.pipeline.IsSafe := by
  have hroot := h.isAbsolute_root
  obtain ⟨d, out, hd, hout, rfl⟩ := h.eq
  have hplace : out.isAbsolute = true := by
    unfold outputDirectoryOf at hout
    split at hout
    next directory _ =>
      split at hout
      next => simp at hout
      next =>
        obtain rfl := Except.ok.inj hout
        exact (Path.isPlace_normalize (Path.isAbsolute_join hroot)).isAbsolute
    next => simp at hout
  refine ⟨hsafe.processing, fun t ht ↦ ?_⟩
  rcases List.mem_append.1 ht with ht | ht
  · rcases List.mem_cons.1 ht with rfl | ht
    · exact Transform.isSafe_ofEdit _ _
    · obtain rfl := List.mem_singleton.1 ht
      exact Transform.isSafe_assets (by
        simp [Transform.Assets.Options.arePublic, Path.isEmpty_text_of_isAbsolute hplace])
  · exact hsafe.after t ht

end Session.Starts

end StyleModules
