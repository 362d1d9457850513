import StyleModules.Proofs.Dependencies
import StyleModules.Proofs.Imports
import StyleModules.Proofs.Transform

/-!
# What a file is compiled to

The contents of a file and of those it imports make its blueprint.  From the blueprint and the
compositions of the files it composes from follows the module.  Neither the ledger nor anything
else that was compiled before matters, so compiling the same contents twice gives the same.
-/

namespace StyleModules

open Relation ModuleStore

/-! ## Loading -/

namespace Compiler

variable {c : Compiler} {fs fs' : FileSystem} {file g : Path}

/-- The files that a file is made from: those it imports, and itself. -/
def sources (c : Compiler) (fs : FileSystem) (file : Path) : List Path :=
  match load c fs file with
  | .ok (_, sheet) => Imports.filesOf sheet.chunks
  | .error _ => []

def imports (c : Compiler) (fs : FileSystem) (file : Path) : List ImportMessage :=
  match load c fs file with
  | .ok (messages, _) => messages
  | .error _ => []

/-- What is loaded is what was inlined, and what is left of the chunk of the file at the end. -/
theorem exists_inlines_of_load {messages : List ImportMessage} {sheet : Stylesheet}
    (h : load c fs file = .ok (messages, sheet)) :
    ∃ source new before, Imports.readChunk ⟨fs, c.resolver⟩ file = .ok source ∧
      Imports.Inlines ⟨fs, c.resolver⟩ file [file] (Imports.references source) new before messages ∧
      sheet = ⟨file, before ++ [Imports.withoutReferences source]⟩ ∧ fs.isFile file = true := by
  unfold load at h
  split at h
  next => simp at h
  next code hcode =>
    split at h
    next => simp at h
    next s hs =>
      obtain ⟨source, hread, rfl⟩ := Imports.eq_singleton_of_read hs
      split at h
      next => simp at h
      next ms inlined hinline =>
        obtain ⟨rfl, rfl⟩ := Prod.mk.inj (Except.ok.inj h)
        obtain ⟨new, before, hinlines, rfl⟩ :=
          Imports.inlines_of_inline (Imports.file_of_read hread) hinline
        have hchunk : Imports.readChunk ⟨fs, c.resolver⟩ file = .ok source := by
          rw [Imports.readChunk, hcode]
          exact hread
        exact ⟨source, new, before, hchunk, hinlines, rfl, FileSystem.isFile_of_readText hcode⟩

theorem inlines_of_load {messages : List ImportMessage} {sheet : Stylesheet}
    (h : load c fs file = .ok (messages, sheet)) :
    ∃ refs new inner, Imports.Inlines ⟨fs, c.resolver⟩ file [file] refs new inner messages ∧
      Imports.filesOf sheet.chunks = Imports.filesOf inner ++ [file] ∧ fs.isFile file = true := by
  obtain ⟨source, new, before, hread, hinlines, rfl, hfile⟩ := exists_inlines_of_load h
  exact ⟨_, new, before, hinlines,
    Imports.filesOf_withoutReferences (Imports.file_of_readChunk hread) before [], hfile⟩

/-- The sources of a file are those that were inlined and the file itself, if it can be loaded. -/
theorem inlines_of_mem_sources (h : g ∈ c.sources fs file) :
    ∃ refs new inner,
      Imports.Inlines ⟨fs, c.resolver⟩ file [file] refs new inner (c.imports fs file) ∧
        (∀ x, x ∈ c.sources fs file ↔ x ∈ new ∨ x = file) ∧ fs.isFile file = true := by
  unfold sources at h
  split at h
  next messages sheet hload =>
    obtain ⟨refs, new, inner, hinlines, hfiles, hfile⟩ := inlines_of_load hload
    have himports : c.imports fs file = messages := by rw [imports, hload]
    refine ⟨refs, new, inner, himports ▸ hinlines, fun x ↦ ?_, hfile⟩
    rw [sources, hload]
    simp [hfiles, hinlines.perm.mem_iff]
  next => simp at h

theorem isFile_of_mem_sources (h : g ∈ c.sources fs file) : fs.isFile g = true := by
  obtain ⟨refs, new, inner, hinlines, hsources, hfile⟩ := inlines_of_mem_sources h
  rcases (hsources g).1 h with h | rfl
  · exact hinlines.isFile g h
  · exact hfile

theorem self_mem_sources (h : g ∈ c.sources fs file) : file ∈ c.sources fs file := by
  obtain ⟨refs, new, inner, -, hsources, -⟩ := inlines_of_mem_sources h
  exact (hsources file).2 (.inr rfl)

theorem ne_root_of_mem_sources (hroot : fs.isFile ⟨"/"⟩ = false) (h : g ∈ c.sources fs file) :
    g ≠ ⟨"/"⟩ := by
  rintro rfl
  rw [isFile_of_mem_sources h] at hroot
  simp at hroot

theorem isPlace_of_mem_sources (hc : c.resolver.IsNamespaced) (hroot : fs.isFile ⟨"/"⟩ = false)
    (hfile : file.IsPlace) (h : g ∈ c.sources fs file) : g.IsPlace := by
  obtain ⟨refs, new, inner, hinlines, hsources, -⟩ := inlines_of_mem_sources h
  rcases (hsources g).1 h with hg | rfl
  · exact hinlines.isPlace hc hfile (fun x hx ↦
      ne_root_of_mem_sources hroot ((hsources x).2 (List.mem_cons.1 hx).symm)) g hg
  · exact hfile

/-- The messages lead from each source to the file. -/
theorem leads_of_mem_sources (h : g ∈ c.sources fs file) :
    ReflTransGen (fun a b ↦ ⟨a, b⟩ ∈ c.imports fs file) g file := by
  obtain ⟨refs, new, inner, hinlines, hsources, -⟩ := inlines_of_mem_sources h
  rcases (hsources g).1 h with h | rfl
  · exact hinlines.leads g h
  · exact ReflTransGen.refl

theorem mem_sources_of_load {x : List ImportMessage × Stylesheet} (h : load c fs file = .ok x) :
    file ∈ c.sources fs file := by
  obtain ⟨refs, new, inner, -, hfiles, -⟩ := inlines_of_load h
  simp [sources, h, hfiles]

theorem mem_sources_of_mem_imports {m : ImportMessage} (h : m ∈ c.imports fs file) :
    m.file ∈ c.sources fs file ∧ m.parent ∈ c.sources fs file := by
  have hself : file ∈ c.sources fs file := by
    unfold imports at h
    split at h
    next messages sheet hload => exact mem_sources_of_load hload
    next => simp at h
  obtain ⟨refs, new, inner, hinlines, hsources, -⟩ := inlines_of_mem_sources hself
  obtain ⟨hm, hparent⟩ := hinlines.parents m h
  exact ⟨(hsources _).2 (.inl hm), (hsources _).2 hparent.symm⟩

/-- What is loaded depends on the contents of the sources only. -/
theorem load_congr {x y : List ImportMessage × Stylesheet} (h : load c fs file = .ok x)
    (h' : load c fs' file = .ok y) (hsame : ∀ g ∈ c.sources fs file, fs.SameAt fs' g) : y = x := by
  have hfile : fs.SameAt fs' file := hsame file (mem_sources_of_load h)
  simp only [sources, h] at hsame
  unfold load at h h'
  split at h
  next => simp at h
  next code hcode =>
    rw [← hfile.readText_eq (FileSystem.isFile_of_readText hcode), hcode] at h'
    simp only at h'
    split at h
    next => simp at h
    next s hs =>
      rw [hs] at h'
      simp only at h'
      split at h
      next => simp at h
      next ms inlined hinline =>
        obtain rfl := Except.ok.inj h
        split at h'
        next => simp at h'
        next ms' inlined' hinline' =>
          obtain rfl := Except.ok.inj h'
          unfold Imports.inline at hinline hinline'
          split at hinline
          next => simp at hinline
          next p chunks hchunks =>
            obtain ⟨rfl, hsheet⟩ := Prod.mk.inj hinline
            obtain rfl := Except.ok.inj hsheet
            split at hinline'
            next => simp at hinline'
            next p' chunks' hchunks' =>
              obtain ⟨rfl, rfl⟩ := Imports.agree_inOrder
                (Imports.agree_expand fs fs' c.resolver _ _) hchunks hchunks' hsame
              obtain ⟨rfl, hsheet'⟩ := Prod.mk.inj hinline'
              rw [Except.ok.inj hsheet']

theorem sources_congr {x y : List ImportMessage × Stylesheet} (h : load c fs file = .ok x)
    (h' : load c fs' file = .ok y) (hsame : ∀ g ∈ c.sources fs file, fs.SameAt fs' g) :
    c.sources fs' file = c.sources fs file := by
  rw [sources, sources, h, h', load_congr h h' hsame]

end Compiler

namespace ImportLedger

def recordAll (l : ImportLedger) (messages : List ImportMessage) : ImportLedger :=
  messages.foldl (fun l m ↦ (l.record m.file m.parent).1) l

variable {l : ImportLedger} {messages : List ImportMessage}

theorem IsTidy.recordAll (h : l.IsTidy)
    (hmessages : ∀ m ∈ messages, m.file.IsPlace ∧ m.parent.IsPlace) :
    (l.recordAll messages).IsTidy := by
  induction messages generalizing l with
  | nil => exact h
  | cons m ms ih =>
    obtain ⟨⟨hfile, hparent⟩, hms⟩ := List.forall_mem_cons.1 hmessages
    exact ih (h.record hfile hparent) hms

theorem mem_parents_recordAll (h : l.IsTidy)
    (hmessages : ∀ m ∈ messages, m.file.IsPlace ∧ m.parent.IsPlace) {x y : Path}
    (hx : x.IsPlace) :
    y ∈ (l.recordAll messages).parents x ↔ y ∈ l.parents x ∨ ⟨x, y⟩ ∈ messages := by
  induction messages generalizing l with
  | nil => simp [ImportLedger.recordAll]
  | cons m ms ih =>
    obtain ⟨⟨hfile, hparent⟩, hms⟩ := List.forall_mem_cons.1 hmessages
    have hrest := ih (h.record hfile hparent) hms
    rw [ImportLedger.recordAll, List.foldl_cons]
    refine hrest.trans ?_
    rw [mem_parents_record h hfile hparent hx, List.mem_cons, or_assoc]
    obtain ⟨f, p⟩ := m
    simp

theorem mem_parents_recordAll_of_mem (h : l.IsTidy)
    (hmessages : ∀ m ∈ messages, m.file.IsPlace ∧ m.parent.IsPlace) {x y : Path}
    (hy : y ∈ l.parents x) : y ∈ (l.recordAll messages).parents x := by
  induction messages generalizing l with
  | nil => exact hy
  | cons m ms ih =>
    obtain ⟨⟨hfile, hparent⟩, hms⟩ := List.forall_mem_cons.1 hmessages
    exact ih (h.record hfile hparent) hms (mem_parents_record_of_mem h hy)

end ImportLedger

/-! ## Blueprints -/

/-- What a file has become before the files it composes from are looked at. -/
structure Blueprint where
  stylesheet : Stylesheet
  messages : List ImportMessage
  composes : List Composes

namespace Blueprint

def ofDraft (d : Draft) : Blueprint := ⟨d.job.stylesheet, d.job.messages, d.composes⟩

/-- The blueprint as a job for the remaining transforms. -/
def job (b : Blueprint) : Job := ⟨b.stylesheet, b.messages, [], .empty⟩

theorem alike_job (d : Draft) (journal : Journal) :
    Job.Alike { d.job with journal := journal } (ofDraft d).job := ⟨rfl, rfl⟩

theorem warn_foldl (ds : List Diagnostic) (j : Job) :
    (ds.foldl (fun j d ↦ j.warn d) j).stylesheet = j.stylesheet ∧
      (ds.foldl (fun j d ↦ j.warn d) j).messages = j.messages := by
  induction ds generalizing j with
  | nil => exact ⟨rfl, rfl⟩
  | cons d ds ih => exact ih (j.warn d)

theorem ofDraft_extract (file : Path) (j : Job) :
    ofDraft (extract file j) = ⟨j.stylesheet.withoutComposes, j.messages,
      j.stylesheet.composes.filterMap Except.toOption⟩ := by
  simp only [ofDraft, extract, Job.edit, (warn_foldl _ _).1, (warn_foldl _ _).2]

end Blueprint

namespace Compiler

variable {c : Compiler} {fs fs' : FileSystem} {file : Path}

def blueprint (c : Compiler) (fs : FileSystem) (file : Path) : Except Fault Blueprint :=
  (prepare c fs file .empty).2.map .ofDraft

theorem run_before (hc : c.pipeline.RecordsImports) : ∃ ts, (∀ t ∈ ts, Transform.KeepsLedger t) ∧
    ∀ j, c.pipeline.run .before j = Transform.runAll ts (Transform.collectImports.run j).1 := by
  obtain ⟨ts, hbefore, hts⟩ := hc.before
  refine ⟨ts, hts, fun j ↦ ?_⟩
  rw [Pipeline.run, Pipeline.stage, hbefore]
  rfl

/-- Preparing a file records its imports, also if it fails later. -/
theorem imports_prepare (hc : c.pipeline.RecordsImports) (fs : FileSystem) (file : Path)
    (journal : Journal) :
    (prepare c fs file journal).1.imports = journal.imports.recordAll (c.imports fs file) := by
  unfold prepare imports
  cases hload : load c fs file with
  | error fault => rfl
  | ok x =>
    obtain ⟨ts, hts, hrun⟩ := run_before hc
    have himports := Transform.keepsLedger_runAll hts
      (Transform.collectImports.run { Job.start journal x.2 with messages := x.1 }).1
    rw [← hrun] at himports
    simp only
    split
    next job fault hjob =>
      rw [hjob] at himports
      exact himports
    next job hjob =>
      rw [hjob] at himports
      exact himports

/-- What a file is prepared to does not depend on what was written down before. -/
theorem prepare_eq (hc : c.pipeline.IsDetermined) (fs : FileSystem) (file : Path)
    (journal : Journal) : (prepare c fs file journal).2.map .ofDraft = c.blueprint fs file := by
  unfold blueprint prepare
  cases hload : load c fs file with
  | error fault => rfl
  | ok x =>
    have hrun := hc.run .before
    have hstart : Job.Alike { Job.start journal x.2 with messages := x.1 }
        { Job.start .empty x.2 with messages := x.1 } := ⟨rfl, rfl⟩
    have halike := hrun.alike hstart
    have hfault := hrun.fault hstart
    simp only
    rcases hj : c.pipeline.run .before { Job.start journal x.2 with messages := x.1 }
      with ⟨j, _ | f⟩ <;>
    rcases hk : c.pipeline.run .before { Job.start .empty x.2 with messages := x.1 }
      with ⟨k, _ | f'⟩ <;>
    simp only [hj, hk, reduceCtorEq, Option.some.injEq] at halike hfault ⊢
    · simp only [Except.map, Blueprint.ofDraft_extract, halike.stylesheet, halike.messages]
    · rw [hfault]

theorem blueprint_prepare (hc : c.IsRegular) (fs : FileSystem) (file : Path) (journal : Journal) :
    (prepare c fs file journal).2.map .ofDraft = c.blueprint fs file :=
  prepare_eq hc.isDetermined fs file journal

theorem load_of_blueprint {b : Blueprint} (h : c.blueprint fs file = .ok b) :
    ∃ x, load c fs file = .ok x := by
  unfold blueprint prepare at h
  split at h
  next => simp [Except.map] at h
  next messages sheet hload => exact ⟨_, hload⟩

theorem mem_sources_of_blueprint {b : Blueprint} (h : c.blueprint fs file = .ok b) :
    file ∈ c.sources fs file := by
  obtain ⟨x, hload⟩ := load_of_blueprint h
  exact mem_sources_of_load hload

theorem isFile_of_blueprint {b : Blueprint} (h : c.blueprint fs file = .ok b) :
    fs.isFile file = true :=
  isFile_of_mem_sources (mem_sources_of_blueprint h)

/-- The same contents of all sources give the same blueprint. -/
theorem blueprint_congr {b b' : Blueprint} (h : c.blueprint fs file = .ok b)
    (h' : c.blueprint fs' file = .ok b') (hsame : ∀ g ∈ c.sources fs file, fs.SameAt fs' g) :
    b' = b := by
  obtain ⟨x, hload⟩ := load_of_blueprint h
  obtain ⟨y, hload'⟩ := load_of_blueprint h'
  obtain rfl := load_congr hload hload' hsame
  have heq : c.blueprint fs' file = c.blueprint fs file := by
    simp only [blueprint, prepare, hload, hload']
  rw [heq, h] at h'
  exact (Except.ok.inj h').symm

end Compiler

/-! ## Finishing -/

theorem Composition.build_congr {own : String → String}
    {exported exported' : String → String → List String} {styles : List Css.Rule.Style}
    {declarations : List Composes}
    (h : ∀ r ∈ references declarations, exported r = exported' r) :
    build own exported styles declarations = build own exported' styles declarations := by
  have hcompose : ∀ (ds : List Composes) (k : Composition),
      (∀ r ∈ references ds, exported r = exported' r) →
        ds.foldl (compose own exported) k = ds.foldl (compose own exported') k := by
    intro ds
    induction ds with
    | nil => exact fun _ _ ↦ rfl
    | cons d ds ih =>
      intro k hk
      have hnames : names own exported k d.composed = names own exported' k d.composed := by
        unfold names
        cases hsource : d.composed.source with
        | here => rfl
        | everywhere => rfl
        | file reference =>
          have hr : reference ∈ references (d :: ds) := by
            simp [references, hsource]
          simp only [hk reference hr]
      have hstep : compose own exported k d = compose own exported' k d := by
        rw [compose, compose, hnames]
      rw [List.foldl_cons, List.foldl_cons, hstep]
      refine ih _ fun r hr ↦ hk r ?_
      obtain ⟨d', hd', heq⟩ := List.mem_filterMap.1 hr
      exact List.mem_filterMap.2 ⟨d', List.mem_cons_of_mem _ hd', heq⟩
  exact hcompose declarations _ h

/-- A file is scoped by its key, so its classes get their scoped names. -/
theorem ModuleStore.edit_scope (c : Compiler) (s : ModuleStore) (file : Path)
    (composes : List Composes) (files : List (String × Path)) (j : Job) :
    (j.edit fun _ ↦ (scope c s (c.sourceKey file) j.stylesheet composes files).1) =
      j.edit (rename (c.scopedName file)) := rfl

namespace Compiler

variable {c : Compiler} {fs fs' : FileSystem} {file q : Path} {b : Blueprint}

/-- The file that a reference names, whether or not it exists. -/
def target (c : Compiler) (file : Path) (reference : String) : Path :=
  (c.resolver.absolute reference file (.stylesheet false)).getD ⟨reference⟩

theorem resolve_eq_ok {reference : String} : c.resolve fs file reference = .ok q ↔
    q = c.target file reference ∧ fs.isFile q = true := by
  change (if fs.isFile (c.target file reference) then _ else _) = Except.ok q ↔ _
  constructor
  · intro h
    split at h
    next hfile =>
      obtain rfl := Except.ok.inj h
      exact ⟨rfl, hfile⟩
    next => simp at h
  · rintro ⟨rfl, hfile⟩
    rw [if_pos hfile]
    rfl

def targets (c : Compiler) (file : Path) (b : Blueprint) : List Path :=
  (references b.composes).map (c.target file)

/-- What a class of another file expands to when the compositions of files are known. -/
def exportedBy (c : Compiler) (known : Path → Option Composition) (file : Path) (name : String) :
    List String :=
  ((known file).bind (fun k ↦ k.get? name)).getD [c.scopedName file name]

/-- Compiles a blueprint to its end when the compositions of files are known. -/
def assemble (c : Compiler) (file : Path) (b : Blueprint) (known : Path → Option Composition) :
    Except Fault Module :=
  match c.pipeline.run .processing b.job with
  | (_, some fault) => .error fault
  | (job, none) =>
    match c.pipeline.run .after (job.edit (rename (c.scopedName file))) with
    | (_, some fault) => .error fault
    | (renamed, none) => .ok ⟨renamed.stylesheet, Composition.build (c.scopedName file)
        (fun reference ↦ c.exportedBy known (c.target file reference)) job.stylesheet.styles
        b.composes⟩

/-- Only the compositions of the targets count. -/
theorem assemble_congr {known known' : Path → Option Composition}
    (h : ∀ t ∈ c.targets file b, known t = known' t) :
    c.assemble file b known = c.assemble file b known' := by
  unfold assemble
  split
  next => rfl
  next job _ =>
    split
    next => rfl
    next renamed _ =>
      refine congrArg (fun k ↦ Except.ok (Module.mk renamed.stylesheet k))
        (Composition.build_congr fun r hr ↦ ?_)
      funext name
      rw [exportedBy, exportedBy, h _ (List.mem_map.2 ⟨r, hr, rfl⟩)]

/-- Whether the remaining transforms fail does not depend on other files. -/
theorem assemble_outcome (c : Compiler) (file : Path) (b : Blueprint)
    (known known' : Path → Option Composition) :
    (c.assemble file b known).map (fun _ ↦ ()) = (c.assemble file b known').map (fun _ ↦ ()) := by
  unfold assemble
  rcases c.pipeline.run .processing b.job with ⟨job, _ | fault⟩
  · dsimp only
    rcases c.pipeline.run .after (job.edit (rename (c.scopedName file))) with ⟨renamed, _ | fault⟩
    · simp only [Except.map]
    · rfl
  · rfl

/-- With safe transforms every blueprint is compiled to its end. -/
theorem assemble_ok (h : c.pipeline.IsSafe) (file : Path) (b : Blueprint)
    (known : Path → Option Composition) : ∃ m, c.assemble file b known = .ok m := by
  obtain ⟨job, hjob⟩ := Transform.isSafe_runAll h.processing b.job
  obtain ⟨renamed, hrenamed⟩ :=
    Transform.isSafe_runAll h.after (job.edit (rename (c.scopedName file)))
  unfold assemble
  simp only [Pipeline.run, Pipeline.stage, hjob, hrenamed]
  exact ⟨_, rfl⟩

/-- Finishing a file adds its edges, and its module unless a transform fails. -/
theorem finish_eq_assemble (hc : c.pipeline.IsDetermined) (draft : Draft)
    {files : List (String × Path)}
    (hfiles : ∀ r ∈ references draft.composes, files.lookup r = some (c.target file r))
    (s : ModuleStore) : ∃ journal : Journal, finish c file draft files s =
      match c.assemble file (.ofDraft draft) s.composition? with
      | .ok m =>
        (⟨files.foldl (fun g e ↦ g.add file e.2) s.graph, s.modules.insert file m, journal⟩, .ok ())
      | .error fault => (⟨files.foldl (fun g e ↦ g.add file e.2) s.graph, s.modules, journal⟩,
          .error fault) := by
  have hafter := hc.run .after
  have halike := (hc.run .processing).alike (Blueprint.alike_job draft s.journal)
  have hfault := (hc.run .processing).fault (Blueprint.alike_job draft s.journal)
  unfold finish assemble
  simp only [edit_scope]
  rcases hj : c.pipeline.run .processing { draft.job with journal := s.journal }
    with ⟨j, _ | f⟩ <;>
  rcases hk : c.pipeline.run .processing (Blueprint.ofDraft draft).job with ⟨k, _ | f'⟩ <;>
  simp only [hj, hk, reduceCtorEq, Option.some.injEq] at halike hfault ⊢
  · have hrenamed : Job.Alike (j.edit (rename (c.scopedName file)))
        (k.edit (rename (c.scopedName file))) :=
      ⟨congrArg (rename (c.scopedName file)) halike.stylesheet, halike.messages⟩
    have halike' := hafter.alike hrenamed
    have hfault' := hafter.fault hrenamed
    rcases hj' : c.pipeline.run .after (j.edit (rename (c.scopedName file)))
      with ⟨j', _ | f⟩ <;>
    rcases hk' : c.pipeline.run .after (k.edit (rename (c.scopedName file)))
      with ⟨k', _ | f'⟩ <;>
    simp only [hj', hk', reduceCtorEq, Option.some.injEq] at halike' hfault' ⊢
    · refine ⟨j'.journal, ?_⟩
      rw [halike'.stylesheet, halike.stylesheet]
      have hcomposition :
          (scope c { s with graph := files.foldl (fun g e ↦ g.add file e.2) s.graph }
            (c.sourceKey file) k.stylesheet draft.composes files).2 =
          Composition.build (c.scopedName file)
            (fun reference ↦ c.exportedBy s.composition? (c.target file reference))
            k.stylesheet.styles draft.composes := by
        refine Composition.build_congr fun r hr ↦ ?_
        funext name
        rw [exported, hfiles r hr]
        rfl
      rw [hcomposition]
      rfl
    · exact ⟨j'.journal, by rw [hfault']⟩
  · exact ⟨j.journal, by rw [hfault]⟩

/-- Finishing a file leaves the ledger alone. -/
theorem imports_finish (hc : c.pipeline.RecordsImports) (draft : Draft)
    (files : List (String × Path)) (s : ModuleStore) :
    (finish c file draft files s).1.journal.imports = s.journal.imports := by
  have himports := Transform.keepsLedger_runAll hc.processing
    { draft.job with journal := s.journal }
  have hafter := Transform.keepsLedger_runAll hc.after
  unfold finish
  simp only [edit_scope, Pipeline.run, Pipeline.stage]
  rcases hj : Transform.runAll c.pipeline.processing { draft.job with journal := s.journal }
    with ⟨j, _ | f⟩ <;>
  simp only [hj] at himports ⊢
  · have himports' := hafter (j.edit (rename (c.scopedName file)))
    rcases hj' : Transform.runAll c.pipeline.after (j.edit (rename (c.scopedName file)))
      with ⟨j', _ | f⟩ <;>
    simp only [hj'] at himports' ⊢ <;>
    exact himports'.trans himports
  · exact himports

theorem finish_eq (hc : c.IsRegular) (draft : Draft) {files : List (String × Path)}
    (hfiles : ∀ r ∈ references draft.composes, files.lookup r = some (c.target file r))
    (s : ModuleStore) :
    ∃ journal : Journal, journal.imports = s.journal.imports ∧ finish c file draft files s =
      match c.assemble file (.ofDraft draft) s.composition? with
      | .ok m =>
        (⟨files.foldl (fun g e ↦ g.add file e.2) s.graph, s.modules.insert file m, journal⟩, .ok ())
      | .error fault => (⟨files.foldl (fun g e ↦ g.add file e.2) s.graph, s.modules, journal⟩,
          .error fault) := by
  obtain ⟨journal, heq⟩ := finish_eq_assemble hc.isDetermined draft hfiles s
  refine ⟨journal, ?_, heq⟩
  have himports : (finish c file draft files s).1.journal.imports = s.journal.imports :=
    imports_finish hc.collectsImports.recordsImports draft files s
  rw [heq] at himports
  split at himports <;> exact himports

end Compiler

end StyleModules
