import StyleModules.Proofs.Compilation
import StyleModules.Proofs.Edges
import StyleModules.Proofs.Location

/-!
# What is made from paths that denote the same

Stylesheets can differ in how their files are written and otherwise be the same.  Resolvers and
transforms that look at what paths denote, as all of a build do, do not tell such stylesheets apart.
Then a file is compiled to the same under every path that denotes it.
-/

namespace StyleModules

open ModuleStore

/-! ## Stylesheets -/

/-- The same rules from the same file. -/
structure StyleChunk.Same (c d : StyleChunk) : Prop where
  file : c.file.map Path.components = d.file.map Path.components
  sheet : c.sheet = d.sheet

namespace StyleChunk.Same

variable {c d e : StyleChunk}

theorem refl (c : StyleChunk) : c.Same c := ⟨rfl, rfl⟩

theorem symm (h : c.Same d) : d.Same c := ⟨h.file.symm, h.sheet.symm⟩

theorem trans (h : c.Same d) (h' : d.Same e) : c.Same e :=
  ⟨h.file.trans h'.file, h.sheet.trans h'.sheet⟩

theorem mapRules (h : c.Same d) (f : List Css.Rule → List Css.Rule) :
    (c.mapRules f).Same (d.mapRules f) :=
  ⟨h.file, congrArg (fun s ↦ { s with rules := f s.rules }) h.sheet⟩

/-- The files of the chunks can be told one by one. -/
theorem cases_file (h : c.Same d) : (c.file = none ∧ d.file = none) ∨
    ∃ p q : Path, c.file = some p ∧ d.file = some q ∧ p.Same q := by
  have hfile := h.file
  cases hc : c.file <;> cases hd : d.file <;> simp only [hc, hd, Option.map_none, Option.map_some,
    reduceCtorEq, Option.some.injEq] at hfile
  · exact .inl ⟨rfl, rfl⟩
  · exact .inr ⟨_, _, rfl, rfl, hfile⟩

/-- An edit that depends on the directory of a file does not see how the file is written. -/
theorem editIn (h : c.Same d) (f : Path → List Css.Rule → List Css.Rule)
    (hf : ∀ p q : Path, p.Same q → f p = f q) :
    StyleChunk.Same (match c.file with | some file => c.mapRules (f file) | none => c)
      (match d.file with | some file => d.mapRules (f file) | none => d) := by
  rcases h.cases_file with ⟨hc, hd⟩ | ⟨p, q, hc, hd, hpq⟩
  · rw [hc, hd]
    exact h
  · simp only [hc, hd, hf p q hpq]
    exact h.mapRules _

end StyleChunk.Same

/-- The same chunks in the same order. -/
structure Stylesheet.Same (s t : Stylesheet) : Prop where
  source : s.source.Same t.source
  chunks : List.Forall₂ StyleChunk.Same s.chunks t.chunks

namespace Stylesheet.Same

variable {s t u : Stylesheet}

theorem symm (h : s.Same t) : t.Same s :=
  ⟨h.source.symm, (h.chunks.imp fun _ _ ↦ StyleChunk.Same.symm).flip⟩

theorem mapChunks (h : s.Same t) {f : StyleChunk → StyleChunk}
    (hf : ∀ c d : StyleChunk, c.Same d → (f c).Same (f d)) : (s.mapChunks f).Same (t.mapChunks f) :=
  ⟨h.source, List.forall₂_map_left_iff.2 (List.forall₂_map_right_iff.2 (h.chunks.imp hf))⟩

theorem sheets_eq {cs ds : List StyleChunk} (h : List.Forall₂ StyleChunk.Same cs ds) :
    cs.map StyleChunk.sheet = ds.map StyleChunk.sheet := by
  induction h with
  | nil => rfl
  | cons h _ ih => rw [List.map_cons, List.map_cons, h.sheet, ih]

/-- What is gathered from the sheets of the chunks is the same. -/
theorem gathered_eq {α : Type} (h : s.Same t) (f : Css.Sheet → List α) :
    s.chunks.flatMap (fun c ↦ f c.sheet) = t.chunks.flatMap (fun c ↦ f c.sheet) := by
  have hsheets := congrArg (List.flatMap f) (sheets_eq h.chunks)
  rwa [List.flatMap_map, List.flatMap_map] at hsheets

theorem styles_eq (h : s.Same t) : s.styles = t.styles :=
  h.gathered_eq fun sheet ↦ Css.Rule.stylesOfAll sheet.rules

theorem composes_eq (h : s.Same t) : s.composes = t.composes := by
  rw [composes, composes, h.styles_eq]

theorem css_eq (h : s.Same t) (minified : Bool) : s.css minified = t.css minified := by
  have hcomments := h.gathered_eq Css.Sheet.comments
  have hrules : s.rules = t.rules := h.gathered_eq Css.Sheet.rules
  rw [css, css, joined, joined, hcomments, hrules]

theorem withoutComposes (h : s.Same t) : s.withoutComposes.Same t.withoutComposes :=
  h.mapChunks fun _ _ hcd ↦ hcd.mapRules _

theorem rename (h : s.Same t) (own : String → String) :
    (ModuleStore.rename own s).Same (ModuleStore.rename own t) :=
  h.mapChunks fun _ _ hcd ↦ hcd.mapRules _

end Stylesheet.Same

/-- The same news. -/
structure ImportMessage.Same (m n : ImportMessage) : Prop where
  file : m.file.Same n.file
  parent : m.parent.Same n.parent

/-- The same stylesheet with the same messages. -/
structure Job.Same (j k : Job) : Prop where
  stylesheet : j.stylesheet.Same k.stylesheet
  messages : List.Forall₂ ImportMessage.Same j.messages k.messages

/-- The same stylesheet with the same composition. -/
structure Module.Same (m n : Module) : Prop where
  stylesheet : m.stylesheet.Same n.stylesheet
  composition : m.composition = n.composition

theorem Module.Same.symm {m n : Module} (h : m.Same n) : n.Same m :=
  ⟨h.stylesheet.symm, h.composition.symm⟩

theorem Module.Same.trans {l m n : Module} (h : l.Same m) (h' : m.Same n) : l.Same n := by
  refine ⟨⟨h.stylesheet.source.trans h'.stylesheet.source, ?_⟩,
    h.composition.trans h'.composition⟩
  have htrans : ∀ {cs ds es : List StyleChunk}, List.Forall₂ StyleChunk.Same cs ds →
      List.Forall₂ StyleChunk.Same ds es → List.Forall₂ StyleChunk.Same cs es := by
    intro cs ds es hcd
    induction hcd generalizing es with
    | nil => exact id
    | cons hcd _ ih =>
      intro hde
      cases hde with
      | cons hde hrest => exact .cons (hcd.trans hde) (ih hrest)
  exact htrans h.stylesheet.chunks h'.stylesheet.chunks

/-! ## Resolvers and transforms -/

/-- References are resolved by what the file denotes that they are written in. -/
def PathResolver.IsExtensional (r : PathResolver) : Prop :=
  ∀ (reference : String) ⦃p q : Path⦄ (options : ResolveOptions), p.Same q →
    options.sourceIsDirectory = false →
      r.absolute reference p options = r.absolute reference q options ∧
        r.relative reference p options = r.relative reference q options

theorem PathResolver.isExtensional_ofNamespaces (namespaces : Table String Path) :
    (ofNamespaces namespaces).IsExtensional := by
  intro reference p q options hpq hfile
  have hdirectory : options.directory? p = options.directory? q := by
    simp [ResolveOptions.directory?, hfile, hpq.parent?_eq]
  have habsolute : absoluteIn namespaces reference p options =
      absoluteIn namespaces reference q options := by
    simp only [absoluteIn, target?, hdirectory]
  refine ⟨habsolute, ?_⟩
  change relativeIn namespaces reference p options = relativeIn namespaces reference q options
  rw [relativeIn, relativeIn, habsolute, hdirectory]

/-- What is done to a job depends on what its stylesheet and messages denote; how their paths are
written can only show in how a failure is told. -/
structure Job.IsExtensional (run : Job → Job × Option Fault) : Prop extends IsDetermined run where
  same : ∀ ⦃j k⦄, j.Same k → (run j).1.Same (run k).1
  fails : ∀ ⦃j k⦄, j.Same k → ((run j).2 = none ↔ (run k).2 = none)

namespace Transform

theorem isExtensional_ofEdit (name : String) {f : Stylesheet → Stylesheet}
    (hf : ∀ s t : Stylesheet, s.Same t → (f s).Same (f t)) :
    Job.IsExtensional (ofEdit name f).run where
  toIsDetermined := (isPure_ofEdit name f).toIsDetermined
  same _ _ h := ⟨hf _ _ h.stylesheet, h.messages⟩
  fails _ _ _ := Iff.rfl

theorem isExtensional_collectImports : Job.IsExtensional collectImports.run where
  toIsDetermined := isDetermined_collectImports
  same _ _ h := ⟨h.stylesheet, h.messages⟩
  fails _ _ _ := Iff.rfl

theorem isExtensional_references {resolver : PathResolver} (h : resolver.IsExtensional) :
    Job.IsExtensional (References.transform resolver).run := by
  refine isExtensional_ofEdit _ fun s t hst ↦ hst.mapChunks fun c d hcd ↦ ?_
  refine hcd.editIn (fun file ↦ Css.Rule.mapReferencesOfAll (References.redirect resolver file)
    (References.redirect resolver file)) fun p q hpq ↦ ?_
  have hredirect : References.redirect resolver p = References.redirect resolver q := by
    funext reference
    rw [References.redirect, References.redirect,
      (h reference References.options hpq rfl).2]
  rw [hredirect]

theorem isExtensional_assets (options : Assets.Options) :
    Job.IsExtensional (Assets.transform options).run := by
  have hpublish : ∀ s t : Stylesheet, s.Same t → (s.mapChunks (Assets.publishChunk options)).Same
      (t.mapChunks (Assets.publishChunk options)) := by
    refine fun s t hst ↦ hst.mapChunks fun c d hcd ↦ ?_
    refine hcd.editIn (fun file ↦ Css.Rule.mapReferencesOfAll id
      (Assets.publish options (file.parent?.getD ⟨""⟩))) fun p q hpq ↦ ?_
    rw [hpq.parent?_eq]
  refine ⟨(isPure_assets options).toIsDetermined, fun j k h ↦ ?_, fun j k h ↦ ?_⟩
  all_goals
    unfold Assets.transform
    dsimp only
    split
  · exact ⟨hpublish _ _ h.stylesheet, h.messages⟩
  · exact h
  · exact Iff.rfl
  · simp

theorem isExtensional_discardEmpty : Job.IsExtensional DiscardEmpty.transform.run :=
  isExtensional_ofEdit _ fun _ _ hst ↦ hst.mapChunks fun _ _ hcd ↦ hcd.mapRules _

theorem isExtensional_runAll {ts : List Transform} (h : ∀ t ∈ ts, Job.IsExtensional t.run) :
    Job.IsExtensional (runAll ts) := by
  have hrun : ∀ ⦃j k : Job⦄, j.Same k → (runAll ts j).1.Same (runAll ts k).1 ∧
      ((runAll ts j).2 = none ↔ (runAll ts k).2 = none) := by
    induction ts with
    | nil => exact fun _ _ hjk ↦ ⟨hjk, Iff.rfl⟩
    | cons t ts ih =>
      intro j k hjk
      obtain ⟨ht, hts⟩ := List.forall_mem_cons.1 h
      have hsame := ht.same hjk
      have hfails := ht.fails hjk
      unfold runAll
      rcases hj : t.run j with ⟨j', _ | f⟩ <;> rcases hk : t.run k with ⟨k', _ | f'⟩ <;>
        simp only [hj, hk, reduceCtorEq, iff_true, iff_false, not_true_eq_false] at hsame hfails ⊢
      · exact ih hts hsame
      · exact ⟨hsame, trivial⟩
  exact ⟨isDetermined_runAll fun t ht ↦ (h t ht).toIsDetermined, fun _ _ hjk ↦ (hrun hjk).1,
    fun _ _ hjk ↦ (hrun hjk).2⟩

end Transform

/-- All transforms of a pipeline go by what paths denote. -/
def Pipeline.IsExtensional (p : Pipeline) : Prop :=
  ∀ stage, ∀ t ∈ p.stage stage, Job.IsExtensional t.run

namespace Pipeline.IsExtensional

variable {p : Pipeline}

theorem run (h : p.IsExtensional) (stage : Stage) : Job.IsExtensional (p.run stage) :=
  Transform.isExtensional_runAll (h stage)

theorem isDetermined (h : p.IsExtensional) : p.IsDetermined :=
  fun stage t ht ↦ (h stage t ht).toIsDetermined

theorem empty : Pipeline.empty.IsExtensional := by
  intro stage
  cases stage <;> exact List.forall_mem_nil _

theorem forBuild {paths : PathResolver} (hpaths : paths.IsExtensional)
    (assets : Transform.Assets.Options) (h : p.IsExtensional) :
    (Pipeline.forBuild paths assets p).IsExtensional := by
  intro stage t ht
  cases stage with
  | before =>
    rcases List.mem_cons.1 ht with rfl | ht
    · exact Transform.isExtensional_collectImports
    · exact h .before t ht
  | processing => exact h .processing t ht
  | after =>
    rcases List.mem_cons.1 ht with rfl | ht
    · exact Transform.isExtensional_references hpaths
    · rcases List.mem_cons.1 ht with rfl | ht
      · exact Transform.isExtensional_assets assets
      · exact h .after t ht
  | done =>
    rcases List.mem_cons.1 ht with rfl | ht
    · exact Transform.isExtensional_discardEmpty
    · exact h .done t ht

end Pipeline.IsExtensional

namespace Imports

/-- The same progress. -/
structure Progress.Same (p q : Progress) : Prop where
  inlined : List.Forall₂ Path.Same p.inlined q.inlined
  messages : List.Forall₂ ImportMessage.Same p.messages q.messages

/-- The same outcome, up to what is left behind by a failure and how it is told. -/
inductive Outcome.Same : Outcome → Outcome → Prop
  | failed (p q : Progress) (f g : Fault) : Same (p, .error f) (q, .error g)
  | done {p q : Progress} {cs ds : List StyleChunk} (progress : p.Same q)
      (chunks : List.Forall₂ StyleChunk.Same cs ds) : Same (p, .ok cs) (q, .ok ds)

/-- Steps that do not tell apart what is the same, one after the other. -/
theorem inOrder_same {α : Type} {R : α → α → Prop} (step step' : α → Progress → Outcome)
    (hstep : ∀ ⦃x y p q⦄, R x y → Progress.Same p q → Outcome.Same (step x p) (step' y q))
    {xs ys : List α} (hxs : List.Forall₂ R xs ys) {p q : Progress} (hpq : p.Same q) :
    Outcome.Same (inOrder step xs p) (inOrder step' ys q) := by
  induction hxs generalizing p q with
  | nil => exact .done hpq .nil
  | @cons x y xs ys hxy _ ih =>
    have hfirst := hstep hxy hpq
    unfold inOrder
    generalize step x p = o at hfirst
    generalize step' y q = o' at hfirst
    cases hfirst with
    | failed => exact .failed _ _ _ _
    | @done p q cs ds hprogress hchunks =>
      have hrest := ih hprogress
      dsimp only
      generalize inOrder step xs p = r at hrest
      generalize inOrder step' ys q = r' at hrest
      cases hrest with
      | failed => exact .failed _ _ _ _
      | done hprogress' hmore => exact .done hprogress' (List.rel_append hchunks hmore)

variable {s : Sources}

theorem target_eq {file file' : Path} (h : file.Same file') (resolver : PathResolver)
    (reference : String) : target resolver file reference = target resolver file' reference := by
  rw [target, target, h.parent?_eq]

theorem pull_same {expand : StyleChunk → Progress → Outcome}
    (hexpand : ∀ ⦃c d p q⦄, StyleChunk.Same c d → Progress.Same p q →
      Outcome.Same (expand c p) (expand d q))
    {file file' : Path} (hfile : file.Same file') (reference : String) {p q : Progress}
    (hpq : p.Same q) :
    Outcome.Same (pull s expand file reference p) (pull s expand file' reference q) := by
  unfold pull
  rw [resolve_eq, resolve_eq, target_eq hfile]
  generalize target s.resolver file' reference = g
  by_cases hexists : s.files.isFile g = true
  · simp only [hexists, if_true, Path.isAmong_congr hpq.inlined]
    by_cases hmet : g.isAmong q.inlined = true
    · simp only [hmet, if_true]
      exact .done hpq .nil
    · simp only [hmet, if_false, Bool.false_eq_true]
      rcases readChunk s g with fault | imported
      · exact .failed _ _ _ _
      · have hnext : Progress.Same { p with inlined := p.inlined ++ [g] }
            { q with inlined := q.inlined ++ [g] } :=
          ⟨List.rel_append hpq.inlined (.cons rfl .nil), hpq.messages⟩
        have hinner := hexpand (StyleChunk.Same.refl imported) hnext
        dsimp only
        generalize expand imported _ = o at hinner
        generalize expand imported _ = o' at hinner
        cases hinner with
        | failed => exact .failed _ _ _ _
        | @done p q cs ds hprogress hchunks =>
          have hmessage : ImportMessage.Same ⟨g, file⟩ ⟨g, file'⟩ := ⟨rfl, hfile⟩
          exact .done ⟨hprogress.inlined,
            List.rel_append hprogress.messages (.cons hmessage .nil)⟩ hchunks
  · simp only [hexists, Bool.false_eq_true, if_false]
    exact .failed _ _ _ _

theorem expand_same (limit : Nat) {c d : StyleChunk} (hcd : c.Same d) {p q : Progress}
    (hpq : p.Same q) : Outcome.Same (expand s limit c p) (expand s limit d q) := by
  induction limit generalizing c d p q with
  | zero => exact .failed _ _ _ _
  | succ limit ih =>
    have hreferences : references c = references d := by
      rw [references, references, hcd.sheet]
    unfold expand
    rcases hcd.cases_file with ⟨hc, hd⟩ | ⟨file, file', hc, hd, hfile⟩
    · rw [hc, hd]
      exact .done hpq (.cons hcd .nil)
    · rw [hc, hd, hreferences]
      have hinner := inOrder_same (pull s (expand s limit) file)
        (pull s (expand s limit) file') (R := Eq)
        (fun r r' p q hr hpq ↦ hr ▸ pull_same (fun _ _ _ _ hcd hpq ↦ ih hcd hpq) hfile r hpq)
        (List.forall₂_eq_eq_eq ▸ rfl : List.Forall₂ Eq (references d) (references d)) hpq
      dsimp only
      generalize inOrder _ _ p = o at hinner
      generalize inOrder _ _ q = o' at hinner
      cases hinner with
      | failed => exact .failed _ _ _ _
      | done hprogress hchunks =>
        exact .done hprogress (List.rel_append hchunks (.cons (hcd.mapRules _) .nil))

/-- Stylesheets that are the same are the same when their imports are inlined. -/
theorem inline_same {sheet sheet' inlined : Stylesheet} (h : sheet.Same sheet')
    {messages : List ImportMessage} (hinline : inline s sheet = (messages, .ok inlined)) :
    ∃ messages' inlined', inline s sheet' = (messages', .ok inlined') ∧
      List.Forall₂ ImportMessage.Same messages messages' ∧ inlined.Same inlined' := by
  have hstart : Progress.Same ⟨[sheet.source], []⟩ ⟨[sheet'.source], []⟩ :=
    ⟨.cons h.source .nil, .nil⟩
  have hall := inOrder_same _ _ (R := StyleChunk.Same)
    (fun _ _ _ _ hcd hpq ↦ expand_same (s := s) s.files.chainLimit hcd hpq) h.chunks hstart
  unfold inline at hinline ⊢
  generalize inOrder _ _ _ = o at hall hinline
  generalize inOrder _ _ _ = o' at hall
  cases hall with
  | failed => simp at hinline
  | done hprogress hchunks =>
    obtain ⟨rfl, heq⟩ := Prod.mk.inj hinline
    obtain rfl := Except.ok.inj heq
    exact ⟨_, _, rfl, hprogress.messages, h.source, hchunks⟩

end Imports

/-! ## Compiling -/

/-- A compiler that goes by what paths denote. -/
structure Compiler.IsExtensional (c : Compiler) : Prop where
  resolver : c.resolver.IsExtensional
  pipeline : c.pipeline.IsExtensional

theorem Stylesheet.read_eq_ok {file : Path} {code : String} {sheet : Stylesheet}
    (h : read file code = .ok sheet) :
    ∃ parsed, sheet = ⟨file, [⟨some file, parsed⟩]⟩ ∧
      ∀ file', read file' code = .ok ⟨file', [⟨some file', parsed⟩]⟩ := by
  unfold read StyleChunk.read at h ⊢
  cases hparsed : Css.Sheet.read code with
  | error failure => simp [hparsed, Except.map] at h
  | ok parsed =>
    simp only [hparsed, Except.map, Except.ok.injEq] at h
    exact ⟨parsed, h.symm, fun file' ↦ rfl⟩

/-- The same blueprint. -/
structure Blueprint.Same (b b' : Blueprint) : Prop where
  stylesheet : b.stylesheet.Same b'.stylesheet
  messages : List.Forall₂ ImportMessage.Same b.messages b'.messages
  composes : b.composes = b'.composes

namespace Compiler

variable {c : Compiler} {fs : FileSystem} {file file' : Path}

theorem load_same (h : file.Same file') (hexists : fs.isFile file' = true)
    {messages : List ImportMessage} {sheet : Stylesheet}
    (hload : load c fs file = .ok (messages, sheet)) : ∃ messages' sheet',
      load c fs file' = .ok (messages', sheet') ∧
        List.Forall₂ ImportMessage.Same messages messages' ∧ sheet.Same sheet' := by
  have hfile : fs.isFile file = true := isFile_of_mem_sources (mem_sources_of_load hload)
  have hread := (FileSystem.sameFile_of_same h hfile hexists).readText_eq
  unfold load at hload ⊢
  cases hcode : fs.readText file' with
  | error fault => simp [hread, hcode] at hload
  | ok code =>
    simp only [hread, hcode] at hload ⊢
    cases hsheet : Stylesheet.read file code with
    | error fault => simp [hsheet] at hload
    | ok s =>
      obtain ⟨parsed, rfl, hall⟩ := Stylesheet.read_eq_ok hsheet
      have hsame : Stylesheet.Same ⟨file, [⟨some file, parsed⟩]⟩ ⟨file', [⟨some file', parsed⟩]⟩ :=
        ⟨h, .cons ⟨congrArg some h, rfl⟩ .nil⟩
      simp only [hall] at hload ⊢
      split at hload
      next => simp at hload
      next ms inlined hinline =>
        obtain ⟨rfl, rfl⟩ := Prod.mk.inj (Except.ok.inj hload)
        obtain ⟨messages', sheet', hinline', hmessages, hinlined⟩ :=
          Imports.inline_same hsame hinline
        rw [hinline']
        exact ⟨messages', sheet', rfl, hmessages, hinlined⟩

/-- A file has the same blueprint under every path that denotes it. -/
theorem blueprint_same (hc : c.IsExtensional) (h : file.Same file')
    (hexists : fs.isFile file' = true) {b : Blueprint} (hb : c.blueprint fs file = .ok b) :
    ∃ b', c.blueprint fs file' = .ok b' ∧ b.Same b' := by
  obtain ⟨⟨messages, sheet⟩, hload⟩ := load_of_blueprint hb
  obtain ⟨messages', sheet', hload', hmessages, hsheet⟩ := load_same h hexists hload
  have hrun := hc.pipeline.run .before
  have hjob : Job.Same { Job.start .empty sheet with messages := messages }
      { Job.start .empty sheet' with messages := messages' } := ⟨hsheet, hmessages⟩
  have hsame := hrun.same hjob
  have hfails := hrun.fails hjob
  unfold blueprint prepare at hb ⊢
  rw [hload] at hb
  rw [hload']
  dsimp only at hb ⊢
  rcases hj : c.pipeline.run .before { Job.start .empty sheet with messages := messages }
    with ⟨j, _ | fault⟩
  all_goals rw [hj] at hb hsame hfails
  · rcases hk : c.pipeline.run .before { Job.start .empty sheet' with messages := messages' }
      with ⟨k, _ | fault⟩
    · rw [hk] at hsame
      simp only [Except.map, Blueprint.ofDraft_extract, Except.ok.injEq] at hb ⊢
      subst hb
      exact ⟨_, rfl, hsame.stylesheet.withoutComposes, hsame.messages, by
        rw [hsame.stylesheet.composes_eq]⟩
    · simp [hk] at hfails
  · simp [Except.map] at hb

theorem target_eq (hc : c.IsExtensional) (h : file.Same file') (reference : String) :
    c.target file reference = c.target file' reference := by
  rw [target, target, (hc.resolver reference (.stylesheet false) h rfl).1]

theorem targets_eq (hc : c.IsExtensional) (h : file.Same file') {b b' : Blueprint}
    (hb : b.Same b') : c.targets file b = c.targets file' b' := by
  rw [targets, targets, hb.composes]
  exact List.map_congr_left fun r _ ↦ target_eq hc h r

theorem scopedName_eq (h : file.Same file') : c.scopedName file = c.scopedName file' := by
  funext name
  rw [scopedName, scopedName, sourceKey, sourceKey, h.resourceKey_projectPath_eq]

/-- The same blueprints become the same modules if the same is known of other files. -/
theorem assemble_same (hc : c.IsExtensional) (h : file.Same file') {b b' : Blueprint}
    (hb : b.Same b') {known known' : Path → Option Composition}
    (hknown : ∀ q ∈ c.targets file b, known q = known' q) {m : Module}
    (hm : c.assemble file b known = .ok m) :
    ∃ m', c.assemble file' b' known' = .ok m' ∧ m.Same m' := by
  have hprocess := hc.pipeline.run .processing
  have hafter := hc.pipeline.run .after
  have hjob : Job.Same b.job b'.job := ⟨hb.stylesheet, hb.messages⟩
  have hsame := hprocess.same hjob
  have hfails := hprocess.fails hjob
  have htargets := targets_eq hc h hb
  rw [assemble_congr hknown] at hm
  unfold assemble at hm ⊢
  rcases hj : c.pipeline.run .processing b.job with ⟨j, _ | fault⟩
  all_goals rw [hj] at hm hsame hfails
  · rcases hk : c.pipeline.run .processing b'.job with ⟨k, _ | fault⟩
    · rw [hk] at hsame
      have hrenamed : Job.Same (j.edit (rename (c.scopedName file)))
          (k.edit (rename (c.scopedName file'))) := by
        rw [scopedName_eq h]
        exact ⟨hsame.stylesheet.rename _, hsame.messages⟩
      have hsame' := hafter.same hrenamed
      have hfails' := hafter.fails hrenamed
      dsimp only at hm ⊢
      rcases hj' : c.pipeline.run .after (j.edit (rename (c.scopedName file)))
        with ⟨j', _ | fault⟩
      all_goals rw [hj'] at hm hsame' hfails'
      · rcases hk' : c.pipeline.run .after (k.edit (rename (c.scopedName file')))
          with ⟨k', _ | fault⟩
        · rw [hk'] at hsame'
          obtain rfl := Except.ok.inj hm
          refine ⟨_, rfl, hsame'.stylesheet, ?_⟩
          simp only [scopedName_eq h, hsame.stylesheet.styles_eq, hb.composes, target_eq hc h]
        · simp [hk'] at hfails'
      · simp at hm
    · simp [hk] at hfails
  · simp at hm

end Compiler

/-- Sessions start with compilers that go by what paths denote. -/
theorem Session.isExtensional_of_start {o : Options} {extras : Extras} {fs : FileSystem}
    {s : Session} (hstart : Session.start fs o extras = .ok s)
    (hpaths : ∀ r, extras.paths = some r → r.IsExtensional)
    (htransforms : extras.transforms.IsExtensional) : s.compiler.IsExtensional := by
  obtain ⟨d, out, -, -, rfl⟩ := start_eq_ok hstart
  have hresolver : (extras.paths.getD (namespacesOf o (rootOf o d))).IsExtensional := by
    cases h : extras.paths with
    | none => exact PathResolver.isExtensional_ofNamespaces _
    | some r => exact hpaths r h
  exact ⟨hresolver, Pipeline.IsExtensional.forBuild hresolver _ htransforms⟩

end StyleModules
