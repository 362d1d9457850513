import StyleModules.Proofs.Addresses
import StyleModules.Proofs.Compilations
import StyleModules.Proofs.ImportClosure
import StyleModules.Proofs.Provenance

/-!
# References in inlined chunks

A chunk that is inlined keeps its file, and its imports and addresses are seen from there.  What its
classes are composed of is not: a reference behind `composes` is seen from the file that is compiled.
It names the same file from there if it is external or has a namespace, or if both directories are
the same as many levels up as the reference climbs; and otherwise another one, as long as it ends in
a name.
-/

namespace StyleModules

open StyleModules.Path

/-! ## Directories that a reference is seen from -/

theorem Reference.isAbsolute_of_not_isExternal {reference : String}
    (h : Reference.isExternal reference = false) : (Path.mk reference).isAbsolute = false := by
  rw [Bool.eq_false_iff]
  intro habsolute
  have hslash : reference.startsWith "/" = true := by
    obtain ⟨rest, hrest⟩ := List.head?_eq_some_iff.1 (by simpa [isAbsolute] using habsolute)
    exact String.startsWith_string_iff.2 ⟨rest, hrest.symm⟩
  simp [Reference.isExternal, hslash] at h

/-- A reference names the same from two directories: it does not depend on them, or they are the same
as many levels up as it climbs. -/
def Reference.MeansSame (reference : String) (d d' : Path) : Prop :=
  (reference.isEmpty || isExternal reference) = true ∨ isNamespaced reference = true ∨
    above (Path.mk reference).height d = above (Path.mk reference).height d'

instance (reference : String) (d d' : Path) : Decidable (Reference.MeansSame reference d d') :=
  inferInstanceAs (Decidable (_ ∨ _ ∨ _))

/-- Of paths with the same file name, each is completed to another one. -/
theorem ResolveOptions.eq_of_complete_eq {options : ResolveOptions} {p q : Path}
    (hname : p.fileName? = q.fileName?) (h : options.complete p = options.complete q) : p = q := by
  have hextension : p.extension? = q.extension? := by rw [extension?, extension?, hname]
  unfold complete at h
  rw [← hextension] at h
  split at h
  next e _ _ =>
    rw [addExtension, addExtension, ← hname] at h
    split at h
    next => exact h
    next =>
      split at h
      next => exact h
      next =>
        have htext := congrArg String.toList (congrArg Path.text h)
        simp only [String.toList_append, List.append_left_inj] at htext
        cases p
        cases q
        exact congrArg Path.mk (String.toList_inj.1 htext)
  next => exact h

namespace Compiler

variable {c : Compiler} {namespaces : Table String Path} {reference : String} {p g d d' : Path}

/-- A reference that depends on the directory it is seen from. -/
theorem target_of_relative (hresolver : c.resolver = .ofNamespaces namespaces)
    (hparent : p.parent? = some d)
    (hlocal : (reference.isEmpty || Reference.isExternal reference) = false)
    (hplain : Reference.isNamespaced reference = false) : c.target p reference =
      (ResolveOptions.stylesheet false).complete (d.join ⟨reference⟩).normalize := by
  have hsplit : Reference.splitNamespace? reference = none := by
    simpa [Reference.isNamespaced] using hplain
  have hdirectory : (ResolveOptions.stylesheet false).directory? p = some d := hparent
  rw [target, hresolver]
  simp [PathResolver.ofNamespaces, PathResolver.absoluteIn, hlocal, PathResolver.target?, hsplit,
    hdirectory]

/-- References that mean the same name the same file. -/
theorem target_eq_of_meansSame (hresolver : c.resolver = .ofNamespaces namespaces)
    (hp : p.IsPlace) (hd : p.parent? = some d) (hg : g.IsPlace) (hd' : g.parent? = some d')
    (h : Reference.MeansSame reference d d') : c.target p reference = c.target g reference := by
  cases hlocal : reference.isEmpty || Reference.isExternal reference with
  | true => simp [target, hresolver, PathResolver.ofNamespaces, PathResolver.absoluteIn, hlocal]
  | false =>
    cases hplain : Reference.isNamespaced reference with
    | true =>
      obtain ⟨⟨name, inside⟩, hsplit⟩ := Option.isSome_iff_exists.1 hplain
      simp [target, hresolver, PathResolver.ofNamespaces, PathResolver.absoluteIn,
        PathResolver.target?, hsplit]
    | false =>
      have habove : above (Path.mk reference).height d = above (Path.mk reference).height d' := by
        simpa [Reference.MeansSame, hlocal, hplain] using h
      have hrelative := Reference.isAbsolute_of_not_isExternal (Bool.or_eq_false_iff.1 hlocal).2
      rw [target_of_relative hresolver hd hlocal hplain,
        target_of_relative hresolver hd' hlocal hplain,
        ((hp.parent? hd).normalize_join hrelative).2.2,
        ((hg.parent? hd').normalize_join hrelative).2.2, habove]

/-- References that end in a name and name the same file mean the same. -/
theorem meansSame_of_target_eq (hresolver : c.resolver = .ofNamespaces namespaces)
    (hp : p.IsPlace) (hd : p.parent? = some d) (hg : g.IsPlace) (hd' : g.parent? = some d')
    (hname : (Path.mk reference).descent ≠ []) (h : c.target p reference = c.target g reference) :
    Reference.MeansSame reference d d' := by
  cases hlocal : reference.isEmpty || Reference.isExternal reference with
  | true => exact .inl hlocal
  | false =>
    cases hplain : Reference.isNamespaced reference with
    | true => exact .inr (.inl hplain)
    | false =>
      have hrelative := Reference.isAbsolute_of_not_isExternal (Bool.or_eq_false_iff.1 hlocal).2
      obtain ⟨hnames, hplace, heq⟩ := (hp.parent? hd).normalize_join hrelative
      obtain ⟨-, hplace', heq'⟩ := (hg.parent? hd').normalize_join hrelative
      rw [target_of_relative hresolver hd hlocal hplain,
        target_of_relative hresolver hd' hlocal hplain, heq, heq'] at h
      refine .inr (.inr ?_)
      -- both results end in the same name, so they differ only in what is above
      obtain ⟨base, hbase, hup⟩ := hplace
      obtain ⟨base', hbase', hup'⟩ := hplace'
      rw [hup, hup', components_ofComponents hbase, components_ofComponents hbase'] at h
      have hall : ∀ c ∈ base ++ (Path.mk reference).descent, c.IsNamed :=
        List.forall_mem_append.2 ⟨hbase, hnames⟩
      have hall' : ∀ c ∈ base' ++ (Path.mk reference).descent, c.IsNamed :=
        List.forall_mem_append.2 ⟨hbase', hnames⟩
      rw [List.cons_append, List.cons_append] at h
      have hsame := ResolveOptions.eq_of_complete_eq (by
        rw [fileName?, fileName?, components_ofComponents hall, components_ofComponents hall',
          ← List.cons_append, ← List.cons_append, List.getLast?_append_of_ne_nil _ hname,
          List.getLast?_append_of_ne_nil _ hname]) h
      have hcomponents := congrArg Path.components hsame
      rw [components_ofComponents hall, components_ofComponents hall'] at hcomponents
      rw [hup, hup', List.append_cancel_right (List.cons.inj hcomponents).2]

end Compiler

/-! ## Chunks that are inlined -/

namespace Imports

/-- Imports have no style rules, so none is lost with them. -/
theorem stylesOfAll_filter_reference? (rules : List Css.Rule) :
    Css.Rule.stylesOfAll (rules.filter fun r ↦ (reference? r).isNone) =
      Css.Rule.stylesOfAll rules := by
  induction rules with
  | nil => rfl
  | cons r rules ih =>
    cases hr : reference? r with
    | none => rw [List.filter_cons_of_pos (by simp [hr]), Css.Rule.stylesOfAll, ih,
        Css.Rule.stylesOfAll]
    | some reference =>
      obtain ⟨i, rfl, -⟩ := reference?_eq_some_iff.1 hr
      rw [List.filter_cons_of_neg (by simp [hr]), ih, Css.Rule.stylesOfAll]
      rfl

theorem styles_withoutReferences (c : StyleChunk) : (withoutReferences c).styles = c.styles :=
  stylesOfAll_filter_reference? c.sheet.rules

end Imports

/-- A transform that leaves the stylesheet as it is. -/
def Transform.KeepsStylesheet (t : Transform) : Prop :=
  ∀ j, (t.run j).1.stylesheet = j.stylesheet

theorem Transform.stylesheet_runAll {ts : List Transform} (h : ∀ t ∈ ts, t.KeepsStylesheet)
    (j : Job) : (runAll ts j).1.stylesheet = j.stylesheet := by
  induction ts generalizing j with
  | nil => rfl
  | cons t ts ih =>
    obtain ⟨ht, hts⟩ := List.forall_mem_cons.1 h
    have hfirst := ht j
    rw [runAll]
    split
    next next heq =>
      rw [heq] at hfirst
      exact (ih hts next).trans hfirst
    next next fault heq =>
      rw [heq] at hfirst
      exact hfirst

/-- The declarations of a chunk that can be understood. -/
def StyleChunk.Declares (k : StyleChunk) (e : Composes) : Prop :=
  .ok e ∈ k.styles.flatMap Composes.ofStyle

namespace Compiler

variable {c : Compiler} {fs : FileSystem} {namespaces : Table String Path} {p g : Path}
  {sheet : Stylesheet} {messages : List ImportMessage} {draft : ModuleStore.Draft}

/-- Each chunk of a file is that of a source, without the imports. -/
theorem exists_readChunk_of_load (h : ModuleStore.load c fs p = .ok (messages, sheet)) :
    ∀ k ∈ sheet.chunks, ∃ g source, Imports.readChunk ⟨fs, c.resolver⟩ g = .ok source ∧
      k = Imports.withoutReferences source := by
  obtain ⟨own, new, before, hread, hinlines, rfl, -⟩ := exists_inlines_of_load h
  refine List.forall_mem_append.2 ⟨fun k hk ↦ ?_, List.forall_mem_singleton.2 ⟨p, own, hread, rfl⟩⟩
  obtain ⟨g, -, source, hsource, hchunk⟩ := hinlines.exists_readChunk.2 k hk
  exact ⟨g, source, hsource, hchunk⟩

/-- Each source of a file has left its chunk. -/
theorem exists_chunk_of_load (h : ModuleStore.load c fs p = .ok (messages, sheet))
    (hg : g ∈ Imports.filesOf sheet.chunks) :
    ∃ source, Imports.readChunk ⟨fs, c.resolver⟩ g = .ok source ∧
      Imports.withoutReferences source ∈ sheet.chunks := by
  obtain ⟨k, hk, hkg⟩ := List.mem_filterMap.1 hg
  obtain ⟨f, source, hread, rfl⟩ := exists_readChunk_of_load h k hk
  obtain rfl : f = g := Option.some.inj ((Imports.file_of_readChunk hread).symm.trans hkg)
  exact ⟨source, hread, hk⟩

/-- A draft has the chunks that were loaded without their declarations, and these apart. -/
theorem exists_load_of_drafts (hbefore : ∀ t ∈ c.pipeline.before, t.KeepsStylesheet)
    (h : c.Drafts fs p draft) : ∃ messages sheet,
      ModuleStore.load c fs p = .ok (messages, sheet) ∧
      draft.job.stylesheet = sheet.withoutComposes ∧
      draft.composes = sheet.composes.filterMap Except.toOption := by
  obtain ⟨journal, hprepare⟩ := h
  unfold ModuleStore.prepare at hprepare
  split at hprepare
  next => simp at hprepare
  next messages sheet hload =>
    have hkept := Transform.stylesheet_runAll hbefore
      { Job.start journal sheet with messages := messages }
    change (c.pipeline.run .before _).1.stylesheet = sheet at hkept
    split at hprepare
    next => simp at hprepare
    next job heq =>
      rw [heq] at hkept
      have hblueprint := Blueprint.ofDraft_extract p job
      rw [Except.ok.inj hprepare, hkept] at hblueprint
      obtain ⟨hstylesheet, -, hcomposes⟩ := Blueprint.mk.inj hblueprint
      exact ⟨messages, sheet, hload, hstylesheet, hcomposes⟩

/-- The chunks of a draft have the sources of its file. -/
theorem sources_eq_of_drafts (hbefore : ∀ t ∈ c.pipeline.before, t.KeepsStylesheet)
    (h : c.Drafts fs p draft) :
    c.sources fs p = Imports.filesOf draft.job.stylesheet.chunks := by
  obtain ⟨messages, sheet, hload, hstylesheet, -⟩ := exists_load_of_drafts hbefore h
  have hfiles : Imports.filesOf sheet.withoutComposes.chunks = Imports.filesOf sheet.chunks :=
    List.filterMap_map
  rw [sources, hload, hstylesheet, hfiles]

/-- All that a source of a file declares is in the draft of the file. -/
theorem mem_composes_of_declares (hbefore : ∀ t ∈ c.pipeline.before, t.KeepsStylesheet)
    (h : c.Drafts fs p draft) (hg : g ∈ c.sources fs p) :
    ∃ source, Imports.readChunk ⟨fs, c.resolver⟩ g = .ok source ∧
      (Imports.withoutReferences source).mapRules (Css.Rule.mapStylesOfAll Composes.strip) ∈
        draft.job.stylesheet.chunks ∧
      ∀ e, source.Declares e → e ∈ draft.composes := by
  obtain ⟨messages, sheet, hload, hstylesheet, hcomposes⟩ := exists_load_of_drafts hbefore h
  rw [sources, hload] at hg
  obtain ⟨source, hread, hchunk⟩ := exists_chunk_of_load hload hg
  refine ⟨source, hread, ?_, fun e he ↦ ?_⟩
  · rw [hstylesheet]
    exact List.mem_map_of_mem hchunk
  · rw [hcomposes]
    refine List.mem_filterMap.2 ⟨.ok e, ?_, rfl⟩
    obtain ⟨r, hr, he⟩ := List.mem_flatMap.1 he
    refine List.mem_flatMap.2 ⟨r, List.mem_flatMap.2 ⟨_, hchunk, ?_⟩, he⟩
    rwa [Imports.styles_withoutReferences]

/-- All that is in the draft of a file is declared in one of its sources. -/
theorem exists_declares_of_mem_composes (hbefore : ∀ t ∈ c.pipeline.before, t.KeepsStylesheet)
    (h : c.Drafts fs p draft) {e : Composes} (he : e ∈ draft.composes) :
    ∃ g ∈ c.sources fs p, ∃ source, Imports.readChunk ⟨fs, c.resolver⟩ g = .ok source ∧
      source.Declares e := by
  obtain ⟨messages, sheet, hload, -, hcomposes⟩ := exists_load_of_drafts hbefore h
  rw [hcomposes] at he
  obtain ⟨x, hx, hxe⟩ := List.mem_filterMap.1 he
  cases x with
  | error value => simp [Except.toOption] at hxe
  | ok own =>
    obtain rfl := Option.some.inj hxe
    obtain ⟨r, hr, hdeclared⟩ := List.mem_flatMap.1 hx
    obtain ⟨k, hk, hr⟩ := List.mem_flatMap.1 hr
    obtain ⟨g, source, hread, rfl⟩ := exists_readChunk_of_load hload k hk
    rw [Imports.styles_withoutReferences] at hr
    have hfile := Imports.file_of_readChunk hread
    refine ⟨g, ?_, source, hread, List.mem_flatMap.2 ⟨r, hr, hdeclared⟩⟩
    rw [sources, hload]
    exact List.mem_filterMap.2 ⟨_, hk, hfile⟩

/-- What a source imports is a source too, as it is seen from there. -/
theorem mem_sources_of_imported (hresolver : c.resolver.IsNamespaced)
    (hroot : fs.isFile ⟨"/"⟩ = false) (hp : p.IsPlace) (hg : g ∈ c.sources fs p)
    {source : StyleChunk} (hread : Imports.readChunk ⟨fs, c.resolver⟩ g = .ok source) :
    ∀ r ∈ Imports.references source, Imports.target c.resolver g r ∈ c.sources fs p := by
  intro r hr
  have hne : p ≠ ⟨"/"⟩ := ne_root_of_mem_sources hroot (self_mem_sources hg)
  unfold sources at hg ⊢
  split at hg
  next messages sheet hload =>
    obtain ⟨own, new, before, hown, hinlines, rfl, -⟩ := exists_inlines_of_load hload
    have hinlining := hinlines.isInlining hresolver hroot hp hne (Imports.file_of_readChunk hown)
    have hchunk : Imports.chunkOf ⟨fs, c.resolver⟩ p own g = .ok source := by
      by_cases hgp : g = p
      · subst hgp
        rw [Imports.chunkOf_root, ← hown, hread]
      · rw [Imports.chunkOf_of_ne hgp, hread]
    exact (hinlining.mem_iff _).2 (((hinlining.mem_iff g).1 hg).tail
      (Imports.imported_of_mem hchunk r hr))
  next => simp at hg

/-- What an import names is what the resolver finds for it as seen from its file. -/
theorem target_eq_of_absolute (hresolver : c.resolver = .ofNamespaces namespaces) {d : Path}
    (hd : g.parent? = some d) {reference : String} {q : Path}
    (h : c.resolver.absolute reference g (.stylesheet false) = some q) :
    Imports.target c.resolver g reference = q := by
  have hsame : c.resolver.absolute reference d (.stylesheet true) =
      c.resolver.absolute reference g (.stylesheet false) := by
    rw [hresolver]
    have hdirectory : (ResolveOptions.stylesheet false).directory? g = some d := hd
    have hdirectory' : (ResolveOptions.stylesheet true).directory? d = some d := rfl
    simp only [PathResolver.ofNamespaces, PathResolver.absoluteIn, PathResolver.target?,
      hdirectory, hdirectory']
    rfl
  rw [Imports.target, hd, Option.getD_some, hsame, h, Option.getD_some]

/-- A file that is compiled has the chunks of all files it imports, each with its own file, so that
imports and addresses are seen from there, as they are when that file is compiled alone.  Its
declarations are found too, but the files that they compose from are seen from the file that is
compiled.  They are the same files as when the other file is compiled alone if the references mean
the same from both directories, and only then if they end in a name. -/
theorem composes_of_inlined (hns : PathResolver.AreAbsolute namespaces)
    (hresolver : c.resolver = .ofNamespaces namespaces)
    (hbefore : ∀ t ∈ c.pipeline.before, t.KeepsStylesheet) (hroot : fs.isFile ⟨"/"⟩ = false)
    (hp : p.IsPlace) (hdraft : c.Drafts fs p draft) (hg : g ∈ c.sources fs p) :
    ∃ source d d', Imports.readChunk ⟨fs, c.resolver⟩ g = .ok source ∧
      p.parent? = some d ∧ g.parent? = some d' ∧
      (∃ k ∈ draft.job.stylesheet.chunks,
        k.file = some g ∧ k.styles = source.styles.map Composes.strip ∧
        ∀ assets, Transform.Assets.publishChunk assets
            (Transform.References.redirectChunk c.resolver k) =
          k.mapRules (Css.Rule.mapReferencesOfAll (Transform.References.redirect c.resolver g)
            (Transform.Assets.publish assets d' ∘ Transform.References.redirect c.resolver g))) ∧
      (∀ r ∈ Imports.references source, ∀ q,
        c.resolver.absolute r g (.stylesheet false) = some q → q ∈ c.sources fs p) ∧
      ∀ e, source.Declares e →
        (e ∈ draft.composes ∧ ∀ own, c.Drafts fs g own → e ∈ own.composes) ∧
        ∀ r, e.composed.source = .file r →
          (∀ q, c.resolve fs p r = .ok q ↔ q = c.target p r ∧ fs.isFile q = true) ∧
          (Reference.MeansSame r d d' → c.target p r = c.target g r) ∧
          ((Path.mk r).descent ≠ [] → c.target p r = c.target g r →
            Reference.MeansSame r d d') := by
  have hnamespaced : c.resolver.IsNamespaced := ⟨namespaces, hns, hresolver⟩
  have hdirectory : ∀ x ∈ c.sources fs p, x.IsPlace ∧ ∃ d, x.parent? = some d := by
    intro x hx
    have hplace := isPlace_of_mem_sources hnamespaced hroot hp hx
    have hparent := hplace.parent?_isSome (ne_root_of_mem_sources hroot hx)
    exact ⟨hplace, Option.isSome_iff_exists.1 hparent⟩
  obtain ⟨-, d, hd⟩ := hdirectory p (self_mem_sources hg)
  obtain ⟨hgPlace, d', hd'⟩ := hdirectory g hg
  obtain ⟨source, hread, hchunk, hdeclares⟩ := mem_composes_of_declares hbefore hdraft hg
  have hfile : ((Imports.withoutReferences source).mapRules
      (Css.Rule.mapStylesOfAll Composes.strip)).file = some g := by
    have hsource := Imports.file_of_readChunk hread
    exact hsource
  refine ⟨source, d, d', hread, hd, hd', ⟨_, hchunk, hfile, ?_, fun assets ↦
    Transform.publishChunk_redirectChunk _ assets hfile hd'⟩, fun r hr q hq ↦ ?_, fun e he ↦
    ⟨⟨hdeclares e he, fun own hown ↦ ?_⟩, fun r _ ↦ ⟨fun q ↦ resolve_eq_ok,
      target_eq_of_meansSame hresolver hp hd hgPlace hd',
      meansSame_of_target_eq hresolver hp hd hgPlace hd'⟩⟩⟩
  · rw [← Imports.styles_withoutReferences source]
    exact Css.Rule.stylesOfAll_mapStylesOfAll Composes.strip _
  · rw [← target_eq_of_absolute hresolver hd' hq]
    exact mem_sources_of_imported hnamespaced hroot hp hg hread r hr
  · obtain ⟨_, _, hload, -, -⟩ := exists_load_of_drafts hbefore hown
    obtain ⟨source', hread', -, hown'⟩ :=
      mem_composes_of_declares hbefore hown (mem_sources_of_load hload)
    obtain rfl := Except.ok.inj (hread.symm.trans hread')
    exact hown' e he

namespace Sample

/-- References to one namespace, and no transforms. -/
def bare : Compiler := ⟨⟨"/"⟩, .development, .ofNamespaces (.ofList [("ui", ⟨"/ui"⟩)]), .empty⟩

/-- A file imports another one from a directory below, and that composes from a file beside it and
from one of the namespace.  There are files of the same name beside the first one. -/
def nested : FileSystem :=
  Session.Sample.disk [("/a.mcss", "@import 'lib/g';"),
    ("/lib/g.mcss", Session.Sample.rule ".g" "composes: n from './n'; composes: u from 'ui::u'"),
    ("/lib/n.mcss", ""), ("/n.mcss", ""), ("/ui/u.mcss", "")]

theorem areAbsolute_ui : PathResolver.AreAbsolute (.ofList [("ui", ⟨"/ui"⟩)]) := by
  intro name d h
  obtain ⟨-, rfl⟩ := Prod.mk.inj (List.mem_singleton.1 (Table.lookup_mem h))
  decide

theorem exists_draft {α : Type} {f : ModuleStore.Draft → α} {a : α} {c : Compiler} {fs : FileSystem}
    {p : Path} (h : (ModuleStore.prepare c fs p .empty).2.toOption.map f = some a) :
    ∃ draft, c.Drafts fs p draft ∧ f draft = a := by
  obtain ⟨draft, hdraft, hvalue⟩ := Option.map_eq_some_iff.1 h
  refine ⟨draft, ⟨.empty, ?_⟩, hvalue⟩
  cases hprepare : (ModuleStore.prepare c fs p .empty).2 with
  | error fault => simp [hprepare, Except.toOption] at hdraft
  | ok own =>
    rw [hprepare] at hdraft
    exact congrArg Except.ok (Option.some.inj hdraft)

/-- What is declared below, and so in both files. -/
def declared : List Composes := [⟨["g"], ["n"], .file "./n"⟩, ⟨["g"], ["u"], .file "ui::u"⟩]

theorem drafts_nested :
    (ModuleStore.prepare bare nested ⟨"/a.mcss"⟩ .empty).2.toOption.map
      (fun draft ↦ (draft.composes, Imports.filesOf draft.job.stylesheet.chunks)) =
        some (declared, [⟨"/lib/g.mcss"⟩, ⟨"/a.mcss"⟩]) ∧
    (ModuleStore.prepare bare nested ⟨"/lib/g.mcss"⟩ .empty).2.toOption.map
      (fun draft ↦ (draft.composes, Imports.filesOf draft.job.stylesheet.chunks)) =
        some (declared, [⟨"/lib/g.mcss"⟩]) := by
  decide +kernel

theorem draft_of_importing : ∃ draft : ModuleStore.Draft, bare.Drafts nested ⟨"/a.mcss"⟩ draft ∧
    draft.composes = declared ∧ ⟨"/lib/g.mcss"⟩ ∈ bare.sources nested ⟨"/a.mcss"⟩ := by
  obtain ⟨draft, hdraft, hvalues⟩ := exists_draft drafts_nested.1
  obtain ⟨hcomposes, hfiles⟩ := Prod.mk.inj hvalues
  refine ⟨draft, hdraft, hcomposes, ?_⟩
  rw [sources_eq_of_drafts (List.forall_mem_nil _) hdraft, hfiles]
  exact List.mem_cons_self

theorem draft_of_imported : ∃ draft : ModuleStore.Draft,
    bare.Drafts nested ⟨"/lib/g.mcss"⟩ draft ∧ draft.composes = declared ∧
      bare.sources nested ⟨"/lib/g.mcss"⟩ = [⟨"/lib/g.mcss"⟩] := by
  obtain ⟨draft, hdraft, hvalues⟩ := exists_draft drafts_nested.2
  obtain ⟨hcomposes, hfiles⟩ := Prod.mk.inj hvalues
  exact ⟨draft, hdraft, hcomposes,
    (sources_eq_of_drafts (List.forall_mem_nil _) hdraft).trans hfiles⟩

end Sample

/-- The reference with a namespace names the same file from both directories, the other one does
not. -/
theorem composes_of_inlined_sample : ∃ (draft : ModuleStore.Draft) (source : StyleChunk),
    Sample.bare.Drafts Sample.nested ⟨"/a.mcss"⟩ draft ∧
      ⟨"/lib/g.mcss"⟩ ∈ Sample.bare.sources Sample.nested ⟨"/a.mcss"⟩ ∧
      source.Declares ⟨["g"], ["n"], .file "./n"⟩ ∧
      source.Declares ⟨["g"], ["u"], .file "ui::u"⟩ ∧
      ⟨["g"], ["n"], .file "./n"⟩ ∈ draft.composes ∧
      Sample.bare.target ⟨"/a.mcss"⟩ "ui::u" = Sample.bare.target ⟨"/lib/g.mcss"⟩ "ui::u" ∧
      Sample.bare.target ⟨"/a.mcss"⟩ "./n" ≠ Sample.bare.target ⟨"/lib/g.mcss"⟩ "./n" := by
  obtain ⟨draft, hdraft, -, hsource⟩ := Sample.draft_of_importing
  obtain ⟨own, hown, hcomposes, hsources⟩ := Sample.draft_of_imported
  obtain ⟨source, d, d', hread, hd, hd', -, -, hdeclarations⟩ :=
    composes_of_inlined Sample.areAbsolute_ui (c := Sample.bare) rfl (List.forall_mem_nil _)
      (by decide +kernel) (by decide) hdraft hsource
  have hdeclares : ∀ e ∈ Sample.declared, source.Declares e := by
    intro e he
    obtain ⟨g, hg, source', hread', hdeclared⟩ :=
      exists_declares_of_mem_composes (List.forall_mem_nil _) hown (hcomposes ▸ he)
    rw [hsources] at hg
    obtain rfl := List.mem_singleton.1 hg
    obtain rfl := Except.ok.inj (hread.symm.trans hread')
    exact hdeclared
  have hn := hdeclares ⟨["g"], ["n"], .file "./n"⟩ (by simp [Sample.declared])
  have hu := hdeclares ⟨["g"], ["u"], .file "ui::u"⟩ (by simp [Sample.declared])
  obtain ⟨⟨hmem, -⟩, hbeside⟩ := hdeclarations _ hn
  obtain ⟨-, hnamespaced⟩ := hdeclarations _ hu
  have hroot : Path.parent? ⟨"/a.mcss"⟩ = some ⟨"/"⟩ := by decide +kernel
  have hlib : Path.parent? ⟨"/lib/g.mcss"⟩ = some ⟨"/lib"⟩ := by decide +kernel
  obtain rfl := Option.some.inj (hroot.symm.trans hd)
  obtain rfl := Option.some.inj (hlib.symm.trans hd')
  exact ⟨draft, source, hdraft, hsource, hn, hu, hmem,
    (hnamespaced "ui::u" rfl).2.1 (by decide +kernel), fun h ↦ absurd
      ((hbeside "./n" rfl).2.2 (by decide +kernel) h) (by decide +kernel)⟩

/-- Two files that a declaration is found in find different files behind it. -/
theorem composes_from_elsewhere : ∃ draft own : ModuleStore.Draft,
    Sample.bare.Drafts Sample.nested ⟨"/a.mcss"⟩ draft ∧
      Sample.bare.Drafts Sample.nested ⟨"/lib/g.mcss"⟩ own ∧
      ⟨"/lib/g.mcss"⟩ ∈ Sample.bare.sources Sample.nested ⟨"/a.mcss"⟩ ∧
      ⟨["g"], ["n"], .file "./n"⟩ ∈ draft.composes ∧
      ⟨["g"], ["n"], .file "./n"⟩ ∈ own.composes ∧
      Sample.bare.resolver.absolute "./n" ⟨"/lib/g.mcss"⟩ (.stylesheet false) =
        some ⟨"/lib/n.mcss"⟩ ∧
      (Sample.bare.resolve Sample.nested ⟨"/lib/g.mcss"⟩ "./n").toOption = some ⟨"/lib/n.mcss"⟩ ∧
      (Sample.bare.resolve Sample.nested ⟨"/a.mcss"⟩ "./n").toOption = some ⟨"/n.mcss"⟩ := by
  obtain ⟨draft, hdraft, hcomposes, hsource⟩ := Sample.draft_of_importing
  obtain ⟨own, hown, hcomposes', -⟩ := Sample.draft_of_imported
  exact ⟨draft, own, hdraft, hown, hsource, by simp [hcomposes, Sample.declared],
    by simp [hcomposes', Sample.declared], by decide +kernel⟩

end Compiler

end StyleModules
