import StyleModules.Proofs.Composition
import StyleModules.Proofs.History

/-!
# Up-to-date expansions

A module takes over what the classes that it composes from other files expand to at the time it is
compiled.  Such a copy stays up to date: the composed files of a module are tracked, and none of
them is evicted or compiled again unless the module is evicted as well.  The edges of the graph are
what makes this work, and they are there before a module is.
-/

namespace StyleModules

open Relation ModuleStore

namespace ModuleStore

/-- A compilation made the module of a file of what the files it composes from export by now, and
the graph leads to these, which are tracked. -/
structure UpToDate (c : Compiler) (s : ModuleStore) (p : Path) (m : Module) (k : Compilation) :
    Prop where
  made : k.made = some m
  complete : ∀ r ∈ references k.draft.composes, (k.files.lookup r).isSome = true
  composed : ∀ e ∈ k.files, e.2 ∈ s.graph.edges p ∧ s.isTracked e.2 = true
  composition : ∃ styles, m.composition =
    Composition.build (c.scopedName p) (exported c s k.files) styles k.draft.composes

/-- The last compilation of each tracked file made its module, which is up to date. -/
def IsUpToDate (c : Compiler) (ks : List Compilation) (s : ModuleStore) : Prop :=
  ∀ (p : Path) (m : Module), p.IsPlace → s.modules.get? p = some m →
    ∃ k, (compilationsOf p ks).getLast? = some k ∧ UpToDate c s p m k

variable {c : Compiler} {fs : FileSystem} {known : List Path} {s s' : ModuleStore}
  {ks ks' : List Compilation} {k : Compilation} {p : Path} {m : Module}

theorem isUpToDate_empty (c : Compiler) (ks : List Compilation) : IsUpToDate c ks empty :=
  fun _ _ _ h ↦ by simp [empty] at h

/-- What references export depends on the modules of the files they stand for. -/
theorem exported_congr {files : List (String × Path)}
    (h : ∀ e ∈ files, s'.modules.get? e.2 = s.modules.get? e.2) :
    exported c s' files = exported c s files := by
  funext reference name
  unfold exported
  cases hfile : files.lookup reference with
  | none => rfl
  | some q =>
    have hq : s'.modules.get? q = s.modules.get? q := h (reference, q) (mem_of_lookup hfile)
    simp only [exportedNames, composition?, hq]

/-- A module stays up to date while its edges stay and the files they lead to stay as they are. -/
theorem UpToDate.congr (h : UpToDate c s p m k)
    (hedges : ∀ q ∈ s.graph.edges p, q ∈ s'.graph.edges p)
    (hget : ∀ q ∈ s.graph.edges p, s.isTracked q = true →
      s'.modules.get? q = s.modules.get? q) : UpToDate c s' p m k := by
  have hsame : ∀ e ∈ k.files, s'.modules.get? e.2 = s.modules.get? e.2 := fun e he ↦
    hget e.2 (h.composed e he).1 (h.composed e he).2
  refine ⟨h.made, h.complete, fun e he ↦ ⟨hedges _ (h.composed e he).1, ?_⟩, ?_⟩
  · rw [isTracked_eq, hsame e he, ← isTracked_eq]
    exact (h.composed e he).2
  · rw [exported_congr hsame]
    exact h.composition

/-- What a module that is up to date composes from another file is listed for its classes. -/
theorem UpToDate.lists (h : UpToDate c s p m k) {d : Composes} (hd : d ∈ k.draft.composes)
    {reference : String} (hsource : d.composed.source = .file reference) :
    ∃ q, k.files.lookup reference = some q ∧ s.isTracked q = true ∧
      ∀ n ∈ d.composed.names, ∀ target ∈ d.targets, ∀ name ∈ exportedNames c s q n,
        m.composition.Lists target name := by
  have hreference : reference ∈ references k.draft.composes :=
    List.mem_filterMap.2 ⟨d, hd, by rw [hsource]⟩
  obtain ⟨q, hq⟩ := Option.isSome_iff_exists.1 (h.complete reference hreference)
  obtain ⟨styles, hcomposition⟩ := h.composition
  refine ⟨q, hq, (h.composed (reference, q) (mem_of_lookup hq)).2, fun n hn target ht name hname ↦ ?_⟩
  rw [hcomposition]
  refine Composition.lists_build hd hsource hn ht ?_
  rwa [exported, hq]

/-! ## Compiling -/

/-- The files that a compilation composes from are other files, and tracked. -/
theorem Ends.composed (hresolver : c.resolver.IsNamespaced) (hfs : c.Permits known fs)
    (h : Ends c fs Path.IsPlace s k) {e : String × Path} (he : e ∈ k.files) :
    e.2 ≠ k.file ∧ s.isTracked e.2 = true := by
  have hcomposes := (h.mayCompose he).1
  have hacyclic := hfs.acyclic k.file h.allowed
  refine ⟨fun heq ↦ hacyclic (TransGen.single (heq ▸ hcomposes)), ?_⟩
  refine (h.ready e he).resolve_right fun ⟨x, hsame, hx, hback⟩ ↦ ?_
  obtain rfl := hx.eq_of_components (h.isPlace hresolver hfs he) hsame
  exact hacyclic (TransGen.head' hcomposes hback)

/-- A module that is made is up to date. -/
theorem Ends.upToDate (hresolver : c.resolver.IsNamespaced) (hfs : c.Permits known fs)
    (h : Ends c fs Path.IsPlace s k) (hs : s.IsTidy) (hmade : k.made = some m) :
    UpToDate c (finish c k.file k.draft k.files s).1 k.file m k := by
  refine ⟨hmade, h.complete, fun e he ↦ ⟨?_, ?_⟩, ?_⟩
  · rw [graph_finish_eq]
    exact (ModuleGraph.mem_edges_addAll hs.graph h.allowed (h.isPlace_files hresolver hfs)
      h.allowed).2 (.inr ⟨rfl, List.mem_map.2 ⟨e, he, rfl⟩⟩)
  · exact h.isTracked hs.modules.toIsOrdered (h.composed hresolver hfs he).2
  · have hsame : ∀ e ∈ k.files, (finish c k.file k.draft k.files s).1.modules.get? e.2 =
        s.modules.get? e.2 := by
      intro e he
      rw [h.get?_eq hs.modules.toIsOrdered, if_neg]
      exact fun heq ↦ (h.composed hresolver hfs he).1
        ((h.isPlace hresolver hfs he).eq_of_components h.allowed heq)
    rw [exported_congr hsame]
    rcases h.finish_cases hs.modules.toIsOrdered with ⟨_, -, -, hfailed⟩ | ⟨m', styles, h'⟩
    · simp [hfailed] at hmade
    · obtain ⟨-, -, hmade', hcomposition⟩ := h'
      obtain rfl := Option.some.inj (hmade'.symm.trans hmade)
      exact ⟨styles, hcomposition⟩

/-- Finishing a file changes no module that is there. -/
theorem IsUpToDate.finish (hresolver : c.resolver.IsNamespaced) (hfs : c.Permits known fs)
    (hs : s.IsTidy) (hends : Ends c fs Path.IsPlace s k) (h : IsUpToDate c ks s) :
    IsUpToDate c (ks ++ [k]) (ModuleStore.finish c k.file k.draft k.files s).1 := by
  intro p m hp hm
  have hordered := hs.modules.toIsOrdered
  have hplaces := hends.isPlace_files hresolver hfs
  rw [hends.get?_eq hordered] at hm
  rw [compilationsOf_append_singleton]
  by_cases hsame : p.Same k.file
  · rw [if_pos hsame] at hm ⊢
    obtain rfl := hp.eq_of_components hends.allowed hsame
    exact ⟨k, by simp, hends.upToDate hresolver hfs hs hm⟩
  · rw [if_neg hsame] at hm ⊢
    obtain ⟨last, hlast, hmodule⟩ := h p m hp hm
    refine ⟨last, hlast, hmodule.congr (fun q hq ↦ ?_) fun q hq hqTracked ↦ ?_⟩
    · rw [graph_finish_eq]
      exact (ModuleGraph.mem_edges_addAll hs.graph hends.allowed hplaces hp).2 (.inl hq)
    · rw [hends.get?_eq hordered, if_neg]
      intro hqFile
      have huntracked := hends.untracked
      rw [← isTracked_congr hqFile, hqTracked] at huntracked
      simp at huntracked

theorem IsUpToDate.trail (hc : c.KeepsRecords) (hfs : c.Permits known fs) (hs : s.IsTidy)
    (htrail : Trail c fs Path.IsPlace s ks' s') (h : IsUpToDate c ks s) :
    IsUpToDate c (ks ++ ks') s' := by
  refine (htrail.preserves_tidy hc hfs (P := fun ks' s ↦ IsUpToDate c (ks ++ ks') s)
    (fun ks' s file _ _ h ↦ ?_) (fun ks' s k hends hs h ↦ ?_) hs ?_).2
  · intro p m hp hm
    obtain ⟨last, hlast, hmodule⟩ := h p m hp hm
    exact ⟨last, hlast, hmodule.congr (fun _ hq ↦ hq) fun _ _ _ ↦ rfl⟩
  · rw [← List.append_assoc]
    exact h.finish hc.resolver hfs hs hends
  · rwa [List.append_nil]

/-- A file that composes from an evicted one is evicted too, so all that stays is up to date. -/
theorem IsUpToDate.evicted {tree : List Path} (hs : s.IsTidy) (hevicted : Evicted s tree s')
    (hclosed : s.IsClosed tree) (h : IsUpToDate c ks s) : IsUpToDate c ks s' := by
  intro p m hp hm
  have hpTracked := (hevicted.isTracked_iff hp).1 (isTracked_iff.2 ⟨m, hm⟩)
  rw [hevicted.get? p hp, if_neg hpTracked.2] at hm
  obtain ⟨last, hlast, hmodule⟩ := h p m hp hm
  refine ⟨last, hlast, hmodule.congr (fun q hq ↦ ?_) fun q hq hqTracked ↦ ?_⟩
  · rwa [hevicted.edges p hp, if_neg fun hmem ↦ hpTracked.2 hmem.1]
  · rw [hevicted.get? q (hs.graph.isPlace p q hq), if_neg]
    exact fun hqTree ↦
      hpTracked.2 (hclosed q hqTree p hp (.inl ⟨hqTracked, hpTracked.1, hq⟩))

theorem IsUpToDate.alike (halike : s.Alike s') (h : IsUpToDate c ks s) : IsUpToDate c ks s' := by
  intro p m hp hm
  obtain ⟨last, hlast, hmodule⟩ := h p m hp (halike.modules ▸ hm)
  exact ⟨last, hlast, hmodule.congr (fun _ hq ↦ halike.graph ▸ hq) fun _ _ _ ↦
    halike.modules ▸ rfl⟩

end ModuleStore

/-! ## Sessions -/

namespace Session

/-- What holds of every session with its history. -/
structure Follows (c : Compiler) (known : List Path) (s : Session) (ks : List Compilation) :
    Prop where
  compiler : s.compiler = c
  isTidy : s.store.IsTidy
  within : s.store.Within (· ∈ known)
  isUpToDate : IsUpToDate c ks s.store

section Follows

variable {c : Compiler} {known : List Path} {s start : Session} {ks : List Compilation}

theorem Follows.event (hc : c.KeepsRecords) (hknown : known.length < Invalidation.maxDepth)
    (hfs : c.Permits known s.fs) (h : Follows c known s ks) (e : FileEvent) :
    Follows c known (s.handle e).1 (ks ++ s.compilationsBy e) := by
  obtain ⟨rfl, htidy, hwithin, hupToDate⟩ := h
  have hevicted := evicted_kept hc.root htidy e
  have hclosed := isClosed_evictedBy hc.root htidy e hwithin (fun _ hp ↦ hp)
    (Nat.le_of_lt hknown)
  have hplace := Compiler.isPlace_absolute_of_root hc.root
  have htrail := trail_handle (hfs.hands hc.resolver) e hevicted.isTidy.isOrdered (hplace e.file)
    fun p _ _ ↦ hplace p
  refine ⟨(sameSetup_handle s e).compiler, ?_, ?_, ?_⟩
  · exact (htrail.preserves_tidy hc hfs (P := fun _ _ ↦ True) (fun _ _ _ _ _ _ ↦ trivial)
      (fun _ _ _ _ _ _ ↦ trivial) hevicted.isTidy trivial).1
  · exact htrail.within hc hfs hevicted.isTidy (hevicted.within hwithin)
  · exact (hupToDate.evicted htidy hevicted hclosed).trail hc hfs hevicted.isTidy htrail

theorem Follows.evict (hc : c.KeepsRecords) (hknown : known.length < Invalidation.maxDepth)
    (h : Follows c known s ks) (file : Path) : Follows c known (s.evict file).2 ks := by
  obtain ⟨rfl, htidy, hwithin, hupToDate⟩ := h
  have hevicted := evicted_evicting hc.root htidy file
  have hclosed := isClosed_evictedWith hc.root htidy file hwithin (fun _ hp ↦ hp)
    (Nat.le_of_lt hknown)
  exact ⟨(sameSetup_evicting s file).compiler, hevicted.isTidy, hevicted.within hwithin,
    hupToDate.evicted htidy hevicted hclosed⟩

theorem Recorded.follows (hc : start.compiler.KeepsRecords) (hstore : start.store = .empty)
    (hknown : known.length < Invalidation.maxDepth)
    (h : Recorded (start.compiler.Permits known) start s ks) :
    Follows start.compiler known s ks := by
  induction h with
  | start =>
    exact ⟨rfl, hstore ▸ isTidy_empty, hstore ▸ within_empty _, hstore ▸ isUpToDate_empty _ _⟩
  | edit _ fs ih => exact ⟨ih.compiler, ih.isTidy, ih.within, ih.isUpToDate⟩
  | event _ hP e ih => exact ih.event hc hknown hP e
  | evict _ file ih => exact ih.evict hc hknown file
  | @writeBundle s _ _ ih =>
    obtain ⟨-, hcompiler, halike⟩ := writeBundle_spec (s := s) (ih.compiler ▸ hc.done)
    exact ⟨hcompiler.trans ih.compiler, halike.isTidy ih.isTidy, halike.within ih.within,
      ih.isUpToDate.alike halike⟩
  | @writeMaps s _ _ ih =>
    obtain ⟨-, hcompiler, hstore⟩ := writeMaps_spec s
    exact ⟨hcompiler.trans ih.compiler, hstore ▸ ih.isTidy, hstore ▸ ih.within,
      hstore ▸ ih.isUpToDate⟩

/-- In every state that a session can reach, whether or not events failed, the last compilation of
each tracked file made its module, and every file that it composes from is tracked.  All that the
composed classes of that file expand to by now is listed for the classes that compose them. -/
theorem lists_exportedNames {o : Options} {extras : Extras} {fs : FileSystem}
    (hstart : Session.start fs o extras = .ok start)
    (habsolute : ∀ d, fs.workingDirectory = .ok d → d.isAbsolute = true)
    (hpaths : extras.paths = none) (htransforms : extras.transforms.KeepsLedger)
    (hknown : known.length < 1000) (h : Recorded (start.compiler.Permits known) start s ks)
    (p : Path) (m : Module) (hm : (p, m) ∈ s.store.modules.toList) :
    ∃ k, (compilationsOf p ks).getLast? = some k ∧ k.made = some m ∧
      ∀ d ∈ k.draft.composes, ∀ reference, d.composed.source = .file reference →
        ∃ q, k.files.lookup reference = some q ∧ s.store.isTracked q = true ∧
          ∀ n ∈ d.composed.names, ∀ target ∈ d.targets,
            ∀ name ∈ exportedNames s.compiler s.store q n, m.composition.Lists target name := by
  have hstore : start.store = .empty := by
    obtain ⟨_, _, -, -, rfl⟩ := start_eq_ok hstart
    rfl
  have hc := keepsRecords_of_start hstart habsolute hpaths htransforms
  obtain ⟨hcompiler, htidy, -, hupToDate⟩ := h.follows hc hstore hknown
  have hp : p.IsPlace := htidy.modules.isPlace p (List.mem_map.2 ⟨_, hm, rfl⟩)
  obtain ⟨k, hlast, hmodule⟩ := hupToDate p m hp (htidy.modules.get?_of_mem hm)
  exact ⟨k, hlast, hmodule.made, fun d hd reference hsource ↦
    hcompiler ▸ hmodule.lists hd hsource⟩

end Follows

namespace Sample

/-- A class is composed of one of another file. -/
def composing : FileSystem :=
  disk [("/a.mcss", rule ".a" "composes: b from './b'"), ("/b.mcss", rule ".b" "")]

/-- That class is composed of one more. -/
def extended : FileSystem :=
  disk [("/a.mcss", rule ".a" "composes: b from './b'"),
    ("/b.mcss", rule ".b" "composes: c from global")]

/-- The two files of these disks. -/
def both : List Path := [⟨"/a.mcss"⟩, ⟨"/b.mcss"⟩]

/-- A disk with these files is admitted if only the first one composes from the other. -/
theorem permits_of_references {fs : FileSystem} (hkeyed : fs.IsKeyed)
    (h : fs.isFile ⟨"/"⟩ = false ∧ fs.files = both ∧
      both.map (start.compiler.referencesOf fs) = [["./b"], []]) :
    start.compiler.Permits both fs := by
  obtain ⟨hroot, hfiles, hreferences⟩ := h
  obtain ⟨hfirst, hsecond, -⟩ := by
    simpa only [both, List.map_cons, List.cons.injEq] using hreferences
  have hresolved : start.compiler.resolver.absolute "./b" ⟨"/a.mcss"⟩ (.stylesheet false) =
      some ⟨"/b.mcss"⟩ := by decide +kernel
  have hadmits := Compiler.admits_of_files starts.isRegular hkeyed hroot
    (fun p ↦ if p = ⟨"/a.mcss"⟩ then 1 else 0)
    (by simp [hfiles, both, hfirst, hsecond, hresolved, Compiler.target])
  exact hfiles ▸ hadmits.permits starts.isRegular.isDetermined

theorem permits_composing : start.compiler.Permits both composing :=
  permits_of_references (isKeyed_disk _) (by decide +kernel)

theorem permits_extended : start.compiler.Permits both extended :=
  permits_of_references (isKeyed_disk _) (by decide +kernel)

end Sample

/-- When a class is extended, the class of another file that composes it is extended too. -/
theorem lists_exportedNames_sample : ∃ s ks m,
    Recorded (Sample.start.compiler.Permits Sample.both) Sample.start s ks ∧
      (⟨"/a.mcss"⟩, m) ∈ s.store.modules.toList ∧ m.composition.Lists "a" "c" := by
  obtain ⟨s, ks, hrecorded, hfirst, hcompiled, hc⟩ : ∃ s ks,
      Recorded (Sample.start.compiler.Permits Sample.both) Sample.start s ks ∧
      s.store.modules.toList.head?.map Prod.fst = some ⟨"/a.mcss"⟩ ∧
      (compilationsOf ⟨"/a.mcss"⟩ ks).getLast?.map (fun k ↦ (k.draft.composes, k.files)) =
        some ([⟨["a"], ["b"], .file "./b"⟩], [("./b", ⟨"/b.mcss"⟩)]) ∧
      "c" ∈ exportedNames s.compiler s.store ⟨"/b.mcss"⟩ "b" := by
    have hcomposed := (Recorded.start.edit Sample.composing : Recorded _ Sample.start _ _).event
      Sample.permits_composing ⟨.init, ⟨"a.mcss"⟩⟩
    exact ⟨_, _, (hcomposed.edit Sample.extended).event Sample.permits_extended
      ⟨.change, ⟨"b.mcss"⟩⟩, by decide +kernel⟩
  obtain ⟨⟨p, m⟩, hhead, rfl⟩ := Option.map_eq_some_iff.1 hfirst
  have hm := List.mem_of_mem_head? hhead
  obtain ⟨k, hlast, -, hlists⟩ := lists_exportedNames Sample.starts.start
    Sample.starts.isAbsolute rfl Pipeline.keepsLedger_empty (by decide) hrecorded _ m hm
  rw [hlast, Option.map_some, Option.some.injEq, Prod.mk.injEq] at hcompiled
  obtain ⟨hcomposes, hfiles⟩ := hcompiled
  obtain ⟨q, hq, -, hnames⟩ := hlists ⟨["a"], ["b"], .file "./b"⟩ (by simp [hcomposes]) "./b" rfl
  rw [hfiles] at hq
  obtain rfl : ⟨"/b.mcss"⟩ = q := Option.some.inj hq
  exact ⟨s, ks, m, hrecorded, hm, hnames "b" (by simp) "a" (by simp) "c" hc⟩

end Session

end StyleModules
