import StyleModules.Proofs.Faithful

/-!
# Stores that agree

Two stores that are faithful to one disk and track the same files have the same stylesheets in the
same order, so they are bundled to the same text.  If their compositions are the same as well, the
whole bundles are.
-/

namespace StyleModules

namespace ModuleStore

variable {c : Compiler} {fs : FileSystem} {A A' : Path → Prop} {s s' : ModuleStore} {p p' : Path}

/-- Two stores track the same files. -/
def TracksAlike (s s' : ModuleStore) : Prop := ∀ p, s.isTracked p = s'.isTracked p

/-- Two stores hold the same modules for the same files. -/
structure Agree (s s' : ModuleStore) : Prop where
  tracked : s.TracksAlike s'
  modules : ∀ p m m', s.modules.get? p = some m → s'.modules.get? p = some m' → m.Same m'

theorem TracksAlike.same (h : s.TracksAlike s') (hp : p.Same p') :
    s.isTracked p = s'.isTracked p' :=
  (h p).trans (isTracked_congr hp s')

/-- The composition of each file, by the name of the file in output maps. -/
def compositions (c : Compiler) (s : ModuleStore) : List (String × Composition) :=
  s.modules.toList.map fun e ↦ (c.sourceKey e.1, e.2.composition)

/-- The same files were visited and put in order. -/
structure SameVisits (done done' : List Path × List Path) : Prop where
  visited : List.Forall₂ Path.Same done.1 done'.1
  order : List.Forall₂ Path.Same done.2 done'.2

theorem SameVisits.foldl {P : Path → Prop} (step step' : List Path × List Path → Path →
    List Path × List Path) (hstep : ∀ ⦃d d' : Path⦄ ⦃done done'⦄, d.Same d' → P d →
      SameVisits done done' → SameVisits (step done d) (step' done' d'))
    {ds ds' : List Path} (h : List.Forall₂ Path.Same ds ds') (hds : ∀ d ∈ ds, P d)
    {done done' : List Path × List Path} (hdone : SameVisits done done') :
    SameVisits (ds.foldl step done) (ds'.foldl step' done') := by
  induction h generalizing done done' with
  | nil => exact hdone
  | cons hd _ ih =>
    obtain ⟨hP, hrest⟩ := List.forall_mem_cons.1 hds
    exact ih hrest (hstep hd hP hdone)

namespace Faithful

/-- Tracked files have the same dependencies in both stores. -/
theorem dependencies_same (hc : c.IsExtensional) (hs : Faithful c fs A s)
    (hs' : Faithful c fs A' s') (h : s.TracksAlike s') (hp : s.isTracked p = true)
    (hpp' : p.Same p') : List.Forall₂ Path.Same ((s.graph.dependencies p).filter s.isTracked)
      ((s'.graph.dependencies p').filter s'.isTracked) := by
  refine List.rel_filter (fun x y hxy ↦ Bool.eq_iff_iff.1 (h.same hxy))
    (ModuleGraph.dependencies_same hs.graph hs'.graph fun y ↦ ?_)
  rw [hs.isAmong_edges_iff hc hp, hs'.isAmong_edges_iff hc (h.same hpp' ▸ hp)]
  constructor <;> rintro ⟨x, y, hx, hxy, hy⟩
  · exact ⟨x, y, hx.trans hpp', hxy, hy⟩
  · exact ⟨x, y, hx.trans hpp'.symm, hxy, hy⟩

theorem visit_same (hc : c.IsExtensional) (hs : Faithful c fs A s) (hs' : Faithful c fs A' s')
    (h : s.TracksAlike s') (limit : Nat) (hp : s.isTracked p = true) (hpp' : p.Same p')
    {done done' : List Path × List Path} (hdone : SameVisits done done') :
    SameVisits (visit s limit p done) (visit s' limit p' done') := by
  induction limit generalizing p p' done done' with
  | zero => exact hdone
  | succ limit ih =>
    obtain ⟨visited, order⟩ := done
    obtain ⟨visited', order'⟩ := done'
    have hamong : p.isAmong visited = p'.isAmong visited' :=
      (Path.isAmong_congr hdone.visited).trans (hpp'.isAmong_eq visited')
    have hinner := SameVisits.foldl (P := fun d ↦ s.isTracked d = true)
      (fun done d ↦ visit s limit d done) (fun done d ↦ visit s' limit d done)
      (fun d d' done done' hd htracked hdone ↦ ih htracked hd hdone)
      (hs.dependencies_same hc hs' h hp hpp') (fun d hd ↦ (List.mem_filter.1 hd).2)
      (⟨.cons hpp' hdone.visited, hdone.order⟩ :
        SameVisits (p :: visited, order) (p' :: visited', order'))
    unfold visit
    rw [hamong]
    split
    · exact hdone
    · exact ⟨hinner.visited, List.rel_append hinner.order (.cons hpp' .nil)⟩

/-- The files stand in the same order in both bundles. -/
theorem bundleOrder_same (hc : c.IsExtensional) (hs : Faithful c fs A s)
    (hs' : Faithful c fs A' s') (h : s.TracksAlike s') :
    List.Forall₂ Path.Same s.bundleOrder s'.bundleOrder := by
  have hlist := hs.modules.toList_same hs'.modules fun p ↦ by
    rw [← isTracked_eq, ← isTracked_eq, h p]
  have hkeys : List.Forall₂ Path.Same s.modules.keys s'.modules.keys :=
    List.forall₂_map_left_iff.2 (List.forall₂_map_right_iff.2 (hlist.imp fun _ _ he ↦ he.1))
  have hsize : s.modules.size = s'.modules.size := by
    have hlength := hlist.length_eq
    rwa [PathMap.toList, PathMap.toList, Table.values, Table.values, List.length_map,
      List.length_map] at hlength
  have htracked : ∀ p ∈ s.modules.keys, s.isTracked p = true := by
    intro p hp
    obtain ⟨⟨q, m⟩, he, rfl⟩ := List.mem_map.1 hp
    rw [isTracked_eq, hs.modules.get?_of_mem he, Option.isSome_some]
  unfold bundleOrder
  rw [hsize]
  exact (SameVisits.foldl _ _ (fun _ _ _ _ hd htracked ↦ hs.visit_same hc hs' h _ htracked hd) hkeys
    htracked ⟨.nil, .nil⟩).order

/-- A file has the same stylesheet in both stores. -/
theorem stylesheet_same (hc : c.IsExtensional) (hs : Faithful c fs A s)
    (hs' : Faithful c fs A' s') (hpp' : p.Same p') {m m' : Module}
    (hm : s.modules.get? p = some m) (hm' : s'.modules.get? p' = some m') :
    m.stylesheet.Same m'.stylesheet := by
  obtain ⟨q, b, hqp, -, hmade⟩ := hs.made p m hm
  obtain ⟨q', b', hqp', -, hmade'⟩ := hs'.made p' m' hm'
  have hqq' : q.Same q' := hqp.trans (hpp'.trans hqp'.symm)
  obtain ⟨b'', hb'', hsame⟩ := Compiler.blueprint_same hc hqq'
    (Compiler.isFile_of_blueprint hmade'.blueprint) hmade.blueprint
  obtain rfl := Except.ok.inj (hmade'.blueprint.symm.trans hb'')
  obtain ⟨known, hknown⟩ := hmade.assembled
  obtain ⟨known', hknown'⟩ := hmade'.assembled
  obtain ⟨m'', hm'', hmodule⟩ := Compiler.assemble_same hc hqq' hsame (fun _ _ ↦ rfl) hknown
  exact Compiler.assemble_stylesheet hknown' hm'' ▸ hmodule.stylesheet

theorem bundleChunks_same (hc : c.IsExtensional) (hs : Faithful c fs A s)
    (hs' : Faithful c fs A' s') (h : s.TracksAlike s') :
    List.Forall₂ StyleChunk.Same s.bundleChunks s'.bundleChunks := by
  refine List.rel_flatMap (hs.bundleOrder_same hc hs' h) fun p p' hpp' ↦ ?_
  have htracked := h.same hpp'
  rw [isTracked_eq, isTracked_eq] at htracked
  cases hm : s.modules.get? p <;> cases hm' : s'.modules.get? p' <;> rw [hm, hm'] at htracked
  · exact .nil
  · simp at htracked
  · simp at htracked
  · exact (hs.stylesheet_same hc hs' hpp' hm hm').chunks

/-- Both bundles have the same text, or neither is made. -/
theorem output_same (hc : c.IsExtensional) (hs : Faithful c fs A s) (hs' : Faithful c fs A' s')
    (h : s.TracksAlike s') (place : Path) :
    (∃ css, (output c place s).2 = .ok ⟨css, .ofList (s.compositions c)⟩ ∧
        (output c place s').2 = .ok ⟨css, .ofList (s'.compositions c)⟩) ∨
      ∃ fault fault', (output c place s).2 = .error fault ∧
        (output c place s').2 = .error fault' := by
  have hjob : Job.Same (Job.start s.journal ⟨place, s.bundleChunks⟩)
      (Job.start s'.journal ⟨place, s'.bundleChunks⟩) :=
    ⟨⟨(rfl : place.Same place), hs.bundleChunks_same hc hs' h⟩, .nil⟩
  have hsame := (hc.pipeline.run .done).same hjob
  have hfails := (hc.pipeline.run .done).fails hjob
  unfold output
  rcases hj : c.pipeline.run .done (Job.start s.journal ⟨place, s.bundleChunks⟩)
    with ⟨j, _ | fault⟩ <;>
  rcases hk : c.pipeline.run .done (Job.start s'.journal ⟨place, s'.bundleChunks⟩)
    with ⟨k, _ | fault'⟩ <;>
  simp only [hj, hk, reduceCtorEq, iff_true, iff_false, not_true_eq_false] at hsame hfails
  · exact .inl ⟨_, rfl, by rw [hsame.stylesheet.css_eq]; rfl⟩
  · exact .inr ⟨fault, fault', rfl, rfl⟩

/-- Both stores are bundled to the same text. -/
theorem css_output (hc : c.IsExtensional) (hs : Faithful c fs A s) (hs' : Faithful c fs A' s')
    (h : s.TracksAlike s') (place : Path) :
    (output c place s).2.toOption.map Bundle.css =
      (output c place s').2.toOption.map Bundle.css := by
  rcases hs.output_same hc hs' h place with ⟨css, heq, heq'⟩ | ⟨fault, fault', heq, heq'⟩
  all_goals
    rw [heq, heq']
    rfl

/-- A file that unwinds has the same composition in both stores. -/
theorem composition?_eq (hc : c.IsExtensional) (hs : Faithful c fs A s) (hs' : Faithful c fs A' s')
    (h : s.TracksAlike s') (hexists : fs.isFile p = true) (hp : c.Unwinds fs p) :
    s.composition? p = s'.composition? p := by
  have htracked := h p
  rw [isTracked_eq, isTracked_eq] at htracked
  unfold composition?
  cases hm : s.modules.get? p <;> cases hm' : s'.modules.get? p <;>
    simp only [hm, hm', Option.isSome_none, Option.isSome_some, reduceCtorEq] at htracked
  · rfl
  · obtain ⟨n, hn, hsame⟩ := hs.compiled hc hm hexists hp
    obtain ⟨n', hn', hsame'⟩ := hs'.compiled hc hm' hexists hp
    exact congrArg some (hsame.trans ((hn.unique hc rfl hn').trans hsame'.symm)).composition

end Faithful

/-- Stores that agree know the same compositions. -/
theorem Agree.compositions_eq (c : Compiler) (h : s.Agree s') (hs : s.modules.IsOrdered)
    (hs' : s'.modules.IsOrdered) :
    s.compositions c = s'.compositions c := by
  have hlist := hs.toList_same hs' fun p ↦ by rw [← isTracked_eq, ← isTracked_eq, h.tracked p]
  refine List.forall₂_eq_eq_eq ▸ List.forall₂_map_left_iff.2 (List.forall₂_map_right_iff.2
    (hlist.imp fun e e' he ↦ ?_))
  obtain ⟨hkey, hm, hm'⟩ := he
  have hmodule := h.modules e.1 e.2 e'.2 hm (PathMap.get?_congr hkey s'.modules ▸ hm')
  rw [hmodule.composition, Compiler.sourceKey, Compiler.sourceKey,
    hkey.resourceKey_projectPath_eq]

/-- Stores that agree have the same bundle. -/
theorem Faithful.output_eq (hc : c.IsExtensional) (hs : Faithful c fs A s)
    (hs' : Faithful c fs A' s') (h : s.Agree s') (place : Path) :
    (output c place s).2.toOption = (output c place s').2.toOption := by
  have hcompositions := h.compositions_eq c hs.modules hs'.modules
  rcases hs.output_same hc hs' h.tracked place with ⟨css, heq, heq'⟩ | ⟨fault, fault', heq, heq'⟩
  · rw [heq, heq', hcompositions]
  · rw [heq, heq']
    rfl

end ModuleStore

end StyleModules
