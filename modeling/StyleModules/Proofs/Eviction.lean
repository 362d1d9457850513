import StyleModules.Proofs.Canonical

/-!
# What an eviction does and what it leaves

An eviction removes the tree of a file and touches nothing else.  The store removes files under
their normal forms, and the ledger under the paths that are in the tree; these are the same files
unless the ledger names a file in another way.  Edges that lead to an evicted file stay, but while
the tree is complete only evicted files had such edges, and theirs are gone.
-/

namespace StyleModules

open Relation Invalidation Traversal

namespace ModuleStore

variable {c : Compiler} {s s' : ModuleStore} {imports imports' : ImportLedger}
  {tree : List Path} {p q x : Path}

theorem dependents_eq (c : Compiler) (s : ModuleStore) (file : Path) :
    (s.dependents c file).toOption.getD [] =
      if s.isTracked (c.absolute file) then
        (s.graph.dependents (c.absolute file)).filter s.isTracked
      else [] := by
  unfold dependents
  simp only
  split <;> rfl

theorem mem_next_tracker : q ∈ next (Session.tracker c) s imports p ↔
    (s.isTracked (c.absolute p) = true ∧ q ∈ s.graph.dependents (c.absolute p) ∧
      s.isTracked q = true) ∨ q ∈ imports.parents p := by
  rw [next, List.mem_append]
  change q ∈ (s.dependents c p).toOption.getD [] ∨ _ ↔ _
  rw [dependents_eq]
  split
  next h => rw [List.mem_filter, and_iff_right h]
  next h => simp [h]

/-- Wherever a store has canonical paths, they are canonical however they are written. -/
theorem isCanonical_of_isTracked (hs : s.modules.IsOrdered)
    (hkeys : ∀ k ∈ s.modules.keys, c.IsCanonical k) (hp : s.isTracked p = true) :
    c.IsCanonical p := by
  rw [isTracked_eq] at hp
  obtain ⟨m, hm⟩ := Option.isSome_iff_exists.1 hp
  obtain ⟨k, hk, hsame⟩ := hs.mem_of_get? hm
  have hcanonical : (c.absolute k).Same k := hkeys k (List.mem_map.2 ⟨_, hk, rfl⟩)
  rw [Compiler.IsCanonical, ← Compiler.absolute_same hsame c]
  exact hcanonical.trans hsame

/-- While importers are canonical as well, so is all that a canonical file leads to. -/
theorem isCanonical_of_reaches (hs : s.modules.IsOrdered)
    (hkeys : ∀ k ∈ s.modules.keys, c.IsCanonical k)
    (himports : ∀ x, ∀ q ∈ imports.parents x, c.IsCanonical q) (hp : c.IsCanonical p)
    (h : Reaches (next (Session.tracker c) s imports) tree p q) : c.IsCanonical q := by
  rcases h.cases_tail with rfl | ⟨r, -, hstep, -⟩
  · exact hp
  · rcases mem_next_tracker.1 hstep with ⟨-, -, htracked⟩ | hparent
    · exact isCanonical_of_isTracked hs hkeys htracked
    · exact himports r q hparent

/-- What an eviction does.  The files of the tree are not tracked any more, have no edges if they
were, and are not imported as far as the ledger knows.  Every other file has its module, if any, and
its edges as before, and its importers.  If importers are canonical, it does not matter whether one
goes by the paths of the tree or by their normal forms. -/
structure Evicts (c : Compiler) (s : ModuleStore) (imports : ImportLedger) (p : Path)
    (tree : List Path) (s' : ModuleStore) (imports' : ImportLedger) : Prop where
  head? : tree.head? = some p
  distinct : Path.AreDistinct tree
  untracked : ∀ x ∈ tree, s'.isTracked (c.absolute x) = false
  forgotten : ∀ x ∈ tree, imports'.contains x = false
  cleared : ∀ x ∈ tree, s.isTracked (c.absolute x) = true →
    s'.graph.dependencies (c.absolute x) = []
  kept : ∀ x : Path, x.isAmong (tree.map c.absolute) = false →
    s'.modules.get? x = s.modules.get? x ∧ s'.graph.dependencies x = s.graph.dependencies x
  parents : ∀ x : Path, x.isAmong tree = false → imports'.parents x = imports.parents x
  canonical : (∀ x, ∀ q ∈ imports.parents x, c.IsCanonical q) →
    ∀ x : Path, x.isAmong (tree.map c.absolute) = x.isAmong tree

/-- Nothing that is left was made from what was evicted: no tracked file has an edge to a file that
was tracked before and is not any more, and whoever imports a file of the tree is in the tree. -/
structure IsComplete (s : ModuleStore) (imports : ImportLedger) (tree : List Path)
    (s' : ModuleStore) : Prop where
  edges : ∀ d q : Path, s'.isTracked d = true → q.isAmong (s'.graph.dependencies d) = true →
    s.isTracked q = true → s'.isTracked q = true
  importers : ∀ x ∈ tree, ∀ q ∈ imports.parents x, q.isAmong tree = true

/-- Removing files from a store and a ledger that belong together or not. -/
theorem removed_removeAll (c : Compiler) (s : ModuleStore) (imports : ImportLedger)
    (files : List Path) :
    let r := removeAll (Session.tracker c) files s imports
    Removed c { s with journal := { s.journal with imports := imports } } files
      { r.1 with journal := { s.journal with imports := r.2 } } := by
  intro r
  rw [(removeAll_eq (c := c) files s imports).2]
  exact removed_foldl_without c _ files

theorem Removed.isComplete {journal journal' : Journal}
    (h : Removed c { s with journal := journal } tree { s' with journal := journal' })
    (hs : s.IsOrdered) (hkeys : ∀ k ∈ s.modules.keys, c.IsCanonical k)
    (hclosed : ∀ x ∈ tree, ∀ y ∈ next (Session.tracker c) s imports x, y.isAmong tree = true) :
    IsComplete s imports tree s' := by
  refine ⟨fun d q hd hq hbefore ↦ ?_, fun x hx q hq ↦
    hclosed x hx q (mem_next_tracker.2 (.inr hq))⟩
  by_contra hgone
  have htracked : ∀ x : Path, s'.isTracked x =
      (s.isTracked x && !x.isAmong (tree.map c.absolute)) := h.isTracked_eq
  rw [htracked, Bool.and_eq_true, Bool.not_eq_true'] at hd
  rw [htracked, hbefore, Bool.true_and, Bool.not_eq_true', Bool.not_eq_false] at hgone
  obtain ⟨y, hy, hyq⟩ := Path.isAmong_iff.1 hgone
  obtain ⟨x, hx, rfl⟩ := List.mem_map.1 hy
  have hsame : (c.absolute x).Same q := hyq
  have hedges : s'.graph.edges d = s.graph.edges d := by
    have hedges := h.edges ⟨hs.modules, hs.graph⟩ d
    rwa [hd.2, Bool.false_and, if_neg Bool.false_ne_true] at hedges
  rw [isAmong_dependencies, hedges, ← hsame.isAmong_eq] at hq
  -- the file is a dependent of an evicted one, so it is in the tree
  obtain ⟨e, he, hed⟩ := Path.isAmong_iff.1 ((ModuleGraph.isAmong_dependents hs.graph.targets).2 hq)
  have hxTracked : s.isTracked (c.absolute x) = true := (isTracked_congr hsame s).trans hbefore
  have heTracked : s.isTracked e = true := (isTracked_congr hed s).trans hd.1
  have hmet := hclosed x hx e (mem_next_tracker.2 (.inl ⟨hxTracked, he, heTracked⟩))
  obtain ⟨z, hz, hze⟩ := Path.isAmong_iff.1 hmet
  have hzd : c.absolute z = c.absolute d := Compiler.absolute_same (hze.trans hed) c
  have hcanonical : (c.absolute d).Same d := isCanonical_of_isTracked hs.modules hkeys hd.1
  rw [← hcanonical.isAmong_eq, ← hzd, Path.isAmong_of_mem (List.mem_map_of_mem hz)] at hd
  exact Bool.false_ne_true hd.2.symm

/-- An eviction removes the tree of a file and nothing else, and the tree is complete if no more
files are reached than chains can have. -/
theorem evict_evicts (hs : s.IsOrdered) (hkeys : ∀ k ∈ s.modules.keys, c.IsCanonical k)
    (imports : ImportLedger) (hp : p.IsPlace) :
    let r := evict (Session.tracker c) s imports p
    Evicts c s imports p r.1 r.2.1 r.2.2 ∧
      ((reached (next (Session.tracker c) s imports) [] p).encard ≤ (maxDepth + 1 : Nat) →
        IsComplete s imports r.1 r.2.1) := by
  intro r
  have hwalk : Walk (next (Session.tracker c) s imports) (maxDepth + 1) [] [p] r.1 :=
    walk_dependentsTree (Session.tracker c) s imports p
  have hremoved : Removed c { s with journal := { s.journal with imports := imports } } r.1
      { r.2.1 with journal := { s.journal with imports := r.2.2 } } :=
    removed_removeAll c s imports r.1
  have htree : ∀ x ∈ r.1, (c.absolute x).isAmong (r.1.map c.absolute) = true :=
    fun x hx ↦ Path.isAmong_of_mem (List.mem_map_of_mem hx)
  have hordered : IsOrdered { s with journal := { s.journal with imports := imports } } :=
    ⟨hs.modules, hs.graph⟩
  have hedges : ∀ x : Path, r.2.1.graph.edges x =
      if x.isAmong (r.1.map c.absolute) && s.isTracked x then [] else s.graph.edges x :=
    hremoved.edges hordered
  refine ⟨⟨?_, ?_, fun x hx ↦ ?_, fun x hx ↦ ?_, fun x hx htracked ↦ ?_, fun x hx ↦ ⟨?_, ?_⟩,
    fun x hx ↦ ?_, fun himports x ↦ ?_⟩, fun hbound ↦ ?_⟩
  · obtain ⟨inner, hinner, -⟩ := hwalk.eq_cons (Path.isAmong_nil p)
    rw [hinner, List.head?_cons]
  · exact hwalk.areDistinct (fun _ ↦ id) List.nodup_nil
  · refine (hremoved.isTracked_eq (c.absolute x)).trans ?_
    rw [htree x hx, Bool.not_true, Bool.and_false]
  · have hforgotten := hremoved.importers x
    rw [Path.isAmong_of_mem hx, if_pos rfl] at hforgotten
    change r.2.2.importers.get? x = none at hforgotten
    rw [ImportLedger.contains, PathMap.contains_eq, hforgotten, Option.isSome_none]
  · rw [ModuleGraph.dependencies_eq, hedges, htree x hx, htracked, Bool.and_self, if_pos rfl,
      Path.sort, List.mergeSort_nil]
  · refine (hremoved.get? x).trans ?_
    rw [hx, if_neg Bool.false_ne_true]
  · rw [ModuleGraph.dependencies_eq, hedges, hx, Bool.false_and, if_neg Bool.false_ne_true,
      ModuleGraph.dependencies_eq]
  · refine (hremoved.parents_eq x).trans ?_
    rw [hx, if_neg Bool.false_ne_true]
  · refine Path.isAmong_congr (List.forall₂_map_left_iff.2 (List.forall₂_same.2 fun y hy ↦ ?_))
    obtain ⟨f, hf, -, hreaches⟩ := hwalk.reaches y hy
    obtain rfl := List.mem_singleton.1 hf
    exact isCanonical_of_reaches hs.modules hkeys himports
      (Compiler.isCanonical_of_same hp rfl) hreaches
  · have horder := hwalk.preorder fun f hf _ ↦ List.mem_singleton.1 hf ▸ hbound
    exact hremoved.isComplete hs hkeys horder.closed.2

namespace Sample

/-- No transforms, and references are resolved by place. -/
def bare : Compiler := ⟨⟨"/"⟩, .development, .ofNamespaces .empty, .empty⟩

/-- One file composes from another one, and both are modules without rules. -/
def composed : ModuleStore where
  graph := ModuleGraph.empty.add ⟨"/a.mcss"⟩ ⟨"/b.mcss"⟩
  modules := .ofList [(⟨"/a.mcss"⟩, ⟨⟨⟨"/a.mcss"⟩, []⟩, .empty⟩),
    (⟨"/b.mcss"⟩, ⟨⟨⟨"/b.mcss"⟩, []⟩, .empty⟩)]
  journal := .empty

theorem isOrdered_composed : composed.IsOrdered where
  modules := (PathMap.isOrdered_empty.insert _ _).insert _ _
  graph := ModuleGraph.isOrdered_empty.add _ _

/-- The other file is imported by a third one, which is not tracked. -/
def importedOnce : ImportLedger := (ImportLedger.empty.record ⟨"/b.mcss"⟩ ⟨"/x.mcss"⟩).1

/-- A file is imported by a tracked one, under a path that is not canonical. -/
def importedAstray : ImportLedger := (ImportLedger.empty.record ⟨"/c.mcss"⟩ ⟨"/x/../b.mcss"⟩).1

end Sample

/-- The file, the one that composes from it and the one that imports it are evicted. -/
theorem evict_evicts_sample :
    let r := evict (Session.tracker Sample.bare) Sample.composed Sample.importedOnce ⟨"/b.mcss"⟩
    r.1 = [⟨"/b.mcss"⟩, ⟨"/a.mcss"⟩, ⟨"/x.mcss"⟩] ∧
      Evicts Sample.bare Sample.composed Sample.importedOnce ⟨"/b.mcss"⟩ r.1 r.2.1 r.2.2 ∧
      IsComplete Sample.composed Sample.importedOnce r.1 r.2.1 := by
  obtain ⟨hevicts, hcomplete⟩ := evict_evicts (c := Sample.bare) (p := ⟨"/b.mcss"⟩)
    Sample.isOrdered_composed (by decide +kernel) Sample.importedOnce (by decide +kernel)
  have hbound : (reached (next (Session.tracker Sample.bare) Sample.composed
      Sample.importedOnce) [] ⟨"/b.mcss"⟩).encard ≤ (3 : Nat) :=
    encard_reached_le [⟨"/b.mcss"⟩, ⟨"/a.mcss"⟩, ⟨"/x.mcss"⟩] (by decide +kernel)
      List.mem_cons_self
  exact ⟨by decide +kernel, hevicts,
    hcomplete (hbound.trans (Nat.cast_le.2 (by decide : 3 ≤ maxDepth + 1)))⟩

/-- What is outside of the tree can be evicted as well, if an importer was recorded under a path
that is not canonical: the ledger is as free as that, and the store normalizes what it is to
remove. -/
theorem evict_outside_of_tree :
    let r := evict (Session.tracker Sample.bare) Sample.composed Sample.importedAstray ⟨"/c.mcss"⟩
    Sample.composed.IsOrdered ∧
      (∀ k ∈ Sample.composed.modules.keys, Sample.bare.IsCanonical k) ∧
      (⟨"/c.mcss"⟩ : Path).IsPlace ∧ r.1 = [⟨"/c.mcss"⟩, ⟨"/x/../b.mcss"⟩, ⟨"/a.mcss"⟩] ∧
      (⟨"/b.mcss"⟩ : Path).isAmong r.1 = false ∧
      Sample.composed.isTracked ⟨"/b.mcss"⟩ = true ∧ r.2.1.isTracked ⟨"/b.mcss"⟩ = false := by
  refine ⟨Sample.isOrdered_composed, ?_⟩
  decide +kernel

end ModuleStore

end StyleModules
