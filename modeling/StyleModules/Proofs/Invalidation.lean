import StyleModules.Proofs.Dependents
import StyleModules.Proofs.Removal

/-!
# Eviction

What a store evicts with a file are the files that it knows to be made from it, and all of them if
there are no more files than levels.  Evicting them leaves nothing behind that was made from one of
them, as far as the graph and the ledger know, and touches nothing else.
-/

namespace StyleModules

open Relation

namespace ModuleStore

/-- As far as the store knows, `q` was made from `p`. -/
def Feeds (s : ModuleStore) (p q : Path) : Prop :=
  (s.isTracked p = true ∧ s.isTracked q = true ∧ p ∈ s.graph.edges q) ∨
    q ∈ s.journal.imports.parents p

/-- Nothing that the store knows to be made from one of its files is missing in a tree. -/
def IsClosed (s : ModuleStore) (tree : List Path) : Prop :=
  ∀ p ∈ tree, ∀ q : Path, q.IsPlace → s.Feeds p q → q ∈ tree

/-- All files that the store knows are of some kind. -/
structure Within (s : ModuleStore) (B : Path → Prop) : Prop where
  tracked : ∀ p : Path, p.IsPlace → s.isTracked p = true → B p
  parents : ∀ p : Path, p.IsPlace → ∀ q ∈ s.journal.imports.parents p, B q

theorem within_empty (B : Path → Prop) : empty.Within B :=
  ⟨fun _ _ h ↦ by simp [isTracked_eq, empty] at h,
    fun _ _ _ h ↦ by simp [empty, Journal.empty, ImportLedger.parents, ImportLedger.empty] at h⟩

variable {c : Compiler} {s : ModuleStore} {p q : Path}

theorem mem_next (hs : s.IsTidy) (hp : p.IsPlace) :
    q ∈ Invalidation.next (Session.tracker c) s s.journal.imports p ↔ q.IsPlace ∧ s.Feeds p q := by
  have hparents : q ∈ s.journal.imports.parents p → q.IsPlace := hs.imports.isPlace p q
  rw [Invalidation.next, List.mem_append, Session.tracker]
  change q ∈ (s.dependents c p).toOption.getD [] ∨ _ ↔ _
  unfold dependents Feeds
  rw [Compiler.absolute_eq hp]
  by_cases htracked : s.isTracked p = true
  · rw [if_pos htracked]
    change q ∈ (s.graph.dependents p).filter s.isTracked ∨ _ ↔ _
    rw [List.mem_filter]
    constructor
    · rintro (⟨hq, hqTracked⟩ | hq)
      · have hqPlace := ModuleGraph.isPlace_of_mem_dependents hs.graph hq
        exact ⟨hqPlace, .inl ⟨htracked, hqTracked,
          (ModuleGraph.mem_dependents hs.graph hqPlace hp).1 hq⟩⟩
      · exact ⟨hparents hq, .inr hq⟩
    · rintro ⟨hqPlace, ⟨-, hqTracked, hq⟩ | hq⟩
      · exact .inl ⟨(ModuleGraph.mem_dependents hs.graph hqPlace hp).2 hq, hqTracked⟩
      · exact .inr hq
  · rw [if_neg htracked]
    simp only [Except.toOption, Option.getD_none, List.not_mem_nil, false_or]
    constructor
    · exact fun hq ↦ ⟨hparents hq, .inr hq⟩
    · rintro ⟨-, ⟨hp, -⟩ | hq⟩
      · exact absurd hp htracked
      · exact hq

/-- What it means that a tree of files was evicted. -/
structure Evicted (s : ModuleStore) (tree : List Path) (s' : ModuleStore) : Prop where
  isTidy : s'.IsTidy
  get? : ∀ q : Path, q.IsPlace →
    s'.modules.get? q = if q ∈ tree then none else s.modules.get? q
  edges : ∀ q : Path, q.IsPlace →
    s'.graph.edges q = if q ∈ tree ∧ s.isTracked q = true then [] else s.graph.edges q
  parents : ∀ q : Path, q.IsPlace →
    s'.journal.imports.parents q = if q ∈ tree then [] else s.journal.imports.parents q

theorem Evicted.isTracked_iff {tree : List Path} {s' : ModuleStore} (h : Evicted s tree s')
    (hp : p.IsPlace) : s'.isTracked p = true ↔ s.isTracked p = true ∧ p ∉ tree := by
  rw [isTracked_eq, h.get? p hp, isTracked_eq]
  by_cases hmem : p ∈ tree <;> simp [hmem]

theorem Evicted.within {tree : List Path} {s' : ModuleStore} (h : Evicted s tree s')
    {B : Path → Prop} (hs : s.Within B) : s'.Within B where
  tracked p hp hpTracked := hs.tracked p hp ((h.isTracked_iff hp).1 hpTracked).1
  parents p hp q hq := by
    rw [h.parents p hp] at hq
    split at hq
    next => simp at hq
    next => exact hs.parents p hp q hq

theorem Step.within (hc : c.IsRegular) {fs : FileSystem} (hfs : c.Suits fs) {A B : Path → Prop}
    (hA : ∀ p, A p → ∀ g ∈ c.sources fs p, A g)
    (hB : ∀ p : Path, p.IsPlace → A p → fs.isFile p = true → B p) {s' : ModuleStore}
    (h : Step c fs A s s') (htidy : s.IsTidy) (hs : s.Within B) : s'.Within B := by
  cases h with
  | @attempt file journal isPlace allowed imports =>
    refine ⟨hs.tracked, fun p hp q hq ↦ ?_⟩
    rw [imports, ImportLedger.mem_parents_recordAll htidy.imports
      (Compiler.isPlace_imports hc hfs isPlace) hp] at hq
    rcases hq with hq | hm
    · exact hs.parents p hp q hq
    · have hmem := (Compiler.mem_sources_of_mem_imports hm).2
      exact hB q (Compiler.isPlace_imports hc hfs isPlace _ hm).2 (hA file allowed q hmem)
        (Compiler.isFile_of_mem_sources hmem)
  | @finish file journal b qs modules isPlace allowed untracked blueprint targets exist started
      recorded imports assembled =>
    refine ⟨fun p hp hpTracked ↦ ?_, fun p hp q hq ↦ hs.parents p hp q (imports ▸ hq)⟩
    rcases assembled with ⟨fault, -, rfl⟩ | ⟨m, -, rfl⟩
    · exact hs.tracked p hp hpTracked
    · by_cases hpFile : p = file
      · subst hpFile
        exact hB p hp allowed (Compiler.isFile_of_blueprint blueprint)
      · refine hs.tracked p hp ?_
        rwa [isTracked_eq, PathMap.get?_insert_of_ne fun heq ↦ hpFile
          (hp.eq_of_components isPlace heq), ← isTracked_eq] at hpTracked

theorem Steps.within (hc : c.IsRegular) {fs : FileSystem} (hfs : c.Suits fs) {A B : Path → Prop}
    (hA : ∀ p, A p → ∀ g ∈ c.sources fs p, A g)
    (hB : ∀ p : Path, p.IsPlace → A p → fs.isFile p = true → B p) {s' : ModuleStore}
    (h : Steps c fs A s s') (htidy : s.IsTidy) (hs : s.Within B) : s'.Within B :=
  (h.preserves hc hfs (P := fun s ↦ s.Within B)
    (fun _ _ htidy hs hstep ↦ hstep.within hc hfs hA hB htidy hs) htidy hs).2

theorem isTidy_without (hs : s.IsTidy) (hp : p.IsPlace) : (s.without c p).IsTidy := by
  rw [without_eq, Compiler.absolute_eq hp]
  split
  next => exact ⟨hs.modules.erase p, hs.graph.clear hp, hs.imports.forget p⟩
  next => exact ⟨hs.modules, hs.graph, hs.imports.forget p⟩

theorem Removed.evicted {files : List Path} {s' : ModuleStore} (h : Removed c s files s')
    (hs : s.IsOrdered) (htidy : s'.IsTidy) (hfiles : ∀ p ∈ files, p.IsPlace) :
    Evicted s files s' := by
  have hmap : files.map c.absolute = files :=
    (List.map_congr_left fun p hp ↦ Compiler.absolute_eq (hfiles p hp)).trans (List.map_id files)
  have hamong : ∀ q : Path, q.IsPlace → (q.isAmong files = true ↔ q ∈ files) :=
    fun q hq ↦ Path.isAmong_iff_mem hq hfiles
  refine ⟨htidy, fun q hq ↦ ?_, fun q hq ↦ ?_, fun q hq ↦ ?_⟩
  · rw [h.get?, hmap]
    exact if_congr (hamong q hq) rfl rfl
  · rw [h.edges hs, hmap]
    refine if_congr ?_ rfl rfl
    rw [Bool.and_eq_true, hamong q hq]
  · rw [h.parents_eq]
    exact if_congr (hamong q hq) rfl rfl

theorem evicted_foldl_without (hs : s.IsTidy) {files : List Path}
    (hfiles : ∀ p ∈ files, p.IsPlace) :
    Evicted s files (files.foldl (without c) s) := by
  have htidy : (files.foldl (without c) s).IsTidy := List.foldlRecOn files (without c) hs
    fun _ hs p hp ↦ isTidy_without hs (hfiles p hp)
  exact (removed_foldl_without c s files).evicted hs.isOrdered htidy hfiles

end ModuleStore

namespace Session

open ModuleStore

variable {s : Session}

/-- The files that are evicted together with a file. -/
def evictedWith (s : Session) (file : Path) : List Path := (s.evict file).1

def evicting (s : Session) (file : Path) : Session := (s.evict file).2

theorem evict_eq (s : Session) (file : Path) :
    s.evict file = (s.evictedWith file, s.evicting file) := rfl

theorem evicting_eq (s : Session) (file : Path) :
    s.evicting file =
      { s with store := (s.evictedWith file).foldl (without s.compiler) s.store } := by
  obtain ⟨-, heq⟩ := removeAll_eq (c := s.compiler) (s.evictedWith file) s.store
    s.store.journal.imports
  unfold evicting
  rw [← heq]
  rfl

/-- The tree of a file is a walk from that file. -/
theorem walk_evictedWith (s : Session) (file : Path) :
    Traversal.Walk (Invalidation.next (tracker s.compiler) s.store s.store.journal.imports)
      (Invalidation.maxDepth + 1) [] [s.absolute file] (s.evictedWith file) :=
  Invalidation.walk_dependentsTree _ _ _ _

/-- A tree consists of what the store knows to be made, in some steps, from its first file. -/
theorem evictedWith_induction (hroot : s.compiler.root.isAbsolute = true) (hs : s.store.IsTidy)
    {file : Path} {B : Path → Prop} (hfile : B (s.absolute file))
    (hfeeds : ∀ p q : Path, p.IsPlace → q.IsPlace → B p → s.store.Feeds p q → B q) :
    ∀ p ∈ s.evictedWith file, p.IsPlace ∧ B p := by
  intro p hp
  obtain ⟨f, hf, -, hreaches⟩ := (walk_evictedWith s file).reaches p hp
  obtain rfl := List.mem_singleton.1 hf
  clear hp
  induction hreaches with
  | refl => exact ⟨Compiler.isPlace_absolute_of_root hroot file, hfile⟩
  | tail _ hlast ih =>
    obtain ⟨hplace, hlast⟩ := (mem_next hs ih.1).1 hlast.1
    exact ⟨hplace, hfeeds _ _ ih.1 hplace ih.2 hlast⟩

/-- The tree of a file begins with the file. -/
theorem evictedWith_eq_cons (s : Session) (file : Path) :
    ∃ rest, s.evictedWith file = s.absolute file :: rest :=
  ((walk_evictedWith s file).eq_cons (Path.isAmong_nil _)).imp fun _ ↦ And.left

/-- The tree of a file begins with the file and consists of what the store knows to be made from
it. -/
theorem evictedWith_spec (hroot : s.compiler.root.isAbsolute = true) (hs : s.store.IsTidy)
    (file : Path) :
    (∃ rest, s.evictedWith file = s.absolute file :: rest) ∧
      ∀ p ∈ s.evictedWith file, p.IsPlace ∧ ReflTransGen s.store.Feeds (s.absolute file) p :=
  ⟨evictedWith_eq_cons s file,
    evictedWith_induction hroot hs ReflTransGen.refl fun _ _ _ _ hp hq ↦ hp.tail hq⟩

theorem self_mem_evictedWith (s : Session) (file : Path) : s.absolute file ∈ s.evictedWith file := by
  obtain ⟨rest, hrest⟩ := evictedWith_eq_cons s file
  rw [hrest]
  exact List.mem_cons_self

/-- A tree consists of files that the store knows, except for the first one. -/
theorem mem_evictedWith_within (hroot : s.compiler.root.isAbsolute = true) (hs : s.store.IsTidy)
    {B : Path → Prop} (hwithin : s.store.Within B) {file : Path} (hfile : B (s.absolute file)) :
    ∀ p ∈ s.evictedWith file, B p := by
  refine fun p hp ↦ (evictedWith_induction hroot hs hfile (fun p q hpPlace hqPlace _ hq ↦ ?_) p hp).2
  rcases hq with ⟨-, hqTracked, -⟩ | hparent
  · exact hwithin.tracked q hqPlace hqTracked
  · exact hwithin.parents p hpPlace q hparent

/-- However the files are written, the files of the tree are removed and nothing else is. -/
theorem removed_evicting (s : Session) (file : Path) :
    Removed s.compiler s.store (s.evictedWith file) (s.evicting file).store := by
  rw [evicting_eq]
  exact removed_foldl_without s.compiler s.store (s.evictedWith file)

theorem evicted_evicting (hroot : s.compiler.root.isAbsolute = true) (hs : s.store.IsTidy)
    (file : Path) : Evicted s.store (s.evictedWith file) (s.evicting file).store := by
  rw [evicting_eq]
  exact evicted_foldl_without hs fun p hp ↦ ((evictedWith_spec hroot hs file).2 p hp).1

/-- If the store knows no more files than chains of dependents are followed, then all that was
made from a file is evicted with it. -/
theorem isClosed_evictedWith (hroot : s.compiler.root.isAbsolute = true) (hs : s.store.IsTidy)
    (file : Path) {B : Path → Prop} (hwithin : s.store.Within B) {files : List Path}
    (hfiles : ∀ p, B p → p ∈ files) (hlength : files.length ≤ Invalidation.maxDepth) :
    s.store.IsClosed (s.evictedWith file) := by
  have hfile : (s.absolute file).IsPlace := Compiler.isPlace_absolute_of_root hroot file
  let places := s.absolute file :: files.filter (fun p ↦ decide p.IsPlace)
  have hplaces : ∀ p ∈ places, p.IsPlace := List.forall_mem_cons.2
    ⟨hfile, fun p hp ↦ of_decide_eq_true (List.mem_filter.1 hp).2⟩
  have hnext : ∀ p ∈ places, ∀ q ∈ Invalidation.next (tracker s.compiler) s.store
      s.store.journal.imports p, q ∈ places := by
    intro p hp q hq
    obtain ⟨hqPlace, hfeeds⟩ := (mem_next hs (hplaces p hp)).1 hq
    refine List.mem_cons_of_mem _ (List.mem_filter.2 ⟨?_, decide_eq_true hqPlace⟩)
    rcases hfeeds with ⟨-, hqTracked, -⟩ | hq
    · exact hfiles q (hwithin.tracked q hqPlace hqTracked)
    · exact hfiles q (hwithin.parents p (hplaces p hp) q hq)
  have hlength : places.length ≤ Invalidation.maxDepth + 1 :=
    Nat.succ_le_succ ((List.length_filter_le _ _).trans hlength)
  have horder := (walk_evictedWith s file).preorder fun f hf _ ↦
    (Traversal.encard_reached_le places (fun p hp q hq _ ↦ hnext p hp q hq)
      (List.mem_singleton.1 hf ▸ List.mem_cons_self)).trans (Nat.cast_le.2 hlength)
  have htree : ∀ p ∈ s.evictedWith file, p.IsPlace := fun p hp ↦
    ((evictedWith_spec hroot hs file).2 p hp).1
  intro p hp q hq hfeeds
  exact (Path.isAmong_iff_mem hq htree).1
    (horder.closed.2 p hp q ((mem_next hs (htree p hp)).2 ⟨hq, hfeeds⟩))

end Session

end StyleModules
