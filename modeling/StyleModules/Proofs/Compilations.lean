import StyleModules.Proofs.Edges
import StyleModules.Proofs.Tracking

/-!
# Compilations

A call that tracks a file compiles it and files that it composes from.  The compilations of a call
that got as far as the composed files tell all that the call does to the modules and the graph:
each of them adds the edges of its file, and its module unless a transform fails after that.  This
holds for all resolvers and transforms, and however the paths are written.
-/

namespace StyleModules

open Relation ModuleStore

namespace Compiler

variable (c : Compiler) (fs : FileSystem)

/-- A file can be compiled up to a draft, depending on what transforms wrote down before. -/
def Drafts (file : Path) (draft : Draft) : Prop :=
  ∃ journal, (prepare c fs file journal).2 = .ok draft

def MayCompose (p q : Path) : Prop :=
  ∃ draft, c.Drafts fs p draft ∧ ∃ r ∈ references draft.composes, q = c.target p r

/-- What holds of a file holds of the existing files that it can compose from. -/
abbrev Hands (A : Path → Prop) : Prop :=
  ∀ ⦃p q⦄, A p → c.MayCompose fs p q → fs.isFile q = true → A q

variable {c fs} {p q : Path} {d : Draft}

/-- Where transforms are determined, a draft is as good as the blueprint. -/
theorem Drafts.blueprint_eq (hc : c.pipeline.IsDetermined) (h : c.Drafts fs p d) :
    c.blueprint fs p = .ok (.ofDraft d) := by
  obtain ⟨journal, h⟩ := h
  rw [← prepare_eq hc fs p journal, h]
  rfl

theorem MayCompose.composesFrom (hc : c.pipeline.IsDetermined) (h : c.MayCompose fs p q) :
    c.ComposesFrom fs p q := by
  obtain ⟨d, hd, r, hr, rfl⟩ := h
  exact ⟨_, hd.blueprint_eq hc, List.mem_map.2 ⟨r, hr, rfl⟩⟩

theorem Passes.hands (hc : c.pipeline.IsDetermined) {A : Path → Prop} (hA : c.Passes fs A) :
    c.Hands fs A :=
  fun _ _ hp hpq hexists ↦ hA hp (hpq.composesFrom hc) hexists

end Compiler

namespace ModuleStore

/-- What a file that can be allowed leads to. -/
theorem hands_true (c : Compiler) (fs : FileSystem) : c.Hands fs fun _ ↦ True :=
  fun _ _ _ _ _ ↦ trivial

/-! ## What tracking keeps -/

section Keeping

variable {c : Compiler} {fs : FileSystem} {A : Path → Prop} {P : ModuleStore → Prop}
  {file : Path}

theorem trackReferences_preserves {track : Path → ModuleStore → Outcome Unit} {rs : List String}
    (htrack : ∀ r ∈ rs, ∀ q, c.resolve fs file r = .ok q → ∀ s, P s → P (track q s).1)
    (found : List (String × Path)) {s : ModuleStore} (hs : P s) :
    P (trackReferences c fs track file rs found s).1 := by
  induction rs generalizing found s with
  | nil => exact hs
  | cons r rs ih =>
    obtain ⟨hr, hrest⟩ := List.forall_mem_cons.1 htrack
    unfold trackReferences
    split
    next => exact ih hrest found hs
    next =>
      split
      next => exact hs
      next q hresolve =>
        have hfirst := hr q hresolve s hs
        rcases hres : track q s with ⟨s₁, fault | u⟩
        all_goals rw [hres] at hfirst
        · exact hfirst
        · exact ih hrest _ hfirst

/-- What attempts and ends of compilations keep is kept when a file is tracked. -/
theorem trackFrom_preserves (hA : c.Hands fs A)
    (hattempt : ∀ file s, A file → P s → P { s with journal := (prepare c fs file s.journal).1 })
    (hfinish : ∀ file draft files s, A file → P s → P (finish c file draft files s).1)
    (limit : Nat) {started : List Path} (hfile : A file) {s : ModuleStore} (hs : P s) :
    P (trackFrom c fs limit started file s).1 := by
  induction limit generalizing started file s with
  | zero => exact hs
  | succ limit ih =>
    unfold trackFrom
    split
    next => exact hs
    next =>
      have hattempted := hattempt file s hfile hs
      rcases hprepare : prepare c fs file s.journal with ⟨journal, fault | draft⟩
      all_goals rw [hprepare] at hattempted
      · exact hattempted
      · have hdraft : c.Drafts fs file draft := ⟨s.journal, by rw [hprepare]⟩
        have hgathered : P (trackReferences c fs (trackFrom c fs limit (file :: started)) file
            (references draft.composes) [] { s with journal := journal }).1 := by
          refine trackReferences_preserves (fun r hr q hresolve s hs ↦ ?_) [] hattempted
          obtain ⟨rfl, hexists⟩ := Compiler.resolve_eq_ok.1 hresolve
          exact ih (hA hfile ⟨draft, hdraft, r, hr, rfl⟩ hexists) hs
        simp only
        rcases hres : trackReferences c fs (trackFrom c fs limit (file :: started)) file
          (references draft.composes) [] { s with journal := journal } with ⟨s₁, fault | files⟩
        all_goals rw [hres] at hgathered
        · exact hgathered
        · exact hfinish file draft files s₁ hfile hgathered

end Keeping

/-- The modules and the edges are sorted, and no edge is there twice. -/
structure IsOrdered (s : ModuleStore) : Prop where
  modules : s.modules.IsOrdered
  graph : s.graph.IsOrdered

theorem IsTidy.isOrdered {s : ModuleStore} (h : s.IsTidy) : s.IsOrdered :=
  ⟨h.modules.toIsOrdered, h.graph.isOrdered⟩

theorem isOrdered_empty : empty.IsOrdered := ⟨PathMap.isOrdered_empty, ModuleGraph.isOrdered_empty⟩

/-- The compilation of a file that got as far as the files it composes from. -/
structure Compilation where
  file : Path
  draft : Draft
  /-- The files that its references stand for. -/
  files : List (String × Path)
  /-- The module that came of it, unless a transform failed. -/
  made : Option Module

def Compilation.ending (c : Compiler) (file : Path) (draft : Draft) (files : List (String × Path))
    (s : ModuleStore) : Compilation :=
  ⟨file, draft, files,
    match finish c file draft files s with
    | (s, .ok ()) => s.modules.get? file
    | (_, .error _) => none⟩

/-- The compilations while the files that references stand for are tracked. -/
def compiledReferences (c : Compiler) (fs : FileSystem) (track : Path → ModuleStore → Outcome Unit)
    (compiled : Path → ModuleStore → List Compilation) (file : Path) :
    List String → List (String × Path) → ModuleStore → List Compilation
  | [], _, _ => []
  | r :: rs, found, s =>
    if (found.lookup r).isSome then compiledReferences c fs track compiled file rs found s
    else
      match c.resolve fs file r with
      | .error _ => []
      | .ok target =>
        compiled target s ++
          match track target s with
          | (_, .error _) => []
          | (s, .ok ()) =>
            compiledReferences c fs track compiled file rs (found ++ [(r, target)]) s

/-- The compilations while a file is tracked, in the order they come to their end. -/
def compiledFrom (c : Compiler) (fs : FileSystem) :
    Nat → List Path → Path → ModuleStore → List Compilation
  | 0, _, _, _ => []
  | limit + 1, started, file, s =>
    if s.isTracked file || file.isAmong started then []
    else
      match prepare c fs file s.journal with
      | (_, .error _) => []
      | (journal, .ok draft) =>
        compiledReferences c fs (trackFrom c fs limit (file :: started))
            (compiledFrom c fs limit (file :: started)) file (references draft.composes) []
            { s with journal := journal } ++
          match trackReferences c fs (trackFrom c fs limit (file :: started)) file
              (references draft.composes) [] { s with journal := journal } with
          | (_, .error _) => []
          | (s, .ok files) => [.ending c file draft files s]

def compilations (c : Compiler) (fs : FileSystem) (file : Path) (s : ModuleStore) :
    List Compilation :=
  compiledFrom c fs fs.chainLimit [] (c.absolute file) s

section Finish

variable {c : Compiler} {s : ModuleStore}

theorem graph_finish (c : Compiler) (file : Path) (draft : Draft) (files : List (String × Path))
    (s : ModuleStore) : (finish c file draft files s).1.graph =
      files.foldl (fun g e ↦ g.add file e.2) s.graph := by
  unfold finish
  simp only
  split
  next => rfl
  next => split <;> rfl

/-- Finishing a file leaves the modules alone if a transform fails, and otherwise adds a module
whose composition is made of what the composed files export. -/
theorem finish_cases (hs : s.modules.IsOrdered) (file : Path) (draft : Draft)
    (files : List (String × Path)) :
    (∃ fault, (finish c file draft files s).2 = .error fault ∧
        (finish c file draft files s).1.modules = s.modules ∧
        (Compilation.ending c file draft files s).made = none) ∨
      ∃ m styles, (finish c file draft files s).2 = .ok () ∧
        (finish c file draft files s).1.modules = s.modules.insert file m ∧
        (Compilation.ending c file draft files s).made = some m ∧
        m.composition = Composition.build (c.scopedName file) (exported c s files) styles
          draft.composes := by
  unfold Compilation.ending finish
  simp only
  rcases c.pipeline.run .processing { draft.job with journal := s.journal } with ⟨job, _ | fault⟩
  · simp only [edit_scope]
    rcases c.pipeline.run .after (job.edit (rename (c.scopedName file))) with ⟨job', _ | fault⟩
    · exact .inr ⟨_, job.stylesheet.styles, rfl, rfl, hs.get?_insert_self _, rfl⟩
    · exact .inl ⟨fault, rfl, rfl, rfl⟩
  · exact .inl ⟨fault, rfl, rfl, rfl⟩

end Finish

/-! ## What tracking goes through -/

/-- A compilation can come to its end in a store: its file is not tracked, all its references are
resolved, and each file it composes from is tracked or is itself being compiled. -/
structure Ends (c : Compiler) (fs : FileSystem) (A : Path → Prop) (s : ModuleStore)
    (k : Compilation) : Prop where
  allowed : A k.file
  untracked : s.isTracked k.file = false
  drafted : c.Drafts fs k.file k.draft
  resolved : ∀ e ∈ k.files,
    e.1 ∈ references k.draft.composes ∧ c.resolve fs k.file e.1 = .ok e.2
  complete : ∀ r ∈ references k.draft.composes, (k.files.lookup r).isSome = true
  ready : ∀ e ∈ k.files, s.isTracked e.2 = true ∨
    ∃ x : Path, x.Same e.2 ∧ A x ∧ ReflTransGen (c.MayCompose fs) x k.file
  ending : k = .ending c k.file k.draft k.files s

/-- What a store goes through while files are tracked that `A` allows, with the compilations that
come to their end on the way. -/
inductive Trail (c : Compiler) (fs : FileSystem) (A : Path → Prop) (s : ModuleStore) :
    List Compilation → ModuleStore → Prop
  | start : Trail c fs A s [] s
  | attempt {ks : List Compilation} {s' : ModuleStore} (h : Trail c fs A s ks s') {file : Path}
      (allowed : A file) :
      Trail c fs A s ks { s' with journal := (prepare c fs file s'.journal).1 }
  | finish {ks : List Compilation} {s' : ModuleStore} (h : Trail c fs A s ks s') {k : Compilation}
      (ends : Ends c fs A s' k) :
      Trail c fs A s (ks ++ [k]) (finish c k.file k.draft k.files s').1

section Trail

variable {c : Compiler} {fs : FileSystem} {A : Path → Prop} {s s' s'' : ModuleStore}
  {ks ks' : List Compilation} {k : Compilation}

theorem Trail.trans (h : Trail c fs A s ks s') (h' : Trail c fs A s' ks' s'') :
    Trail c fs A s (ks ++ ks') s'' := by
  induction h' with
  | start => rwa [List.append_nil]
  | attempt _ allowed ih => exact ih.attempt allowed
  | finish _ ends ih =>
    rw [← List.append_assoc]
    exact ih.finish ends

theorem Ends.mayCompose (h : Ends c fs A s k) {e : String × Path} (he : e ∈ k.files) :
    c.MayCompose fs k.file e.2 ∧ fs.isFile e.2 = true := by
  obtain ⟨hr, hresolved⟩ := h.resolved e he
  obtain ⟨htarget, hexists⟩ := Compiler.resolve_eq_ok.1 hresolved
  exact ⟨⟨k.draft, h.drafted, e.1, hr, htarget⟩, hexists⟩

theorem Ends.finish_cases (h : Ends c fs A s k) (hs : s.modules.IsOrdered) :
    (∃ fault, (finish c k.file k.draft k.files s).2 = .error fault ∧
        (finish c k.file k.draft k.files s).1.modules = s.modules ∧ k.made = none) ∨
      ∃ m styles, (finish c k.file k.draft k.files s).2 = .ok () ∧
        (finish c k.file k.draft k.files s).1.modules = s.modules.insert k.file m ∧
        k.made = some m ∧ m.composition = Composition.build (c.scopedName k.file)
          (exported c s k.files) styles k.draft.composes := by
  have hcases := ModuleStore.finish_cases (c := c) hs k.file k.draft k.files
  rwa [← h.ending] at hcases

theorem Ends.isOrdered (h : Ends c fs A s k) (hs : s.IsOrdered) :
    (finish c k.file k.draft k.files s).1.IsOrdered := by
  refine ⟨?_, ?_⟩
  · rcases h.finish_cases hs.modules with ⟨_, -, hmodules, -⟩ | ⟨m, _, -, hmodules, -⟩
    · exact hmodules ▸ hs.modules
    · exact hmodules ▸ hs.modules.insert k.file m
  · rw [graph_finish]
    exact (hs.graph.foldl_add k.file k.files).1

/-- The end of a compilation decides about the module of its file and no other. -/
theorem Ends.get?_eq (h : Ends c fs A s k) (hs : s.modules.IsOrdered) (p : Path) :
    (finish c k.file k.draft k.files s).1.modules.get? p =
      if p.Same k.file then k.made else s.modules.get? p := by
  have huntracked : s.modules.get? k.file = none := by
    rw [← Option.isNone_iff_eq_none, ← Option.isSome_eq_false_iff, ← isTracked_eq]
    exact h.untracked
  split
  next hp =>
    rw [PathMap.get?_congr hp]
    rcases h.finish_cases hs with ⟨_, -, hmodules, hmade⟩ | ⟨m, _, -, hmodules, hmade, -⟩
    · rw [hmodules, huntracked, hmade]
    · rw [hmodules, hs.get?_insert_self, hmade]
  next hp =>
    rcases h.finish_cases hs with ⟨_, -, hmodules, -⟩ | ⟨m, _, -, hmodules, -⟩
    · rw [hmodules]
    · rw [hmodules, PathMap.get?_insert_of_ne hp]

theorem Ends.isTracked (h : Ends c fs A s k) (hs : s.modules.IsOrdered) {p : Path}
    (hp : s.isTracked p = true) : (finish c k.file k.draft k.files s).1.isTracked p = true := by
  have hne : ¬ p.Same k.file := fun hsame ↦ by
    have huntracked := h.untracked
    rw [← isTracked_congr hsame, hp] at huntracked
    simp at huntracked
  rw [isTracked_eq, h.get?_eq hs, if_neg hne, ← isTracked_eq]
  exact hp

/-- What attempts and ends of compilations keep is kept all along. -/
theorem Trail.preserves (h : Trail c fs A s ks s') {P : List Compilation → ModuleStore → Prop}
    (hattempt : ∀ ks s file, A file → s.IsOrdered → P ks s →
      P ks { s with journal := (prepare c fs file s.journal).1 })
    (hfinish : ∀ ks s k, Ends c fs A s k → s.IsOrdered → P ks s →
      P (ks ++ [k]) (ModuleStore.finish c k.file k.draft k.files s).1)
    (hs : s.IsOrdered) (hP : P [] s) : s'.IsOrdered ∧ P ks s' := by
  induction h with
  | start => exact ⟨hs, hP⟩
  | attempt _ allowed ih => exact ⟨⟨ih.1.modules, ih.1.graph⟩, hattempt _ _ _ allowed ih.1 ih.2⟩
  | finish _ ends ih => exact ⟨ends.isOrdered ih.1, hfinish _ _ _ ends ih.1 ih.2⟩

theorem Trail.isOrdered (h : Trail c fs A s ks s') (hs : s.IsOrdered) : s'.IsOrdered :=
  (h.preserves (P := fun _ _ ↦ True) (fun _ _ _ _ _ _ ↦ trivial) (fun _ _ _ _ _ _ ↦ trivial) hs
    trivial).1

theorem Trail.isTracked (h : Trail c fs A s ks s') (hs : s.IsOrdered) {p : Path}
    (hp : s.isTracked p = true) : s'.isTracked p = true :=
  (h.preserves (P := fun _ s ↦ s.isTracked p = true) (fun _ _ _ _ _ hp ↦ hp)
    (fun _ _ _ ends hs hp ↦ ends.isTracked hs.modules hp) hs hp).2

/-- A file that no compilation is about is tracked as before. -/
theorem Trail.get?_eq_of_apart (h : Trail c fs A s ks s') (hs : s.IsOrdered) {p : Path}
    (hp : ∀ k ∈ ks, ¬ p.Same k.file) : s'.modules.get? p = s.modules.get? p := by
  refine (h.preserves (P := fun ks s' ↦ (∀ k ∈ ks, ¬ p.Same k.file) →
    s'.modules.get? p = s.modules.get? p) (fun _ _ _ _ _ ih ↦ ih) ?_ hs fun _ ↦ rfl).2 hp
  intro ks s₁ k ends hs₁ ih hp
  rw [ends.get?_eq hs₁.modules, if_neg (hp k (by simp))]
  exact ih fun k hk ↦ hp k (List.mem_append_left _ hk)

/-- The graph has gained the edges of all compilations. -/
theorem Trail.isAmong_edges (h : Trail c fs A s ks s') (hs : s.IsOrdered) (x y : Path) :
    y.isAmong (s'.graph.edges x) = true ↔ y.isAmong (s.graph.edges x) = true ∨
      ∃ k ∈ ks, x.Same k.file ∧ ∃ e ∈ k.files, y.Same e.2 := by
  refine (h.preserves (P := fun ks s' ↦ y.isAmong (s'.graph.edges x) = true ↔
    y.isAmong (s.graph.edges x) = true ∨ ∃ k ∈ ks, x.Same k.file ∧ ∃ e ∈ k.files, y.Same e.2)
    (fun _ _ _ _ _ ih ↦ ih) ?_ hs (by simp)).2
  intro ks s₁ k _ hs₁ ih
  rw [graph_finish, (hs₁.graph.foldl_add k.file k.files).2, ih]
  simp only [List.mem_append, List.mem_singleton, or_assoc, or_and_right, exists_or,
    exists_eq_left]

/-- Each compilation was allowed, and each file it composes from is tracked in the end or leads
back to its own file. -/
theorem Trail.ready (h : Trail c fs A s ks s') (hs : s.IsOrdered) :
    ∀ k ∈ ks, A k.file ∧ ∀ e ∈ k.files, c.MayCompose fs k.file e.2 ∧
      (s'.isTracked e.2 = true ∨
        ∃ x : Path, x.Same e.2 ∧ A x ∧ ReflTransGen (c.MayCompose fs) x k.file) := by
  refine (h.preserves (P := fun ks s' ↦ ∀ k ∈ ks, A k.file ∧ ∀ e ∈ k.files,
    c.MayCompose fs k.file e.2 ∧ (s'.isTracked e.2 = true ∨
      ∃ x : Path, x.Same e.2 ∧ A x ∧ ReflTransGen (c.MayCompose fs) x k.file))
    (fun _ _ _ _ _ ih ↦ ih) ?_ hs (List.forall_mem_nil _)).2
  intro ks s₁ k ends hs₁ ih k' hk'
  rcases List.mem_append.1 hk' with hk' | hk'
  · obtain ⟨hallowed, hfiles⟩ := ih k' hk'
    exact ⟨hallowed, fun e he ↦ ⟨(hfiles e he).1,
      (hfiles e he).2.imp_left (ends.isTracked hs₁.modules)⟩⟩
  · obtain rfl := List.mem_singleton.1 hk'
    exact ⟨ends.allowed, fun e he ↦ ⟨(ends.mayCompose he).1,
      (ends.ready e he).imp_left (ends.isTracked hs₁.modules)⟩⟩

end Trail

/-! ## Tracking leaves a trail -/

section Tracking

variable {c : Compiler} {fs : FileSystem} {A : Path → Prop} {started : List Path} {file : Path}

/-- What a call has done for a file if it succeeds: the file and all files that its compilations
compose from are tracked or were being compiled before. -/
structure Settles (started : List Path) (file : Path) (s : ModuleStore) (ks : List Compilation) :
    Prop where
  tracked : s.isTracked file = true ∨ file.isAmong started = true
  closed : ∀ k ∈ ks, ∀ e ∈ k.files, s.isTracked e.2 = true ∨ e.2.isAmong started = true

/-- A way to track the existing files that `file` can compose from leaves a trail, which stays away
from the files that are being compiled, and settles what it is told to do if it succeeds. -/
def LeavesTrail (c : Compiler) (fs : FileSystem) (A : Path → Prop) (started : List Path)
    (file : Path) (track : Path → ModuleStore → Outcome Unit)
    (compiled : Path → ModuleStore → List Compilation) : Prop :=
  ∀ q s, c.MayCompose fs file q → fs.isFile q = true → s.IsOrdered →
    Trail c fs A s (compiled q s) (track q s).1 ∧
      (∀ k ∈ compiled q s, k.file.isAmong started = false) ∧
      ((track q s).2 = .ok () → Settles started q (track q s).1 (compiled q s))

/-- Some references of a draft were resolved, and the files are tracked or being compiled. -/
def Resolves (c : Compiler) (fs : FileSystem) (started : List Path) (file : Path) (draft : Draft)
    (s : ModuleStore) (found : List (String × Path)) : Prop :=
  ∀ e ∈ found, e.1 ∈ references draft.composes ∧ c.resolve fs file e.1 = .ok e.2 ∧
    (s.isTracked e.2 = true ∨ e.2.isAmong started = true)

theorem trackReferences_trail {draft : Draft} (hdraft : c.Drafts fs file draft)
    {track : Path → ModuleStore → Outcome Unit} {compiled : Path → ModuleStore → List Compilation}
    (htrack : LeavesTrail c fs A started file track compiled) {rs : List String}
    (hrs : ∀ r ∈ rs, r ∈ references draft.composes) {found : List (String × Path)}
    {s : ModuleStore} (hs : s.IsOrdered) (hfound : Resolves c fs started file draft s found) :
    Trail c fs A s (compiledReferences c fs track compiled file rs found s)
        (trackReferences c fs track file rs found s).1 ∧
      (∀ k ∈ compiledReferences c fs track compiled file rs found s,
        k.file.isAmong started = false) ∧
      ∀ files, (trackReferences c fs track file rs found s).2 = .ok files →
        Resolves c fs started file draft (trackReferences c fs track file rs found s).1 files ∧
        (∀ e ∈ found, e ∈ files) ∧ (∀ r ∈ rs, (files.lookup r).isSome = true) ∧
        ∀ k ∈ compiledReferences c fs track compiled file rs found s, ∀ e ∈ k.files,
          (trackReferences c fs track file rs found s).1.isTracked e.2 = true ∨
            e.2.isAmong started = true := by
  induction rs generalizing found s with
  | nil =>
    refine ⟨.start, List.forall_mem_nil _, fun files h ↦ ?_⟩
    obtain rfl := Except.ok.inj h
    exact ⟨hfound, fun e he ↦ he, List.forall_mem_nil _, List.forall_mem_nil _⟩
  | cons r rs ih =>
    obtain ⟨hr, hrest⟩ := List.forall_mem_cons.1 hrs
    unfold trackReferences compiledReferences
    by_cases hknown : (found.lookup r).isSome = true
    · simp only [hknown, if_true]
      obtain ⟨htrail, hapart, hok⟩ := ih hrest hs hfound
      refine ⟨htrail, hapart, fun files h ↦ ?_⟩
      obtain ⟨hfiles, hsub, hall, hclosed⟩ := hok files h
      exact ⟨hfiles, hsub, List.forall_mem_cons.2 ⟨isSome_lookup_of_subset hsub hknown, hall⟩,
        hclosed⟩
    · simp only [hknown, Bool.false_eq_true, if_false]
      cases hresolve : c.resolve fs file r with
      | error fault => exact ⟨.start, List.forall_mem_nil _, fun files h ↦ by simp at h⟩
      | ok target =>
        obtain ⟨htarget, hexists⟩ := Compiler.resolve_eq_ok.1 hresolve
        obtain ⟨htrail, hapart, hsettles⟩ :=
          htrack target s ⟨draft, hdraft, r, hr, htarget⟩ hexists hs
        simp only
        rcases hres : track target s with ⟨s₁, fault | u⟩
        · rw [hres] at htrail
          rw [List.append_nil]
          exact ⟨htrail, hapart, fun files h ↦ by simp at h⟩
        · rw [hres] at htrail hsettles
          obtain ⟨htracked, hclosed⟩ := hsettles rfl
          have hfound₁ : Resolves c fs started file draft s₁ (found ++ [(r, target)]) := by
            intro e he
            rcases List.mem_append.1 he with he | he
            · obtain ⟨her, heResolve, hdone⟩ := hfound e he
              exact ⟨her, heResolve, hdone.imp_left (htrail.isTracked hs)⟩
            · obtain rfl := List.mem_singleton.1 he
              exact ⟨hr, hresolve, htracked⟩
          obtain ⟨htrail', hapart', hok⟩ := ih hrest (htrail.isOrdered hs) hfound₁
          refine ⟨htrail.trans htrail', List.forall_mem_append.2 ⟨hapart, hapart'⟩,
            fun files h ↦ ?_⟩
          obtain ⟨hfiles, hsub, hall, hclosed'⟩ := hok files h
          refine ⟨hfiles, fun e he ↦ hsub e (List.mem_append_left _ he), ?_, ?_⟩
          · exact List.forall_mem_cons.2 ⟨isSome_lookup_of_subset hsub (by simp), hall⟩
          · exact List.forall_mem_append.2 ⟨fun k hk e he ↦
              (hclosed k hk e he).imp_left (htrail'.isTracked (htrail.isOrdered hs)), hclosed'⟩

/-- The compilation of a file comes to its end once all its references are resolved. -/
theorem Resolves.ends {draft : Draft} {s : ModuleStore} {files : List (String × Path)}
    (h : Resolves c fs (file :: started) file draft s files) (hallowed : A file)
    (hdraft : c.Drafts fs file draft)
    (hstarted : ∀ p ∈ started, A p ∧ ReflTransGen (c.MayCompose fs) p file)
    (huntracked : s.isTracked file = false)
    (hcomplete : ∀ r ∈ references draft.composes, (files.lookup r).isSome = true) :
    Ends c fs A s (.ending c file draft files s) where
  allowed := hallowed
  untracked := huntracked
  drafted := hdraft
  resolved e he := ⟨(h e he).1, (h e he).2.1⟩
  complete := hcomplete
  ready e he := by
    refine (h e he).2.2.imp_right fun hamong ↦ ?_
    obtain ⟨x, hx, hsame⟩ := Path.isAmong_iff.1 hamong
    refine ⟨x, hsame, ?_⟩
    rcases List.mem_cons.1 hx with rfl | hx
    · exact ⟨hallowed, ReflTransGen.refl⟩
    · exact hstarted x hx
  ending := rfl

/-- A compilation that ends well settles its file if only that file was missing. -/
theorem Ends.settles {s : ModuleStore} {ks : List Compilation} {k : Compilation}
    (h : Ends c fs A s k) (hs : s.modules.IsOrdered)
    (hok : (finish c k.file k.draft k.files s).2 = .ok ())
    (hclosed : ∀ k' ∈ ks, ∀ e ∈ k'.files,
      s.isTracked e.2 = true ∨ e.2.isAmong (k.file :: started) = true) :
    Settles started k.file (finish c k.file k.draft k.files s).1 ks := by
  have htracked : ∀ p : Path, p.Same k.file →
      (finish c k.file k.draft k.files s).1.isTracked p = true := by
    intro p hp
    rcases h.finish_cases hs with ⟨fault, hfault, -⟩ | ⟨m, _, -, -, hmade, -⟩
    · simp [hfault] at hok
    · rw [isTracked_eq, h.get?_eq hs, if_pos hp, hmade, Option.isSome_some]
  refine ⟨.inl (htracked _ rfl), fun k' hk' e he ↦ ?_⟩
  rcases hclosed k' hk' e he with hdone | hamong
  · exact .inl (h.isTracked hs hdone)
  · exact (Path.isAmong_cons.1 hamong).imp_left (htracked e.2)

/-- Tracking a file leaves a trail. -/
theorem trackFrom_trail (hA : c.Hands fs A) (limit : Nat) (hallowed : A file)
    (hstarted : ∀ p ∈ started, A p ∧ ReflTransGen (c.MayCompose fs) p file) {s : ModuleStore}
    (hs : s.IsOrdered) :
    Trail c fs A s (compiledFrom c fs limit started file s)
        (trackFrom c fs limit started file s).1 ∧
      (∀ k ∈ compiledFrom c fs limit started file s, k.file.isAmong started = false) ∧
      ((trackFrom c fs limit started file s).2 = .ok () →
        Settles started file (trackFrom c fs limit started file s).1
          (compiledFrom c fs limit started file s)) := by
  induction limit generalizing started file s with
  | zero => exact ⟨.start, List.forall_mem_nil _, fun h ↦ by simp [trackFrom] at h⟩
  | succ limit ih =>
    unfold trackFrom compiledFrom
    by_cases hdone : (s.isTracked file || file.isAmong started) = true
    · simp only [hdone, if_true]
      exact ⟨.start, List.forall_mem_nil _, fun _ ↦
        ⟨Bool.or_eq_true _ _ ▸ hdone, List.forall_mem_nil _⟩⟩
    · simp only [hdone, Bool.false_eq_true, if_false]
      rw [Bool.or_eq_true, not_or, Bool.not_eq_true, Bool.not_eq_true] at hdone
      obtain ⟨huntracked, hnotStarted⟩ := hdone
      have hattempt := (Trail.start : Trail c fs A s [] s).attempt hallowed
      rcases hprepare : prepare c fs file s.journal with ⟨journal, fault | draft⟩
      all_goals
        rw [hprepare] at hattempt
        simp only
      · exact ⟨hattempt, List.forall_mem_nil _, fun h ↦ by simp at h⟩
      · have hdraft : c.Drafts fs file draft := ⟨s.journal, by rw [hprepare]⟩
        have hs₀ : IsOrdered { s with journal := journal } := ⟨hs.modules, hs.graph⟩
        have htrack : LeavesTrail c fs A (file :: started) file
            (trackFrom c fs limit (file :: started)) (compiledFrom c fs limit (file :: started)) :=
          fun q s hq hexists hs ↦ ih (hA hallowed hq hexists)
            (List.forall_mem_cons.2 ⟨⟨hallowed, ReflTransGen.single hq⟩,
              fun p hp ↦ ⟨(hstarted p hp).1, (hstarted p hp).2.tail hq⟩⟩) hs
        obtain ⟨htrail, hapart, hok⟩ := trackReferences_trail hdraft htrack
          (fun r (hr : r ∈ references draft.composes) ↦ hr) hs₀
          (List.forall_mem_nil _ : Resolves c fs _ file draft _ [])
        have hapart' := fun k hk ↦ Path.not_isAmong_cons.1 (hapart k hk)
        rcases hres : trackReferences c fs (trackFrom c fs limit (file :: started)) file
          (references draft.composes) [] { s with journal := journal } with ⟨s₁, fault | files⟩
        all_goals
          rw [hres] at htrail hok
          have hopened := hattempt.trans htrail
          simp only
        · rw [List.append_nil]
          exact ⟨hopened, fun k hk ↦ (hapart' k hk).1, fun h ↦ by simp at h⟩
        · obtain ⟨hfound, -, hcomplete, hclosed⟩ := hok files rfl
          have hs₁ := htrail.isOrdered hs₀
          have huntracked₁ : s₁.isTracked file = false := by
            rw [isTracked_eq, htrail.get?_eq_of_apart hs₀ fun k hk ↦ (hapart' k hk).2]
            exact (isTracked_eq s file).symm.trans huntracked
          have hends := hfound.ends hallowed hdraft hstarted huntracked₁ hcomplete
          refine ⟨hopened.finish hends, List.forall_mem_append.2 ⟨fun k hk ↦ (hapart' k hk).1,
            List.forall_mem_singleton.2 hnotStarted⟩, fun h ↦ ?_⟩
          exact hends.settles hs₁.modules h (List.forall_mem_append.2
            ⟨hclosed, List.forall_mem_singleton.2 fun e he ↦ (hfound e he).2.2⟩)

/-- Tracking a file leaves a trail of its compilations, and if it succeeds then all files they
compose from are tracked. -/
theorem track_trail (hA : c.Hands fs A) {s : ModuleStore} (hs : s.IsOrdered) (file : Path)
    (hallowed : A (c.absolute file)) :
    Trail c fs A s (compilations c fs file s) (track c fs file s).1 ∧
      ((track c fs file s).2 = .ok () → ∀ k ∈ compilations c fs file s, ∀ e ∈ k.files,
        (track c fs file s).1.isTracked e.2 = true) := by
  obtain ⟨htrail, -, hok⟩ := trackFrom_trail hA fs.chainLimit hallowed (List.forall_mem_nil _) hs
  exact ⟨htrail, fun h k hk e he ↦ ((hok h).closed k hk e he).resolve_right (by simp)⟩

end Tracking

end ModuleStore

end StyleModules
