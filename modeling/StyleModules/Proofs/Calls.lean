import StyleModules.Proofs.Compilations
import StyleModules.Proofs.Provenance

/-!
# Calls

A store becomes what it is by a sequence of calls, each of which can find other files on disk and
can fail.  Two things are said about the graph after any calls.  A file has edges to what its
compilations composed from since it was last removed, also to what only a compilation that failed
composed from.  And a file that is composed from is tracked, unless a call failed while both files
composed from each other.
-/

namespace StyleModules

open Relation ModuleStore

namespace ModuleStore

/-- What can be asked of a store. -/
inductive Call where
  /-- Track a file as it is on some disk. -/
  | file (fs : FileSystem) (path : Path)
  | remove (path : Path)
  | output (place : Path)

def Call.perform (c : Compiler) (s : ModuleStore) : Call → ModuleStore
  | file fs path => (track c fs path s).1
  | remove path => (s.remove c path).toOption.getD s
  | output place => (s.output c place).1

/-- The store after some calls, of which the last one comes first. -/
def run (c : Compiler) : List Call → ModuleStore
  | [] => empty
  | call :: earlier => call.perform c (run c earlier)

/-- The compilations that stand after a call, given those that stood before: a file that is removed
takes its compilations with it. -/
def Call.standing (c : Compiler) (s : ModuleStore) (ks : List Compilation) :
    Call → List Compilation
  | file fs path => ks ++ compilations c fs path s
  | remove path =>
    if s.isTracked (c.absolute path) then
      ks.filter fun k ↦ !decide ((c.absolute path).Same k.file)
    else ks
  | output _ => ks

/-- The compilations that stand after some calls, of which the last one comes first. -/
def standing (c : Compiler) : List Call → List Compilation
  | [] => []
  | call :: earlier => call.standing c (run c earlier) (standing c earlier)

def compilationsOf (p : Path) (ks : List Compilation) : List Compilation :=
  ks.filter fun k ↦ decide (p.Same k.file)

section Calls

variable {c : Compiler} {s : ModuleStore} {ks : List Compilation} {p q : Path}

theorem isOrdered_perform (call : Call) (hs : s.IsOrdered) : (call.perform c s).IsOrdered := by
  cases call with
  | file fs path => exact (track_trail (hands_true c fs) hs path trivial).1.isOrdered hs
  | remove path =>
    rw [Call.perform, remove_eq]
    split
    next => exact ⟨hs.modules.erase _, hs.graph.clear _⟩
    next => exact hs
  | output place =>
    obtain ⟨journal, heq⟩ := output_fst c place s
    rw [Call.perform, heq]
    exact ⟨hs.modules, hs.graph⟩

theorem isOrdered_run (c : Compiler) (calls : List Call) : (run c calls).IsOrdered := by
  induction calls with
  | nil => exact isOrdered_empty
  | cons call earlier ih => exact isOrdered_perform call ih

/-! ## What compilations tell -/

/-- The store holds what some compilations tell: their edges, and of each file the module that its
last compilation made, before which none was made. -/
structure IsTold (s : ModuleStore) (ks : List Compilation) : Prop where
  edges : ∀ p q : Path, q.isAmong (s.graph.edges p) = true ↔
    ∃ k ∈ compilationsOf p ks, ∃ e ∈ k.files, q.Same e.2
  modules : ∀ p : Path, s.modules.get? p = (compilationsOf p ks).getLast?.bind Compilation.made
  failed : ∀ p : Path, ∀ k ∈ (compilationsOf p ks).dropLast, k.made = none

theorem isTold_empty : IsTold empty [] where
  edges p q := by simp [compilationsOf, ModuleGraph.edges, empty, ModuleGraph.empty]
  modules p := rfl
  failed p := List.forall_mem_nil _

theorem compilationsOf_append_singleton (p : Path) (ks : List Compilation) (k : Compilation) :
    compilationsOf p (ks ++ [k]) =
      if p.Same k.file then compilationsOf p ks ++ [k] else compilationsOf p ks := by
  unfold compilationsOf
  rw [List.filter_append, List.filter_singleton]
  split
  next hp => rw [decide_eq_true hp, cond_true]
  next hp => rw [decide_eq_false hp, cond_false, List.append_nil]

/-- While a file is not tracked, none of its compilations has made a module. -/
theorem IsTold.made_eq_none (h : IsTold s ks) (hp : s.isTracked p = false) :
    ∀ k ∈ compilationsOf p ks, k.made = none := by
  have hmodule := h.modules p
  have hfailed := h.failed p
  rw [isTracked_eq, Option.isSome_eq_false_iff, Option.isNone_iff_eq_none] at hp
  rcases List.eq_nil_or_concat (compilationsOf p ks) with hnil | ⟨rest, last, heq⟩
  · rw [hnil]
    exact List.forall_mem_nil _
  · rw [List.concat_eq_append] at heq
    rw [heq, List.getLast?_append, hp] at hmodule
    rw [heq, List.dropLast_concat] at hfailed
    rw [heq]
    exact List.forall_mem_append.2 ⟨hfailed, List.forall_mem_singleton.2 hmodule.symm⟩

theorem IsTold.finish {fs : FileSystem} {A : Path → Prop} {k : Compilation} (h : IsTold s ks)
    (hs : s.IsOrdered) (hk : Ends c fs A s k) :
    IsTold (ModuleStore.finish c k.file k.draft k.files s).1 (ks ++ [k]) where
  edges p q := by
    rw [graph_finish, (hs.graph.foldl_add k.file k.files).2, h.edges,
      compilationsOf_append_singleton]
    split
    next hp => simp [hp, or_and_right, exists_or]
    next hp => simp [hp]
  modules p := by
    rw [hk.get?_eq hs.modules, compilationsOf_append_singleton]
    split
    next => simp
    next => exact h.modules p
  failed p := by
    rw [compilationsOf_append_singleton]
    split
    next hp =>
      rw [List.dropLast_concat]
      exact h.made_eq_none ((isTracked_congr hp s).trans hk.untracked)
    next => exact h.failed p

theorem IsTold.remove (h : IsTold s ks) (hs : s.IsOrdered) (place : Path) :
    IsTold { s with modules := s.modules.erase place, graph := s.graph.clear place }
      (ks.filter fun k ↦ !decide (place.Same k.file)) := by
  have hof : ∀ p, compilationsOf p (ks.filter fun k ↦ !decide (place.Same k.file)) =
      if p.Same place then [] else compilationsOf p ks := by
    intro p
    unfold compilationsOf
    rw [List.filter_filter]
    split
    next hp =>
      refine List.filter_eq_nil_iff.2 fun k _ hk ↦ ?_
      have hk' : (decide (p.Same k.file) && !decide (place.Same k.file)) = true := hk
      rw [Bool.and_eq_true, decide_eq_true_iff, Bool.not_eq_true', decide_eq_false_iff_not] at hk'
      exact hk'.2 (hp.symm.trans hk'.1)
    next hp =>
      refine List.filter_congr fun k _ ↦ ?_
      by_cases hk : p.Same k.file
      · have hne : ¬ place.Same k.file := fun hplace ↦ hp (hk.trans hplace.symm)
        simp [hk, hne]
      · simp [hk]
  refine ⟨fun p q ↦ ?_, fun p ↦ ?_, fun p ↦ ?_⟩
  · rw [hs.graph.edges_clear, hof]
    split
    next => simp
    next => exact h.edges p q
  · rw [hof]
    split
    next hp =>
      rw [PathMap.get?_congr hp]
      exact PathMap.get?_erase_self s.modules place
    next hp => exact (PathMap.get?_erase_of_ne hp s.modules).trans (h.modules p)
  · rw [hof]
    split
    next => exact List.forall_mem_nil _
    next => exact h.failed p

theorem IsTold.perform (h : IsTold s ks) (hs : s.IsOrdered) (call : Call) :
    IsTold (call.perform c s) (call.standing c s ks) := by
  cases call with
  | file fs path =>
    exact ((track_trail (hands_true c fs) hs path trivial).1.preserves
      (P := fun ks' s ↦ IsTold s (ks ++ ks')) (fun _ _ _ _ _ h ↦ ⟨h.edges, h.modules, h.failed⟩)
      (fun ks' s' k hk hs' h ↦ by
        rw [← List.append_assoc]
        exact h.finish hs' hk) hs ((List.append_nil ks).symm ▸ h)).2
  | remove path =>
    rw [Call.perform, Call.standing, remove_eq]
    split
    next => exact h.remove hs (c.absolute path)
    next => exact h
  | output place =>
    obtain ⟨journal, heq⟩ := output_fst c place s
    rw [Call.perform, Call.standing, heq]
    exact ⟨h.edges, h.modules, h.failed⟩

theorem isTold_run (c : Compiler) (calls : List Call) :
    IsTold (run c calls) (standing c calls) := by
  induction calls with
  | nil => exact isTold_empty
  | cons call earlier ih => exact ih.perform (isOrdered_run c earlier) call

theorem isAmong_dependencies {g : ModuleGraph} :
    q.isAmong (g.dependencies p) = true ↔ q.isAmong (g.edges p) = true := by
  simp only [Path.isAmong_iff, ModuleGraph.dependencies_eq, Path.mem_sort]

/-- After any calls a file has edges to the files that its standing compilations compose from.  The
last of them made its module, if there is one, and all others failed. -/
theorem dependencies_run (c : Compiler) (calls : List Call) (p : Path) :
    (∀ q : Path, q.isAmong ((run c calls).graph.dependencies p) = true ↔
      ∃ k ∈ compilationsOf p (standing c calls), ∃ e ∈ k.files, q.Same e.2) ∧
    (run c calls).modules.get? p =
      (compilationsOf p (standing c calls)).getLast?.bind Compilation.made ∧
    ∀ k ∈ (compilationsOf p (standing c calls)).dropLast, k.made = none := by
  have htold := isTold_run c calls
  exact ⟨fun q ↦ isAmong_dependencies.trans (htold.edges p q), htold.modules p, htold.failed p⟩

end Calls

end ModuleStore

namespace Session.Sample

/-- A compiler with a transform that fails late on stylesheets with two rules. -/
def strict : Compiler :=
  { start.compiler with
    pipeline := Pipeline.empty.push .after ⟨"strict", fun j ↦
      (j, if j.stylesheet.styles.length = 2 then some (.plain "two rules") else none)⟩ }

/-- First a file with two rules composes from another file, and then it stands alone. -/
def mended : List Call :=
  [.file (disk [("/a.mcss", rule ".a" "")]) ⟨"a.mcss"⟩,
    .file (disk [("/a.mcss", rule ".a" "composes: b from './b'" ++ rule ".c" ""),
      ("/b.mcss", rule ".b" "")]) ⟨"a.mcss"⟩]

end Session.Sample

namespace ModuleStore

open Session

/-- The edge of a compilation that failed stays, though the module that was made later composes
from nothing. -/
theorem stale_dependency :
    (run Sample.strict Sample.mended).isTracked ⟨"/a.mcss"⟩ = true ∧
      (run Sample.strict Sample.mended).graph.dependencies ⟨"/a.mcss"⟩ = [⟨"/b.mcss"⟩] ∧
      (compilationsOf ⟨"/a.mcss"⟩ (standing Sample.strict Sample.mended)).map
        (fun k ↦ (k.made.isSome, k.files)) = [(false, [("./b", ⟨"/b.mcss"⟩)]), (true, [])] := by
  decide +kernel

end ModuleStore

/-! ## Files that are composed from -/

/-- On a disk a file can compose from another one that leads back to it. -/
def Compiler.Circles (c : Compiler) (fs : FileSystem) (p q : Path) : Prop :=
  ∃ x y z : Path, x.Same p ∧ y.Same q ∧ z.Same q ∧ c.MayCompose fs x y ∧
    ReflTransGen (c.MayCompose fs) z x

namespace ModuleStore

/-- The store after some files were tracked, each as it was on some disk.  The last one comes
first. -/
def runFiles (c : Compiler) (files : List (FileSystem × Path)) : ModuleStore :=
  run c (files.map fun e ↦ .file e.1 e.2)

/-- Whatever files were tracked and whichever of that failed: what a file composes from is tracked,
unless a call failed on a disk where the two files compose from each other. -/
theorem isTracked_of_mem_dependencies (c : Compiler) (files : List (FileSystem × Path))
    {p q : Path} (h : q ∈ (runFiles c files).graph.dependencies p) :
    (runFiles c files).isTracked q = true ∨
      ∃ later fs file earlier, files = later ++ (fs, file) :: earlier ∧
        (track c fs file (runFiles c earlier)).2 ≠ .ok () ∧ c.Circles fs p q := by
  have hedge := isAmong_dependencies.1 (Path.isAmong_of_mem h)
  clear h
  induction files with
  | nil => simp [runFiles, run, ModuleGraph.edges, empty, ModuleGraph.empty] at hedge
  | cons call earlier ih =>
    obtain ⟨fs, file⟩ := call
    have hs := isOrdered_run c (earlier.map fun e ↦ .file e.1 e.2)
    obtain ⟨htrail, hok⟩ := track_trail (hands_true c fs) hs file trivial
    change q.isAmong ((track c fs file (runFiles c earlier)).1.graph.edges p) = true at hedge
    change (track c fs file (runFiles c earlier)).1.isTracked q = true ∨ _
    rcases (htrail.isAmong_edges hs p q).1 hedge with hold | ⟨k, hk, hp, e, he, hq⟩
    · refine (ih hold).imp (htrail.isTracked hs) ?_
      rintro ⟨later, fs', file', earlier', rfl, hfails⟩
      exact ⟨(fs, file) :: later, fs', file', earlier', rfl, hfails⟩
    · rw [isTracked_congr hq]
      by_cases hsucceeds : (track c fs file (runFiles c earlier)).2 = .ok ()
      · exact .inl (hok hsucceeds k hk e he)
      · obtain ⟨hcomposes, hready⟩ := (htrail.ready hs k hk).2 e he
        refine hready.imp_right ?_
        rintro ⟨x, hx, _, hback⟩
        refine ⟨[], fs, file, earlier, rfl, hsucceeds, ?_⟩
        exact ⟨k.file, e.2, x, hp.symm, hq.symm, hx.trans hq.symm, hcomposes, hback⟩

end ModuleStore

namespace Session.Sample

/-- Two files compose from each other, and the first one also from a file that is missing. -/
def torn : FileSystem :=
  disk [("/a.mcss", rule ".a" "composes: b from './b'; composes: c from './c'"),
    ("/b.mcss", rule ".b" "composes: a from './a'")]

end Session.Sample

namespace ModuleStore

open Session

/-- A file that was compiled inside of a circle stays tracked when the circle fails, and its edge
leads to a file that is not tracked. -/
theorem isTracked_of_mem_dependencies_sample :
    (runFiles Sample.start.compiler [(Sample.torn, ⟨"a.mcss"⟩)]).isTracked ⟨"/b.mcss"⟩ = true ∧
      ⟨"/a.mcss"⟩ ∈ (runFiles Sample.start.compiler
        [(Sample.torn, ⟨"a.mcss"⟩)]).graph.dependencies ⟨"/b.mcss"⟩ ∧
      (runFiles Sample.start.compiler [(Sample.torn, ⟨"a.mcss"⟩)]).isTracked ⟨"/a.mcss"⟩ = false ∧
      Sample.start.compiler.Circles Sample.torn ⟨"/b.mcss"⟩ ⟨"/a.mcss"⟩ := by
  have hrun : (runFiles Sample.start.compiler [(Sample.torn, ⟨"a.mcss"⟩)]).isTracked
        ⟨"/b.mcss"⟩ = true ∧
      ⟨"/a.mcss"⟩ ∈ (runFiles Sample.start.compiler
        [(Sample.torn, ⟨"a.mcss"⟩)]).graph.dependencies ⟨"/b.mcss"⟩ ∧
      (runFiles Sample.start.compiler [(Sample.torn, ⟨"a.mcss"⟩)]).isTracked
        ⟨"/a.mcss"⟩ = false := by decide +kernel
  obtain ⟨htracked, hedge, huntracked⟩ := hrun
  refine ⟨htracked, hedge, huntracked, ?_⟩
  rcases isTracked_of_mem_dependencies Sample.start.compiler _ hedge with h | h
  · rw [huntracked] at h
    simp at h
  · obtain ⟨later, fs, file, earlier, hcalls, -, hcircles⟩ := h
    have hmem : (fs, file) ∈ [(Sample.torn, (⟨"a.mcss"⟩ : Path))] := by
      rw [hcalls]
      simp
    obtain ⟨rfl, -⟩ := Prod.mk.inj (List.mem_singleton.1 hmem)
    exact hcircles

end ModuleStore

end StyleModules
