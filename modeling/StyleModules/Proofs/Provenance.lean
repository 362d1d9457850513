import StyleModules.Proofs.Session
import StyleModules.Proofs.TreeShape

/-!
# Where modules come from

Each tracked module was compiled on some disk, its origin.  Whatever happened since, two records
still connect the module with the files it was made from: the edges of the graph lead to it from
the files it composes from, and the ledger leads to it from the files that were inlined into it.
Eviction follows both, so nothing that was made from a file outlives it.
-/

namespace StyleModules

open Relation ModuleStore

/-- The file `p`, compiled on its origin, was made from `f`: it is `f`, has `f` inlined, or
composes from a file that was made from `f`. -/
inductive Compiler.MadeFrom (c : Compiler) (origin : Path → FileSystem) (f : Path) : Path → Prop
  | self : c.MadeFrom origin f f
  | inlined {p : Path} (h : f ∈ c.sources (origin p) p) : c.MadeFrom origin f p
  | composed {p q : Path} (h : c.ComposesFrom (origin p) p q) (hq : c.MadeFrom origin f q) :
      c.MadeFrom origin f p

namespace ModuleStore

/-- Every tracked module is what its file compiles to on its origin, together with the modules
that are tracked, and both records connect it with what it was made from. -/
structure Sound (c : Compiler) (origin : Path → FileSystem) (s : ModuleStore) : Prop where
  suits : ∀ p : Path, p.IsPlace → s.isTracked p = true → c.Suits (origin p)
  made : ∀ (p : Path) (m : Module), p.IsPlace → s.modules.get? p = some m →
    ∃ b, c.blueprint (origin p) p = .ok b ∧ c.assemble p b s.composition? = .ok m ∧
      ∀ q ∈ c.targets p b, q ∈ s.graph.edges p ∧ s.isTracked q = true
  leads : ∀ p : Path, p.IsPlace → s.isTracked p = true → ∀ g ∈ c.sources (origin p) p,
    s.journal.imports.Leads g p

variable {c : Compiler} {origin origin' : Path → FileSystem} {fs : FileSystem} {s s' : ModuleStore}

theorem isTracked_iff {p : Path} : s.isTracked p = true ↔ ∃ m, s.modules.get? p = some m := by
  rw [isTracked_eq, Option.isSome_iff_exists]

theorem composition?_eq (s : ModuleStore) (p : Path) :
    s.composition? p = (s.modules.get? p).map Module.composition := rfl

theorem sound_empty (c : Compiler) (origin : Path → FileSystem) : Sound c origin empty where
  suits p _ h := by simp [isTracked_eq, empty] at h
  made p m _ h := by simp [empty] at h
  leads p _ h := by simp [isTracked_eq, empty] at h

/-- Only the origins of tracked files matter. -/
theorem Sound.congr (h : Sound c origin s)
    (heq : ∀ p : Path, p.IsPlace → s.isTracked p = true → origin' p = origin p) :
    Sound c origin' s where
  suits p hp htracked := heq p hp htracked ▸ h.suits p hp htracked
  made p m hp hm := by
    rw [heq p hp (isTracked_iff.2 ⟨m, hm⟩)]
    exact h.made p m hp hm
  leads p hp htracked := by
    rw [heq p hp htracked]
    exact h.leads p hp htracked

theorem Sound.alike (h : Sound c origin s) (halike : s.Alike s') : Sound c origin s' := by
  have htracked : ∀ p, s'.isTracked p = s.isTracked p := fun p ↦ by
    rw [isTracked_eq, isTracked_eq, halike.modules]
  have hcomposition : s'.composition? = s.composition? := by
    funext p
    rw [composition?_eq, composition?_eq, halike.modules]
  refine ⟨fun p hp hpTracked ↦ h.suits p hp (htracked p ▸ hpTracked), fun p m hp hm ↦ ?_,
    fun p hp hpTracked g hg ↦ halike.imports ▸ h.leads p hp (htracked p ▸ hpTracked) g hg⟩
  obtain ⟨b, hb, hassemble, htargets⟩ := h.made p m hp (halike.modules ▸ hm)
  refine ⟨b, hb, hcomposition ▸ hassemble, fun q hq ↦ ?_⟩
  rw [halike.graph, htracked]
  exact htargets q hq

/-! ## Steps and eviction keep the records -/

/-- The files that a step finds untracked are compiled on the current disk. -/
theorem Sound.step (hc : c.IsRegular) (hfs : c.Suits fs) (hacyclic : c.IsAcyclic fs)
    {A : Path → Prop} (hstep : Step c fs A s s') (hs : s.IsTidy)
    (horigin : ∀ p : Path, p.IsPlace → s.isTracked p = false → origin p = fs)
    (h : Sound c origin s) : Sound c origin s' := by
  have hold : ∀ p : Path, p.IsPlace → s.isTracked p = true →
      s'.modules.get? p = s.modules.get? p := fun p hp hpTracked ↦ hstep.get?_eq hp hpTracked
  have hmono : ∀ x y, y ∈ s.journal.imports.parents x → y ∈ s'.journal.imports.parents x :=
    fun x y hy ↦ hstep.parents_mono hc hfs hs hy
  have hmadeOld : ∀ (p : Path) (m : Module), p.IsPlace → s.modules.get? p = some m →
      ∃ b, c.blueprint (origin p) p = .ok b ∧ c.assemble p b s'.composition? = .ok m ∧
        ∀ q ∈ c.targets p b, q ∈ s'.graph.edges p ∧ s'.isTracked q = true := by
    intro p m hp hm
    have hpTracked := isTracked_iff.2 ⟨m, hm⟩
    obtain ⟨b, hb, hassemble, htargets⟩ := h.made p m hp hm
    have hplace : ∀ q ∈ c.targets p b, q.IsPlace := fun q hq ↦
      hs.graph.isPlace p q (htargets q hq).1
    refine ⟨b, hb, ?_, fun q hq ↦ ?_⟩
    · rw [← hassemble]
      refine Compiler.assemble_congr fun q hq ↦ ?_
      rw [composition?_eq, composition?_eq, hold q (hplace q hq) (htargets q hq).2]
    · rw [hstep.edges_eq hc hfs hs hp hpTracked]
      exact ⟨(htargets q hq).1, hstep.isTracked (hplace q hq) (htargets q hq).2⟩
  have hleadsOld : ∀ p : Path, p.IsPlace → s.isTracked p = true →
      ∀ g ∈ c.sources (origin p) p, s'.journal.imports.Leads g p :=
    fun p hp hpTracked g hg ↦ (h.leads p hp hpTracked g hg).mono hmono
  cases hstep with
  | attempt => exact ⟨h.suits, hmadeOld, hleadsOld⟩
  | @finish file journal b qs modules isPlace allowed untracked blueprint targets exist started
      recorded imports assembled =>
    rcases assembled with ⟨fault, -, rfl⟩ | ⟨m, hm, rfl⟩
    · exact ⟨h.suits, hmadeOld, hleadsOld⟩
    · have hfile : origin file = fs := horigin file isPlace untracked
      have hget : ∀ p : Path, p.IsPlace → p ≠ file →
          (s.modules.insert file m).get? p = s.modules.get? p := fun p hp hne ↦
        PathMap.get?_insert_of_ne (fun heq ↦ hne (hp.eq_of_components isPlace heq)) s.modules m
      have hnew : ∀ p : Path, p.IsPlace → p ≠ file →
          isTracked ⟨s.graph.addAll file qs, s.modules.insert file m, journal⟩ p = true →
          s.isTracked p = true := by
        intro p hp hne hpTracked
        rwa [isTracked_eq, hget p hp hne, ← isTracked_eq] at hpTracked
      have htargets : ∀ q ∈ c.targets file b, q.IsPlace ∧ q ≠ file ∧ s.isTracked q = true := by
        intro q hq
        have hcomposes : c.ComposesFrom fs file q := ⟨b, blueprint, hq⟩
        refine ⟨hcomposes.isPlace hc hfs isPlace (exist q ((targets q).2 hq)), ?_, ?_⟩
        · rintro rfl
          exact hacyclic q isPlace (TransGen.single hcomposes)
        · exact (started q ((targets q).2 hq)).resolve_right fun hback ↦
            hacyclic file isPlace (TransGen.head' hcomposes hback)
      refine ⟨fun p hp hpTracked ↦ ?_, fun p m' hp hm' ↦ ?_, fun p hp hpTracked g hg ↦ ?_⟩
      · by_cases hpFile : p = file
        · rwa [hpFile, hfile]
        · exact h.suits p hp (hnew p hp hpFile hpTracked)
      · by_cases hpFile : p = file
        · subst hpFile
          rw [hs.modules.get?_insert_self] at hm'
          obtain rfl := Option.some.inj hm'
          refine ⟨b, hfile ▸ blueprint, ?_, fun q hq ↦ ?_⟩
          · rw [← hm]
            refine Compiler.assemble_congr fun q hq ↦ ?_
            obtain ⟨hqPlace, hne, -⟩ := htargets q hq
            rw [composition?_eq, composition?_eq, hget q hqPlace hne]
          · obtain ⟨hqPlace, hne, hqTracked⟩ := htargets q hq
            refine ⟨?_, ?_⟩
            · refine (ModuleGraph.mem_edges_addAll hs.graph isPlace (fun q hq ↦
                (htargets q ((targets q).1 hq)).1) isPlace).2 (.inr ⟨rfl, (targets q).2 hq⟩)
            · rwa [isTracked_eq, hget q hqPlace hne, ← isTracked_eq]
        · exact hmadeOld p m' hp (hget p hp hpFile ▸ hm')
      · by_cases hpFile : p = file
        · subst hpFile
          rw [hfile] at hg
          refine ReflTransGen.mono (fun x y hxy ↦ ?_) _ _ (Compiler.leads_of_mem_sources hg)
          exact hmono x y (recorded ⟨x, y⟩ hxy)
        · exact hleadsOld p hp (hnew p hp hpFile hpTracked) g hg

theorem Sound.steps (hc : c.IsRegular) (hfs : c.Suits fs) (hacyclic : c.IsAcyclic fs)
    {A : Path → Prop} (hsteps : Steps c fs A s s') (hs : s.IsTidy)
    (horigin : ∀ p : Path, p.IsPlace → s.isTracked p = false → origin p = fs)
    (h : Sound c origin s) : Sound c origin s' := by
  refine (hsteps.preserves hc hfs (P := fun s' ↦ Sound c origin s' ∧
    ∀ p : Path, p.IsPlace → s'.isTracked p = false → origin p = fs) ?_ hs ⟨h, horigin⟩).2.1
  rintro s₁ s₂ hs₁ ⟨hsound, horigin₁⟩ hstep
  refine ⟨hsound.step hc hfs hacyclic hstep hs₁ horigin₁, fun p hp hpUntracked ↦ ?_⟩
  refine horigin₁ p hp (Bool.eq_false_iff.2 fun hpTracked ↦ ?_)
  rw [hstep.isTracked hp hpTracked] at hpUntracked
  simp at hpUntracked

/-- A chain of records that ends outside of a closed tree never meets it. -/
theorem IsClosed.not_mem_of_leads {tree : List Path} (hclosed : s.IsClosed tree) (hs : s.IsTidy)
    {g p : Path} (hg : g.IsPlace) (hp : p ∉ tree) (hleads : s.journal.imports.Leads g p) :
    g ∉ tree := by
  induction hleads using ReflTransGen.head_induction_on with
  | refl => exact hp
  | @head x y hxy _ ih =>
    have hy : y.IsPlace := hs.imports.isPlace x y hxy
    exact fun hx ↦ ih hy (hclosed x hx y hy (.inr hxy))

theorem Evicted.leads {tree : List Path} (h : Evicted s tree s') (hs : s.IsTidy)
    (hclosed : s.IsClosed tree) {g p : Path} (hg : g.IsPlace) (hp : p ∉ tree)
    (hleads : s.journal.imports.Leads g p) : s'.journal.imports.Leads g p := by
  induction hleads using ReflTransGen.head_induction_on with
  | refl => exact ReflTransGen.refl
  | @head x y hxy hrest ih =>
    have hxTree := hclosed.not_mem_of_leads hs hg hp (ReflTransGen.head hxy hrest)
    refine ReflTransGen.head ?_ (ih (hs.imports.isPlace x y hxy))
    rw [h.parents x hg, if_neg hxTree]
    exact hxy

theorem Sound.evicted {tree : List Path} (hc : c.IsRegular) (h : Sound c origin s) (hs : s.IsTidy)
    (hevicted : Evicted s tree s') (hclosed : s.IsClosed tree) : Sound c origin s' := by
  have hget : ∀ p : Path, p.IsPlace → p ∉ tree → s'.modules.get? p = s.modules.get? p :=
    fun p hp htree ↦ by rw [hevicted.get? p hp, if_neg htree]
  refine ⟨fun p hp hpTracked ↦ h.suits p hp ((hevicted.isTracked_iff hp).1 hpTracked).1,
    fun p m hp hm ↦ ?_, fun p hp hpTracked g hg ↦ ?_⟩
  · obtain ⟨hpTracked, hpTree⟩ := (hevicted.isTracked_iff hp).1 (isTracked_iff.2 ⟨m, hm⟩)
    obtain ⟨b, hb, hassemble, htargets⟩ := h.made p m hp (hget p hp hpTree ▸ hm)
    have hout : ∀ q ∈ c.targets p b, q.IsPlace ∧ q ∉ tree := by
      intro q hq
      obtain ⟨hedge, hqTracked⟩ := htargets q hq
      exact ⟨hs.graph.isPlace p q hedge,
        fun hqTree ↦ hpTree (hclosed q hqTree p hp (.inl ⟨hqTracked, hpTracked, hedge⟩))⟩
    refine ⟨b, hb, ?_, fun q hq ↦ ?_⟩
    · rw [← hassemble]
      refine Compiler.assemble_congr fun q hq ↦ ?_
      rw [composition?_eq, composition?_eq, hget q (hout q hq).1 (hout q hq).2]
    · rw [hevicted.edges p hp, if_neg fun hmem ↦ hpTree hmem.1]
      exact ⟨(htargets q hq).1, (hevicted.isTracked_iff (hout q hq).1).2
        ⟨(htargets q hq).2, (hout q hq).2⟩⟩
  · obtain ⟨hpTracked, hpTree⟩ := (hevicted.isTracked_iff hp).1 hpTracked
    have hgPlace := Compiler.isPlace_of_mem_sources hc.resolver (h.suits p hp hpTracked).root hp hg
    exact hevicted.leads hs hclosed hgPlace hpTree (h.leads p hp hpTracked g hg)

/-- All that was made from a file of a closed tree is in the tree. -/
theorem Sound.mem_of_madeFrom {tree : List Path} (hc : c.IsRegular) (h : Sound c origin s)
    (hs : s.IsTidy) (hclosed : s.IsClosed tree) {f p : Path} (hf : f ∈ tree) (hp : p.IsPlace)
    (hpTracked : s.isTracked p = true) (hmade : c.MadeFrom origin f p) : p ∈ tree := by
  induction hmade with
  | self => exact hf
  | @inlined p hsource =>
    by_contra hpTree
    have hfPlace := Compiler.isPlace_of_mem_sources hc.resolver (h.suits p hp hpTracked).root hp
      hsource
    exact hclosed.not_mem_of_leads hs hfPlace hpTree (h.leads p hp hpTracked f hsource) hf
  | @composed p q hcomposes _ ih =>
    obtain ⟨m, hm⟩ := isTracked_iff.1 hpTracked
    obtain ⟨b, hb, -, htargets⟩ := h.made p m hp hm
    obtain ⟨b', hb', hq⟩ := hcomposes
    obtain rfl := Except.ok.inj (hb.symm.trans hb')
    obtain ⟨hedge, hqTracked⟩ := htargets q hq
    have hqTree := ih (hs.graph.isPlace p q hedge) hqTracked
    exact hclosed q hqTree p hp (.inl ⟨hqTracked, hpTracked, hedge⟩)

end ModuleStore

/-! ## Runs -/

/-- What is asked of every disk that a session compiles on: no file composes from itself, and all
files are known. -/
structure Compiler.Admits (c : Compiler) (known : List Path) (fs : FileSystem) : Prop
    extends c.Suits fs where
  acyclic : c.IsAcyclic fs
  known : ∀ p : Path, p.IsPlace → fs.isFile p = true → p ∈ known

namespace Compiler

/-- The files that the `composes` declarations of a file refer to, as they are written. -/
def referencesOf (c : Compiler) (fs : FileSystem) (p : Path) : List String :=
  match c.blueprint fs p with
  | .ok b => references b.composes
  | .error _ => []

theorem referencesOf_eq {c : Compiler} {fs : FileSystem} {p : Path} {b : Blueprint}
    (hb : c.blueprint fs p = .ok b) : c.referencesOf fs p = references b.composes := by
  rw [referencesOf, hb]

/-- Whether references are resolved can be seen from the files on a disk. -/
theorem suits_of_files {c : Compiler} {fs : FileSystem} (hkeyed : fs.IsKeyed)
    (hroot : fs.isFile ⟨"/"⟩ = false)
    (hresolves : ∀ p ∈ fs.files, ∀ r ∈ c.referencesOf fs p,
      (c.resolver.absolute r p (.stylesheet false)).isSome = true) : c.Suits fs :=
  ⟨hroot, fun p _ hp hb r hr _ ↦
    hresolves p (FileSystem.mem_files hkeyed hp (isFile_of_blueprint hb)) r
      (referencesOf_eq hb ▸ hr)⟩

/-- Whether a disk is admitted can be seen from its files. -/
theorem admits_of_files {c : Compiler} (hc : c.IsRegular) {fs : FileSystem}
    (hkeyed : fs.IsKeyed) (hroot : fs.isFile ⟨"/"⟩ = false) (rank : Path → Nat)
    (hreferences : ∀ p ∈ fs.files, ∀ r ∈ c.referencesOf fs p,
      (c.resolver.absolute r p (.stylesheet false)).isSome = true ∧
        rank (c.target p r) < rank p) :
    c.Admits fs.files fs := by
  have hsuits := suits_of_files hkeyed hroot fun p hp r hr ↦ (hreferences p hp r hr).1
  refine ⟨hsuits, isAcyclic_of_rank hc hsuits rank fun p q hp ⟨b, hb, hq⟩ ↦ ?_,
    fun p hp hfile ↦ FileSystem.mem_files hkeyed hp hfile⟩
  obtain ⟨r, hr, rfl⟩ := List.mem_map.1 hq
  exact (hreferences p (FileSystem.mem_files hkeyed hp (isFile_of_blueprint hb)) r
    (referencesOf_eq hb ▸ hr)).2

end Compiler

namespace Session

/-- Where files come from after an event: what was tracked all along keeps its origin, and all else
was compiled on the current disk. -/
def originsAfter (s : Session) (e : FileEvent) (origin : Path → FileSystem) : Path → FileSystem :=
  fun p ↦ if (s.kept e).store.isTracked p then origin p else s.fs

/-- The sessions that a session can become, with the origins of their modules.  Events are handled
on disks of a certain kind only, whether or not they fail. -/
inductive Reached (P : FileSystem → Prop) (start : Session) :
    Session → (Path → FileSystem) → Prop
  | start : Reached P start start (fun _ ↦ start.fs)
  /-- Files are created, modified and deleted. -/
  | edit {s : Session} {origin : Path → FileSystem} (h : Reached P start s origin)
      (fs : FileSystem) : Reached P start { s with fs := fs } origin
  | event {s : Session} {origin : Path → FileSystem} (h : Reached P start s origin) (hP : P s.fs)
      (e : FileEvent) : Reached P start (s.handle e).1 (s.originsAfter e origin)
  | evict {s : Session} {origin : Path → FileSystem} (h : Reached P start s origin)
      (file : Path) : Reached P start (s.evict file).2 origin
  | writeBundle {s : Session} {origin : Path → FileSystem} (h : Reached P start s origin) :
      Reached P start s.writeBundle.1 origin
  | writeMaps {s : Session} {origin : Path → FileSystem} (h : Reached P start s origin) :
      Reached P start s.writeMaps.1 origin

theorem Reached.trans {P : FileSystem → Prop} {s s' s'' : Session} {o o' : Path → FileSystem}
    (h : Reached P s s' o) (h' : Reached P s' s'' o') : ∃ origin, Reached P s s'' origin := by
  induction h' with
  | start => exact ⟨o, h⟩
  | edit _ fs ih => exact ih.imp fun _ h ↦ h.edit fs
  | event _ hP e ih =>
    obtain ⟨_, h⟩ := ih
    exact ⟨_, h.event hP e⟩
  | evict _ file ih => exact ih.imp fun _ h ↦ h.evict file
  | writeBundle _ ih => exact ih.imp fun _ h ↦ h.writeBundle
  | writeMaps _ ih => exact ih.imp fun _ h ↦ h.writeMaps

theorem Reached.mono {P Q : FileSystem → Prop} {start s : Session} {origin : Path → FileSystem}
    (hPQ : ∀ fs, P fs → Q fs) (h : Reached P start s origin) : Reached Q start s origin := by
  induction h with
  | start => exact .start
  | edit _ fs ih => exact ih.edit fs
  | event _ hP e ih => exact ih.event (hPQ _ hP) e
  | evict _ file ih => exact ih.evict file
  | writeBundle _ ih => exact ih.writeBundle
  | writeMaps _ ih => exact ih.writeMaps

/-- What holds of every session that can be reached. -/
structure Traced (c : Compiler) (known : List Path) (s : Session)
    (origin : Path → FileSystem) : Prop where
  compiler : s.compiler = c
  isTidy : s.store.IsTidy
  within : s.store.Within (· ∈ known)
  sound : s.store.Sound c origin

section Traced

variable {c : Compiler} {known : List Path} {s : Session} {origin : Path → FileSystem}

theorem Traced.evict (hc : c.IsRegular) (hknown : known.length < Invalidation.maxDepth)
    (h : Traced c known s origin) (file : Path) : Traced c known (s.evicting file) origin := by
  have hc' : s.compiler.IsRegular := h.compiler ▸ hc
  have hevicted := evicted_evicting hc'.root h.isTidy file
  have hclosed := isClosed_evictedWith hc'.root h.isTidy file h.within (fun p hp ↦ hp)
    (Nat.le_of_lt hknown)
  exact ⟨(sameSetup_evicting s file).compiler.trans h.compiler, hevicted.isTidy,
    hevicted.within h.within, h.sound.evicted hc h.isTidy hevicted hclosed⟩

/-- Handling an event keeps the records if all that was made from what is evicted is evicted. -/
theorem sound_handle (hc : s.compiler.IsRegular) (hfs : s.compiler.Suits s.fs)
    (hacyclic : s.compiler.IsAcyclic s.fs) (hs : s.store.IsTidy) (e : FileEvent)
    (hclosed : s.store.IsClosed (s.evictedBy e)) (h : Sound s.compiler origin s.store) :
    Sound s.compiler (s.originsAfter e origin) (s.handle e).1.store := by
  have hsteps := steps_handle (A := fun _ ↦ True) hc hfs hs (fun _ _ _ _ _ ↦ trivial) e
    (fun _ _ ↦ trivial)
  have hevicted := evicted_kept hc.root hs e
  have hkept : Sound s.compiler (s.originsAfter e origin) (s.kept e).store :=
    (h.evicted hc hs hevicted hclosed).congr fun p _ htracked ↦ by
      rw [originsAfter, if_pos htracked]
  refine hkept.steps hc hfs hacyclic hsteps hevicted.isTidy fun p _ huntracked ↦ ?_
  rw [originsAfter, if_neg (by simp [huntracked])]

theorem Traced.event (hc : c.IsRegular) (hknown : known.length < Invalidation.maxDepth)
    (hfs : c.Admits known s.fs) (h : Traced c known s origin) (e : FileEvent) :
    Traced c known (s.handle e).1 (s.originsAfter e origin) := by
  obtain ⟨rfl, htidy, hwithin, hsound⟩ := h
  have hsteps := steps_handle (A := fun _ ↦ True) hc hfs.toSuits htidy (fun _ _ _ _ _ ↦ trivial) e
    (fun _ _ ↦ trivial)
  have hevicted := evicted_kept hc.root htidy e
  have hclosed := isClosed_evictedBy hc.root htidy e hwithin (fun p hp ↦ hp) (Nat.le_of_lt hknown)
  exact ⟨(sameSetup_handle s e).compiler, hsteps.isTidy hc hfs.toSuits hevicted.isTidy,
    hsteps.within hc hfs.toSuits (fun _ _ _ _ ↦ trivial) (fun p hp _ hfile ↦ hfs.known p hp hfile)
      hevicted.isTidy (hevicted.within hwithin),
    sound_handle hc hfs.toSuits hfs.acyclic htidy e hclosed hsound⟩

theorem Reached.traced {start : Session} (hc : start.compiler.IsRegular)
    (hstore : start.store = .empty) (hknown : known.length < Invalidation.maxDepth)
    (h : Reached (start.compiler.Admits known) start s origin) :
    Traced start.compiler known s origin := by
  induction h with
  | start =>
    exact ⟨rfl, hstore ▸ isTidy_empty, hstore ▸ within_empty _, hstore ▸ sound_empty _ _⟩
  | edit _ fs ih => exact ⟨ih.compiler, ih.isTidy, ih.within, ih.sound⟩
  | event _ hP e ih => exact ih.event hc hknown hP e
  | evict _ file ih => exact ih.evict hc hknown file
  | @writeBundle s _ _ ih =>
    obtain ⟨-, hcompiler, halike⟩ := writeBundle_spec (s := s) (ih.compiler ▸ hc.keepsLedger)
    exact ⟨hcompiler.trans ih.compiler, halike.isTidy ih.isTidy, halike.within ih.within,
      ih.sound.alike halike⟩
  | @writeMaps s _ _ ih =>
    obtain ⟨-, hcompiler, hstore⟩ := writeMaps_spec s
    exact ⟨hcompiler.trans ih.compiler, hstore ▸ ih.isTidy, hstore ▸ ih.within, hstore ▸ ih.sound⟩

/-- Handling a batch of events and writing the output is such a run. -/
theorem Reached.process {P : FileSystem → Prop} {start : Session} (h : Reached P start s origin)
    (hP : P s.fs) (events : List FileEvent) :
    ∃ origin', Reached P start (s.process events).1 origin' := by
  have hbatch : (s.heard events).fs = s.fs ∧ ∃ origin', Reached P start (s.heard events) origin' :=
    heard_preserves (P := fun s' ↦ s'.fs = s.fs ∧ ∃ origin', Reached P start s' origin')
      (fun s' e _ ⟨hfs, _, h'⟩ ↦
        ⟨(sameSetup_handle s' e).fs.trans hfs, _, h'.event (hfs ▸ hP) e⟩)
      events ⟨rfl, origin, h⟩
  obtain ⟨-, origin', h'⟩ := hbatch
  rw [← fst_foldl_handleInBatch events (s, .empty)] at h'
  refine ⟨origin', ?_⟩
  rcases fst_process s events with heq | heq
  · exact heq ▸ h'.writeBundle
  · exact heq ▸ h'.writeBundle.writeMaps

end Traced

/-- In every state that a session can reach, what is left after a file was evicted is compiled as
on its origin, and nothing of it was made from that file. -/
theorem not_madeFrom_after_evict {o : Options} {extras : Extras} {fs : FileSystem}
    {start s : Session} {origin : Path → FileSystem} {known : List Path}
    (hstart : Starts o extras fs start) (hknown : known.length < 1000)
    (h : Reached (start.compiler.Admits known) start s origin) (f p : Path) (m : Module)
    (hm : (s.evict f).2.store.modules.get? (s.absolute p) = some m) :
    (∃ b, s.compiler.blueprint (origin (s.absolute p)) (s.absolute p) = .ok b ∧
      s.compiler.assemble (s.absolute p) b (s.evict f).2.store.composition? = .ok m) ∧
      ¬ s.compiler.MadeFrom origin (s.absolute f) (s.absolute p) := by
  have htraced := h.traced hstart.isRegular hstart.store_eq hknown
  have hc : s.compiler.IsRegular := htraced.compiler ▸ hstart.isRegular
  have hp : (s.absolute p).IsPlace := Compiler.isPlace_absolute hc p
  have hkept := htraced.evict hstart.isRegular hknown f
  have hclosed := isClosed_evictedWith hc.root htraced.isTidy f htraced.within (fun p hp ↦ hp)
    (Nat.le_of_lt hknown)
  obtain ⟨hpTracked, hpTree⟩ :=
    ((evicted_evicting hc.root htraced.isTidy f).isTracked_iff hp).1 (isTracked_iff.2 ⟨m, hm⟩)
  constructor
  · obtain ⟨b, hb, hassemble, -⟩ := hkept.sound.made _ m hp hm
    rw [htraced.compiler]
    exact ⟨b, hb, hassemble⟩
  · intro hmade
    exact hpTree ((htraced.compiler ▸ htraced.sound).mem_of_madeFrom hc htraced.isTidy hclosed
      (self_mem_evictedWith s f) hp hpTracked hmade)

namespace Sample

def disk (files : List (String × String)) : FileSystem :=
  .memory (FileTree.Memory.ofFiles none (files.map fun f ↦ (⟨f.1⟩, f.2.toUTF8)))

theorem isKeyed_disk (files : List (String × String)) : (disk files).IsKeyed :=
  (FileTree.Memory.isTidy_ofFiles none _).isKeyed

def rule (selector declarations : String) : String :=
  selector ++ "\x7b" ++ declarations ++ "\x7d"

def options : Options := { Options.standard with outputDirectory := some ⟨"out"⟩ }

theorem isSome_start_disk (files : List (String × String)) :
    (Session.start (disk files) options .none).toOption.isSome = true := rfl

theorem eq_ok_get {α : Type} {e : Except Fault α} (h : e.toOption.isSome = true) :
    e = .ok (e.toOption.get h) := by
  cases e with
  | error fault => simp [Except.toOption] at h
  | ok a => rfl

theorem starts_disk (files : List (String × String)) : Starts options .none (disk files)
    ((Session.start (disk files) options .none).toOption.get (isSome_start_disk files)) where
  start := eq_ok_get (isSome_start_disk files)
  isAbsolute d hd := by
    obtain rfl := Except.ok.inj hd
    exact (FileTree.Memory.isTidy_ofFiles none _).workingDirectory
  paths := rfl
  transforms := Pipeline.isPure_empty

/-- One file imports another, and a third one stands alone. -/
def before : FileSystem := disk [("/a.mcss", "@import 'b'"), ("/b.mcss", ""), ("/c.mcss", "")]

theorem isSome_start : (Session.start before options .none).toOption.isSome = true :=
  isSome_start_disk _

def start : Session := (Session.start before options .none).toOption.get isSome_start

theorem starts : Starts options .none before start := starts_disk _

theorem admits_before : start.compiler.Admits before.files before :=
  Compiler.admits_of_files starts.isRegular (isKeyed_disk _) (by decide +kernel) (fun _ ↦ 0)
    (by decide +kernel)

end Sample

/-- When `b` is evicted from the small project, `c` stays, which was not made from `b`. -/
theorem not_madeFrom_after_evict_sample : ∃ s origin m,
    Reached (Sample.start.compiler.Admits Sample.before.files) Sample.start s origin ∧
      s.isTracked ⟨"a.mcss"⟩ = true ∧
      (s.evict ⟨"b.mcss"⟩).2.store.modules.get? (s.absolute ⟨"c.mcss"⟩) = some m ∧
      ¬ s.compiler.MadeFrom origin (s.absolute ⟨"b.mcss"⟩) (s.absolute ⟨"c.mcss"⟩) := by
  have hstart := Sample.starts
  have hfirst := Reached.event (.start : Reached _ Sample.start _ _)
    (hstart.fs_eq ▸ Sample.admits_before) ⟨.init, ⟨"a.mcss"⟩⟩
  have hsecond := hfirst.event (by
    rw [(sameSetup_handle _ _).fs, hstart.fs_eq]
    exact Sample.admits_before) ⟨.init, ⟨"c.mcss"⟩⟩
  obtain ⟨htracked, hkept⟩ :
      ((Sample.start.handle ⟨.init, ⟨"a.mcss"⟩⟩).1.handle ⟨.init, ⟨"c.mcss"⟩⟩).1.isTracked
        ⟨"a.mcss"⟩ = true ∧
      ((((Sample.start.handle ⟨.init, ⟨"a.mcss"⟩⟩).1.handle ⟨.init, ⟨"c.mcss"⟩⟩).1.evict
        ⟨"b.mcss"⟩).2.store.modules.get? ⟨"/c.mcss"⟩).isSome = true := by
    decide +kernel
  obtain ⟨m, hm⟩ := Option.isSome_iff_exists.1 hkept
  exact ⟨_, _, m, hsecond, htracked, hm,
    (not_madeFrom_after_evict hstart (by decide +kernel) hsecond ⟨"b.mcss"⟩ ⟨"c.mcss"⟩ m hm).2⟩

end Session

end StyleModules
