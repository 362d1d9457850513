import Mathlib.Data.Fintype.EquivFin
import Mathlib.Data.Fintype.Sets
import StyleModules.Proofs.Provenance

/-!
# Settled stores

A store is settled on a disk if it tracks exactly the files of the project, each compiled on that
disk, and its graph has the edges of these files and no others.  The disk alone decides what is in
such a store and what its bundle looks like, however the store came about.
-/

namespace StyleModules

open Relation ModuleStore

/-! ## Edges -/

namespace ModuleStore

/-- The edges of the graph are those of the tracked files on their origins. -/
structure Linked (c : Compiler) (origin : Path → FileSystem) (s : ModuleStore) : Prop where
  tracked : ∀ p : Path, p.IsPlace → s.isTracked p = true →
    ∀ q ∈ s.graph.edges p, c.ComposesFrom (origin p) p q
  untracked : ∀ p : Path, p.IsPlace → s.isTracked p = false → s.graph.edges p = []

variable {c : Compiler} {origin origin' : Path → FileSystem} {fs : FileSystem} {s s' : ModuleStore}

theorem linked_empty (c : Compiler) (origin : Path → FileSystem) : Linked c origin empty :=
  ⟨fun p _ h ↦ by simp [isTracked_eq, empty] at h, fun p _ _ ↦ ModuleGraph.edges_empty p⟩

theorem Linked.congr (h : Linked c origin s)
    (heq : ∀ p : Path, p.IsPlace → s.isTracked p = true → origin' p = origin p) :
    Linked c origin' s :=
  ⟨fun p hp htracked q hq ↦ heq p hp htracked ▸ h.tracked p hp htracked q hq, h.untracked⟩

theorem Linked.alike (h : Linked c origin s) (halike : s.Alike s') : Linked c origin s' := by
  have htracked : ∀ p, s'.isTracked p = s.isTracked p := fun p ↦ by
    rw [isTracked_eq, isTracked_eq, halike.modules]
  exact ⟨fun p hp hpTracked q hq ↦ h.tracked p hp (htracked p ▸ hpTracked) q (halike.graph ▸ hq),
    fun p hp hpUntracked ↦ halike.graph ▸ h.untracked p hp (htracked p ▸ hpUntracked)⟩

/-- Where no file fails in the end, no step leaves edges of a file behind that is not tracked. -/
theorem Linked.step (hc : c.IsRegular) (hfs : c.Suits fs) {A : Path → Prop}
    (hassemble : ∀ p b, A p → c.blueprint fs p = .ok b → ∀ known, ∃ m, c.assemble p b known = .ok m)
    (hstep : Step c fs A s s') (hs : s.IsTidy)
    (horigin : ∀ p : Path, p.IsPlace → s.isTracked p = false → origin p = fs)
    (h : Linked c origin s) : Linked c origin s' := by
  cases hstep with
  | attempt => exact ⟨h.tracked, h.untracked⟩
  | @finish file journal b qs modules isPlace allowed untracked blueprint targets exist started
      recorded imports assembled =>
    rcases assembled with ⟨fault, herror, rfl⟩ | ⟨m, hm, rfl⟩
    · obtain ⟨m, hm⟩ := hassemble file b allowed blueprint s.composition?
      rw [herror] at hm
      simp at hm
    · have hplaces : ∀ q ∈ qs, q.IsPlace := fun q hq ↦
        Compiler.isPlace_targets hc hfs isPlace blueprint ((targets q).1 hq) (exist q hq)
      have hsame : ∀ p : Path, p.IsPlace → p ≠ file →
          isTracked ⟨s.graph.addAll file qs, s.modules.insert file m, journal⟩ p =
            s.isTracked p := fun p hp hne ↦ by
        rw [isTracked_eq, PathMap.get?_insert_of_ne fun heq ↦ hne (hp.eq_of_components isPlace heq),
          ← isTracked_eq]
      refine ⟨fun p hp hpTracked q hq ↦ ?_, fun p hp hpUntracked ↦ ?_⟩
      · rw [ModuleGraph.mem_edges_addAll hs.graph isPlace hplaces hp] at hq
        by_cases hpFile : p = file
        · subst hpFile
          rw [h.untracked p hp untracked] at hq
          rw [horigin p hp untracked]
          have hqs := hq.resolve_left List.not_mem_nil
          exact ⟨b, blueprint, (targets q).1 hqs.2⟩
        · rw [hsame p hp hpFile] at hpTracked
          exact h.tracked p hp hpTracked q (hq.resolve_right fun hnew ↦ hpFile hnew.1)
      · have hpFile : p ≠ file := by
          rintro rfl
          rw [isTracked_eq, hs.modules.get?_insert_self] at hpUntracked
          simp at hpUntracked
        rw [hsame p hp hpFile] at hpUntracked
        change (s.graph.addAll file qs).edges p = []
        rw [ModuleGraph.edges_addAll_of_ne hs.graph isPlace hplaces hp hpFile]
        exact h.untracked p hp hpUntracked

theorem Linked.steps (hc : c.IsRegular) (hfs : c.Suits fs) {A : Path → Prop}
    (hassemble : ∀ p b, A p → c.blueprint fs p = .ok b → ∀ known, ∃ m, c.assemble p b known = .ok m)
    (hsteps : Steps c fs A s s') (hs : s.IsTidy)
    (horigin : ∀ p : Path, p.IsPlace → s.isTracked p = false → origin p = fs)
    (h : Linked c origin s) : Linked c origin s' := by
  refine (hsteps.preserves hc hfs (P := fun s' ↦ Linked c origin s' ∧
    ∀ p : Path, p.IsPlace → s'.isTracked p = false → origin p = fs) ?_ hs ⟨h, horigin⟩).2.1
  rintro s₁ s₂ hs₁ ⟨hlinked, horigin₁⟩ hstep
  refine ⟨hlinked.step hc hfs hassemble hstep hs₁ horigin₁, fun p hp hpUntracked ↦ ?_⟩
  refine horigin₁ p hp (Bool.eq_false_iff.2 fun hpTracked ↦ ?_)
  rw [hstep.isTracked hp hpTracked] at hpUntracked
  simp at hpUntracked

theorem Linked.evicted {tree : List Path} (h : Linked c origin s) (hevicted : Evicted s tree s') :
    Linked c origin s' := by
  refine ⟨fun p hp hpTracked q hq ↦ ?_, fun p hp hpUntracked ↦ ?_⟩
  · obtain ⟨hpTracked, hpTree⟩ := (hevicted.isTracked_iff hp).1 hpTracked
    rw [hevicted.edges p hp, if_neg fun hmem ↦ hpTree hmem.1] at hq
    exact h.tracked p hp hpTracked q hq
  · rw [hevicted.edges p hp]
    split
    next => rfl
    next hkept =>
      refine h.untracked p hp (Bool.eq_false_iff.2 fun hpTracked ↦ ?_)
      refine absurd hpUntracked (Bool.not_eq_false _ ▸ (hevicted.isTracked_iff hp).2
        ⟨hpTracked, fun hpTree ↦ hkept ⟨hpTree, hpTracked⟩⟩)

/-- Handling an event keeps the edges right where no file that is touched fails in the end. -/
theorem linked_handle {s : Session} (hc : s.compiler.IsRegular) (hfs : s.compiler.Suits s.fs)
    (hs : s.store.IsTidy) {A : Path → Prop}
    (hassemble : ∀ p b, A p → s.compiler.blueprint s.fs p = .ok b →
      ∀ known, ∃ m, s.compiler.assemble p b known = .ok m)
    (hA : s.compiler.Passes s.fs A) (e : FileEvent)
    (hfile : ∀ p ∈ s.evictedWith e.file, A p) (h : Linked s.compiler origin s.store) :
    Linked s.compiler (s.originsAfter e origin) (s.handle e).1.store := by
  have hevicted := Session.evicted_kept hc.root hs e
  have hkept : Linked s.compiler (s.originsAfter e origin) (s.kept e).store :=
    (h.evicted hevicted).congr fun p _ htracked ↦ by rw [Session.originsAfter, if_pos htracked]
  refine hkept.steps hc hfs hassemble (Session.steps_handle hc hfs hs hA e hfile) hevicted.isTidy
    fun p _ huntracked ↦ ?_
  rw [Session.originsAfter, if_neg (by simp [huntracked])]

/-- A disk that holds the same sources compiles a tracked file in the same way. -/
theorem Sound.blueprint_eq {p : Path} {b : Blueprint} (h : Sound c origin s) (hp : p.IsPlace)
    (htracked : s.isTracked p = true) (hb : c.blueprint fs p = .ok b)
    (hsame : ∀ g ∈ c.sources (origin p) p, (origin p).SameAt fs g) :
    c.blueprint (origin p) p = .ok b ∧ c.sources fs p = c.sources (origin p) p := by
  obtain ⟨m, hm⟩ := isTracked_iff.1 htracked
  obtain ⟨b', hb', -⟩ := h.made p m hp hm
  obtain rfl := Compiler.blueprint_congr hb' hb hsame
  obtain ⟨x, hx⟩ := Compiler.load_of_blueprint hb'
  obtain ⟨y, hy⟩ := Compiler.load_of_blueprint hb
  exact ⟨hb', Compiler.sources_congr hx hy hsame⟩

section Rebase

variable (hfs : c.Suits fs)
  (hcompiles : ∀ p : Path, p.IsPlace → s.isTracked p = true → ∃ b, c.blueprint fs p = .ok b)
  (hsame : ∀ p : Path, p.IsPlace → s.isTracked p = true →
    ∀ g ∈ c.sources (origin p) p, (origin p).SameAt fs g)

include hfs hcompiles hsame

/-- If a disk holds the same sources, then the tracked modules might as well come from there. -/
theorem Sound.rebase (h : Sound c origin s) : Sound c (fun _ ↦ fs) s := by
  refine ⟨fun _ _ _ ↦ hfs, fun p m hp hm ↦ ?_, fun p hp htracked g hg ↦ ?_⟩
  · have htracked := isTracked_iff.2 ⟨m, hm⟩
    obtain ⟨b, hb⟩ := hcompiles p hp htracked
    obtain ⟨b', hb', hmade⟩ := h.made p m hp hm
    have heq := (h.blueprint_eq hp htracked hb (hsame p hp htracked)).1
    obtain rfl := Except.ok.inj (heq.symm.trans hb')
    exact ⟨b, hb, hmade⟩
  · obtain ⟨b, hb⟩ := hcompiles p hp htracked
    rw [(h.blueprint_eq hp htracked hb (hsame p hp htracked)).2] at hg
    exact h.leads p hp htracked g hg

omit hfs in
theorem Linked.rebase (h : Linked c origin s) (hsound : Sound c origin s) :
    Linked c (fun _ ↦ fs) s := by
  refine ⟨fun p hp htracked q hq ↦ ?_, h.untracked⟩
  obtain ⟨b, hb⟩ := hcompiles p hp htracked
  obtain ⟨b', hb', hqTarget⟩ := h.tracked p hp htracked q hq
  have heq := (hsound.blueprint_eq hp htracked hb (hsame p hp htracked)).1
  obtain rfl := Except.ok.inj (heq.symm.trans hb')
  exact ⟨b, hb, hqTarget⟩

end Rebase

/-! ## Settled stores agree -/

/-- The store tracks the files of a kind that exist, compiled on one disk, and nothing else. -/
structure Settled (c : Compiler) (fs : FileSystem) (B : Path → Prop) (s : ModuleStore) : Prop where
  isTidy : s.IsTidy
  sound : Sound c (fun _ ↦ fs) s
  linked : Linked c (fun _ ↦ fs) s
  tracked : ∀ p : Path, p.IsPlace → (s.isTracked p = true ↔ B p ∧ fs.isFile p = true)

end ModuleStore

/-- Files that do not compose in circles can be taken in the order in which they are composed. -/
theorem Compiler.IsAcyclic.wellFounded {c : Compiler} {fs : FileSystem} (h : c.IsAcyclic fs)
    (known : List Path) :
    WellFounded fun q p : { p : Path // p ∈ known.filter Path.IsPlace } ↦
      c.ComposesFrom fs p q := by
  let r := fun q p : { p : Path // p ∈ known.filter Path.IsPlace } ↦
    TransGen (c.ComposesFrom fs) p.1 q.1
  have htrans : IsTrans _ r := ⟨fun _ _ _ hab hbc ↦ hbc.trans hab⟩
  have hirrefl : Std.Irrefl r := ⟨fun p hp ↦ h p (of_decide_eq_true (List.mem_filter.1 p.2).2) hp⟩
  have hwf : WellFounded r := Finite.wellFounded_of_trans_of_irrefl r
  exact Subrelation.wf (fun hpq ↦ TransGen.single hpq) hwf

namespace ModuleStore

variable {c : Compiler} {fs : FileSystem} {B : Path → Prop} {s s' : ModuleStore}

/-- The disk decides what the module of a file is that two stores track. -/
theorem Sound.get?_eq (hacyclic : c.IsAcyclic fs) {known : List Path} (hs : s.IsTidy)
    (hknown : ∀ p : Path, p.IsPlace → s.isTracked p = true → p ∈ known)
    (h : Sound c (fun _ ↦ fs) s) (h' : Sound c (fun _ ↦ fs) s') {p : Path} (hp : p.IsPlace)
    (htracked : s.isTracked p = true) (htracked' : s'.isTracked p = true) :
    s.modules.get? p = s'.modules.get? p := by
  let Known := { p : Path // p ∈ known.filter Path.IsPlace }
  have hmem : ∀ {p : Path}, p.IsPlace → s.isTracked p = true → p ∈ known.filter Path.IsPlace :=
    fun hp htracked ↦ List.mem_filter.2 ⟨hknown _ hp htracked, decide_eq_true hp⟩
  have hall : ∀ p : Known, s.isTracked p.1 = true → s'.isTracked p.1 = true →
      s.modules.get? p.1 = s'.modules.get? p.1 := by
    intro p
    induction p using (hacyclic.wellFounded known).induction with
    | _ p ih =>
      intro htracked htracked'
      have hpPlace : p.1.IsPlace := of_decide_eq_true (List.mem_filter.1 p.2).2
      obtain ⟨m, hm⟩ := isTracked_iff.1 htracked
      obtain ⟨m', hm'⟩ := isTracked_iff.1 htracked'
      obtain ⟨b, hb, hassemble, htargets⟩ := h.made p.1 m hpPlace hm
      obtain ⟨b', hb', hassemble', htargets'⟩ := h'.made p.1 m' hpPlace hm'
      obtain rfl := Except.ok.inj (hb.symm.trans hb')
      -- Both modules are assembled with the same compositions.
      have hsame : c.assemble p.1 b s.composition? = c.assemble p.1 b s'.composition? := by
        refine Compiler.assemble_congr fun q hq ↦ ?_
        obtain ⟨hedge, hqTracked⟩ := htargets q hq
        have hqPlace := hs.graph.isPlace p.1 q hedge
        rw [composition?_eq, composition?_eq,
          ih ⟨q, hmem hqPlace hqTracked⟩ ⟨b, hb, hq⟩ hqTracked (htargets' q hq).2]
      rw [hassemble, hassemble'] at hsame
      rw [hm, hm', Except.ok.inj hsame]
  exact hall ⟨p, hmem hp htracked⟩ htracked htracked'

/-- The disk decides which modules a settled store has. -/
theorem Settled.get?_eq (hacyclic : c.IsAcyclic fs) {known : List Path}
    (hknown : ∀ p, B p → p ∈ known) (h : Settled c fs B s) (h' : Settled c fs B s') (p : Path)
    (hp : p.IsPlace) : s.modules.get? p = s'.modules.get? p := by
  have hsame : s.isTracked p = s'.isTracked p := by
    rw [Bool.eq_iff_iff, h.tracked p hp, h'.tracked p hp]
  cases htracked : s.isTracked p with
  | true =>
    exact h.sound.get?_eq hacyclic h.isTidy (fun q hq hqTracked ↦
      hknown q ((h.tracked q hq).1 hqTracked).1) h'.sound hp htracked (hsame ▸ htracked)
  | false =>
    have htracked' := hsame ▸ htracked
    rw [isTracked_eq, Option.isSome_eq_false_iff, Option.isNone_iff_eq_none] at htracked htracked'
    rw [htracked, htracked']

theorem Settled.mem_edges_iff (h : Settled c fs B s) {p q : Path} (hp : p.IsPlace) :
    q ∈ s.graph.edges p ↔ s.isTracked p = true ∧ c.ComposesFrom fs p q := by
  constructor
  · intro hq
    cases htracked : s.isTracked p with
    | true => exact ⟨rfl, h.linked.tracked p hp htracked q hq⟩
    | false => simp [h.linked.untracked p hp htracked] at hq
  · rintro ⟨htracked, b, hb, hq⟩
    obtain ⟨m, hm⟩ := isTracked_iff.1 htracked
    obtain ⟨b', hb', -, htargets⟩ := h.sound.made p m hp hm
    obtain rfl := Except.ok.inj (hb.symm.trans hb')
    exact (htargets q hq).1

theorem Settled.dependencies_eq (h : Settled c fs B s) (h' : Settled c fs B s') {p : Path}
    (hp : p.IsPlace) : s.graph.dependencies p = s'.graph.dependencies p := by
  refine ModuleGraph.dependencies_congr h.isTidy.graph h'.isTidy.graph fun q ↦ ?_
  have hsame : s.isTracked p = s'.isTracked p := by
    rw [Bool.eq_iff_iff, h.tracked p hp, h'.tracked p hp]
  rw [h.mem_edges_iff hp, h'.mem_edges_iff hp, hsame]

/-- The modules and the dependencies decide in which order a bundle is visited. -/
theorem visit_congr (hs : s.IsTidy) (hmodules : s.modules = s'.modules)
    (hdependencies : ∀ p : Path, p.IsPlace → s.graph.dependencies p = s'.graph.dependencies p)
    (limit : Nat) {file : Path} (hfile : file.IsPlace) (done : List Path × List Path) :
    visit s limit file done = visit s' limit file done := by
  induction limit generalizing file done with
  | zero => rfl
  | succ limit ih =>
    obtain ⟨visited, order⟩ := done
    have htracked : s.isTracked = s'.isTracked := by
      funext p
      rw [isTracked_eq, isTracked_eq, hmodules]
    have hplaces : ∀ d ∈ (s'.graph.dependencies file).filter s'.isTracked, d.IsPlace := by
      intro d hd
      rw [← hdependencies file hfile, List.mem_filter, ModuleGraph.dependencies_eq,
        Path.mem_sort] at hd
      exact hs.graph.isPlace file d hd.1
    have hfold : ∀ (ds : List Path) (done : List Path × List Path), (∀ d ∈ ds, d.IsPlace) →
        ds.foldl (fun done d ↦ visit s limit d done) done =
          ds.foldl (fun done d ↦ visit s' limit d done) done := by
      intro ds
      induction ds with
      | nil => exact fun _ _ ↦ rfl
      | cons d ds ihds =>
        intro done hds
        obtain ⟨hd, hrest⟩ := List.forall_mem_cons.1 hds
        rw [List.foldl_cons, List.foldl_cons, ih hd, ihds _ hrest]
    unfold visit
    rw [hdependencies file hfile, htracked]
    simp only [hfold _ _ hplaces]

theorem bundleOrder_congr (hs : s.IsTidy) (hmodules : s.modules = s'.modules)
    (hdependencies : ∀ p : Path, p.IsPlace → s.graph.dependencies p = s'.graph.dependencies p) :
    s.bundleOrder = s'.bundleOrder := by
  have hfold : ∀ (ps : List Path) (limit : Nat) (done : List Path × List Path),
      (∀ p ∈ ps, p.IsPlace) →
      ps.foldl (fun done p ↦ visit s limit p done) done =
        ps.foldl (fun done p ↦ visit s' limit p done) done := by
    intro ps limit
    induction ps with
    | nil => exact fun _ _ ↦ rfl
    | cons p ps ih =>
      intro done hps
      obtain ⟨hp, hrest⟩ := List.forall_mem_cons.1 hps
      rw [List.foldl_cons, List.foldl_cons,
        visit_congr hs hmodules hdependencies limit hp, ih _ hrest]
  unfold bundleOrder
  rw [hfold _ _ _ hs.modules.isPlace, hmodules]

theorem output_congr (hc : c.IsRegular) (hs : s.IsTidy) (hmodules : s.modules = s'.modules)
    (hdependencies : ∀ p : Path, p.IsPlace → s.graph.dependencies p = s'.graph.dependencies p)
    (place : Path) : (s.output c place).2 = (s'.output c place).2 := by
  have hchunks : s.bundleChunks = s'.bundleChunks := by
    unfold bundleChunks
    rw [bundleOrder_congr hs hmodules hdependencies, hmodules]
  have hdetermined := Transform.isDetermined_runAll fun t ht ↦ (hc.done t ht).toIsDetermined
  have hstart : Job.Alike (Job.start s.journal ⟨place, s.bundleChunks⟩)
      (Job.start s'.journal ⟨place, s'.bundleChunks⟩) := by
    rw [hchunks]
    exact ⟨rfl, rfl⟩
  have halike := hdetermined.alike hstart
  have hfault := hdetermined.fault hstart
  unfold output Pipeline.run Pipeline.stage
  rcases hj : Transform.runAll c.pipeline.done (Job.start s.journal ⟨place, s.bundleChunks⟩)
    with ⟨j, _ | f⟩ <;>
  rcases hk : Transform.runAll c.pipeline.done (Job.start s'.journal ⟨place, s'.bundleChunks⟩)
    with ⟨k, _ | f'⟩ <;>
  simp only [hj, hk, reduceCtorEq, Option.some.injEq] at halike hfault ⊢
  · rw [halike.stylesheet, hmodules]
  · rw [hfault]

/-- The disk decides what the bundle of a settled store is. -/
theorem Settled.output_eq (hc : c.IsRegular) (hacyclic : c.IsAcyclic fs) {known : List Path}
    (hknown : ∀ p, B p → p ∈ known) (h : Settled c fs B s) (h' : Settled c fs B s')
    (place : Path) : (s.output c place).2 = (s'.output c place).2 :=
  output_congr hc h.isTidy (h.isTidy.modules.ext h'.isTidy.modules
    (h.get?_eq hacyclic hknown h')) (fun _ hp ↦ h.dependencies_eq h' hp) place

end ModuleStore

end StyleModules
