import StyleModules.Proofs.Compilation

/-!
# Tracking

Tracking a file is a chain of small steps: an attempt at a file writes its imports into the
ledger, and a file is finished when all files it composes from are there.  What a step keeps is
kept by the whole run, however deep the recursion and whether or not it fails in the end.
-/

namespace StyleModules

open Relation ModuleStore

namespace ModuleGraph

def addAll (g : ModuleGraph) (p : Path) (qs : List Path) : ModuleGraph :=
  qs.foldl (fun g q ↦ g.add p q) g

variable {g : ModuleGraph} {p : Path} {qs : List Path}

theorem IsTidy.addAll (h : g.IsTidy) (hp : p.IsPlace) (hqs : ∀ q ∈ qs, q.IsPlace) :
    (g.addAll p qs).IsTidy := by
  induction qs generalizing g with
  | nil => exact h
  | cons q qs ih =>
    obtain ⟨hq, hrest⟩ := List.forall_mem_cons.1 hqs
    exact ih (h.add hp hq) hrest

theorem mem_edges_addAll (h : g.IsTidy) (hp : p.IsPlace) (hqs : ∀ q ∈ qs, q.IsPlace) {x y : Path}
    (hx : x.IsPlace) : y ∈ (g.addAll p qs).edges x ↔ y ∈ g.edges x ∨ (x = p ∧ y ∈ qs) := by
  induction qs generalizing g with
  | nil => simp [ModuleGraph.addAll]
  | cons q qs ih =>
    obtain ⟨hq, hrest⟩ := List.forall_mem_cons.1 hqs
    refine (ih (h.add hp hq) hrest).trans ?_
    rw [mem_edges_add h hp hq hx, List.mem_cons]
    tauto

theorem edges_addAll_of_ne (h : g.IsTidy) (hp : p.IsPlace) (hqs : ∀ q ∈ qs, q.IsPlace) {x : Path}
    (hx : x.IsPlace) (hne : x ≠ p) : (g.addAll p qs).edges x = g.edges x := by
  induction qs generalizing g with
  | nil => rfl
  | cons q qs ih =>
    obtain ⟨hq, hrest⟩ := List.forall_mem_cons.1 hqs
    exact (ih (h.add hp hq) hrest).trans (edges_add_of_ne h hp hx hne)

end ModuleGraph

/-! ## Composing from -/

namespace Compiler

variable (c : Compiler) (fs : FileSystem)

def ComposesFrom (p q : Path) : Prop := ∃ b, c.blueprint fs p = .ok b ∧ q ∈ c.targets p b

/-- What is asked of the files that are compiled: the root directory is no file, and a file that is
composed from is found by the resolver. -/
structure Suits : Prop where
  root : fs.isFile ⟨"/"⟩ = false
  resolves : ∀ p b, p.IsPlace → c.blueprint fs p = .ok b → ∀ r ∈ references b.composes,
    fs.isFile (c.target p r) = true → (c.resolver.absolute r p (.stylesheet false)).isSome = true

/-- No file composes from itself, not even through others. -/
def IsAcyclic : Prop := ∀ p : Path, p.IsPlace → ¬ TransGen (c.ComposesFrom fs) p p

/-- What holds of a file holds of the existing files that it composes from. -/
abbrev Passes (A : Path → Prop) : Prop :=
  ∀ ⦃p q⦄, A p → c.ComposesFrom fs p q → fs.isFile q = true → A q

/-- Nothing in the file itself keeps it from being compiled, and all files it composes from
exist. -/
def Compiles (p : Path) : Prop :=
  ∃ b, c.blueprint fs p = .ok b ∧ (∀ q ∈ c.targets p b, fs.isFile q = true) ∧
    ∀ known, ∃ m, c.assemble p b known = .ok m

/-- The file and all files it composes from compile. -/
def Accepts (p : Path) : Prop := ∀ q, ReflTransGen (c.ComposesFrom fs) p q → c.Compiles fs q

variable {c fs} {p q : Path}

theorem isPlace_targets (hc : c.IsRegular) (hfs : c.Suits fs) (hp : p.IsPlace) {b : Blueprint}
    (hb : c.blueprint fs p = .ok b) (hq : q ∈ c.targets p b) (hexists : fs.isFile q = true) :
    q.IsPlace := by
  obtain ⟨r, hr, rfl⟩ := List.mem_map.1 hq
  obtain ⟨t, ht⟩ := Option.isSome_iff_exists.1 (hfs.resolves p b hp hb r hr hexists)
  rw [target, ht]
  exact hc.resolver.isPlace hp ht

theorem ComposesFrom.isPlace (hc : c.IsRegular) (hfs : c.Suits fs) (hp : p.IsPlace)
    (h : c.ComposesFrom fs p q) (hexists : fs.isFile q = true) : q.IsPlace := by
  obtain ⟨b, hb, hq⟩ := h
  exact isPlace_targets hc hfs hp hb hq hexists

theorem ComposesFrom.isFile (h : c.ComposesFrom fs p q) : fs.isFile p = true := by
  obtain ⟨b, hb, -⟩ := h
  exact isFile_of_blueprint hb

theorem compiles_of_assemble {file : Path} {b : Blueprint} (hb : c.blueprint fs file = .ok b)
    (hexist : ∀ q ∈ c.targets file b, fs.isFile q = true) {known : Path → Option Composition}
    {m : Module} (hm : c.assemble file b known = .ok m) : c.Compiles fs file := by
  refine ⟨b, hb, hexist, fun known' ↦ ?_⟩
  have hsame := c.assemble_outcome file b known known'
  rw [hm] at hsame
  cases hknown : c.assemble file b known' with
  | error fault => simp [hknown, Except.map] at hsame
  | ok m' => exact ⟨m', rfl⟩

theorem Compiles.isFile {p q : Path} (h : c.Compiles fs p) (hq : c.ComposesFrom fs p q) :
    fs.isFile q = true := by
  obtain ⟨b, hb, hexist, -⟩ := h
  obtain ⟨b', hb', hmem⟩ := hq
  obtain rfl := Except.ok.inj (hb.symm.trans hb')
  exact hexist q hmem

/-- Files cannot compose in circles if each one stands above those it composes from. -/
theorem isAcyclic_of_rank (hc : c.IsRegular) (hfs : c.Suits fs) (rank : Path → Nat)
    (hrank : ∀ p q : Path, p.IsPlace → c.ComposesFrom fs p q → rank q < rank p) :
    c.IsAcyclic fs := by
  have hdown : ∀ {p q : Path}, TransGen (c.ComposesFrom fs) p q → p.IsPlace →
      rank q < rank p := by
    intro p q hpq
    induction hpq using TransGen.head_induction_on with
    | single h => exact fun hp ↦ hrank _ _ hp h
    | head h hrest ih =>
      obtain ⟨x, hx, -⟩ := TransGen.head'_iff.1 hrest
      exact fun hp ↦ Nat.lt_trans (ih (h.isPlace hc hfs hp hx.isFile)) (hrank _ _ hp h)
  exact fun p hp hcycle ↦ Nat.lt_irrefl _ (hdown hcycle hp)

theorem isPlace_absolute_of_root (hroot : c.root.isAbsolute = true) (p : Path) :
    (c.absolute p).IsPlace :=
  Path.isPlace_normalize (Path.isAbsolute_join hroot)

theorem isPlace_absolute (hc : c.IsRegular) (p : Path) : (c.absolute p).IsPlace :=
  isPlace_absolute_of_root hc.root p

theorem absolute_eq (hp : p.IsPlace) : c.absolute p = p := by
  rw [absolute, Path.join_of_isAbsolute hp.isAbsolute, hp.normalize_eq]

theorem isPlace_imports_of_root (hresolver : c.resolver.IsNamespaced)
    (hroot : fs.isFile ⟨"/"⟩ = false) (hp : p.IsPlace) :
    ∀ m ∈ c.imports fs p, m.file.IsPlace ∧ m.parent.IsPlace := by
  intro m hm
  obtain ⟨hfile, hparent⟩ := mem_sources_of_mem_imports hm
  exact ⟨isPlace_of_mem_sources hresolver hroot hp hfile,
    isPlace_of_mem_sources hresolver hroot hp hparent⟩

theorem isPlace_imports (hc : c.IsRegular) (hfs : c.Suits fs) (hp : p.IsPlace) :
    ∀ m ∈ c.imports fs p, m.file.IsPlace ∧ m.parent.IsPlace :=
  isPlace_imports_of_root hc.resolver hfs.root hp

end Compiler

/-! ## Steps -/

namespace ModuleStore

/-- All paths that the store knows are places. -/
structure IsTidy (s : ModuleStore) : Prop where
  modules : s.modules.IsTidy
  graph : s.graph.IsTidy
  imports : s.journal.imports.IsTidy

theorem isTidy_empty : empty.IsTidy :=
  ⟨PathMap.isTidy_empty, ModuleGraph.isTidy_empty, ImportLedger.isTidy_empty⟩

theorem isTracked_eq (s : ModuleStore) (p : Path) : s.isTracked p = (s.modules.get? p).isSome :=
  PathMap.contains_eq s.modules p

theorem isTracked_congr {p q : Path} (h : p.Same q) (s : ModuleStore) :
    s.isTracked p = s.isTracked q := by
  rw [isTracked_eq, isTracked_eq, PathMap.get?_congr h]

/-- A single step of tracking, for one of the files that `A` allows. -/
inductive Step (c : Compiler) (fs : FileSystem) (A : Path → Prop) :
    ModuleStore → ModuleStore → Prop
  /-- The imports of a file are recorded. -/
  | attempt {s : ModuleStore} {file : Path} {journal : Journal} (isPlace : file.IsPlace)
      (allowed : A file)
      (imports : journal.imports = s.journal.imports.recordAll (c.imports fs file)) :
      Step c fs A s { s with journal := journal }
  /-- The edges of a file are added, and its module unless a transform fails. -/
  | finish {s : ModuleStore} {file : Path} {journal : Journal} {b : Blueprint} {qs : List Path}
      {modules : PathMap Module} (isPlace : file.IsPlace) (allowed : A file)
      (untracked : s.isTracked file = false) (blueprint : c.blueprint fs file = .ok b)
      (targets : ∀ q, q ∈ qs ↔ q ∈ c.targets file b)
      (exist : ∀ q ∈ qs, fs.isFile q = true)
      (started : ∀ q ∈ qs, s.isTracked q = true ∨ ReflTransGen (c.ComposesFrom fs) q file)
      (recorded : ∀ m ∈ c.imports fs file, m.parent ∈ s.journal.imports.parents m.file)
      (imports : journal.imports = s.journal.imports)
      (assembled : (∃ fault, c.assemble file b s.composition? = .error fault ∧
          modules = s.modules) ∨
        ∃ m, c.assemble file b s.composition? = .ok m ∧ modules = s.modules.insert file m) :
      Step c fs A s ⟨s.graph.addAll file qs, modules, journal⟩

abbrev Steps (c : Compiler) (fs : FileSystem) (A : Path → Prop) :
    ModuleStore → ModuleStore → Prop :=
  ReflTransGen (Step c fs A)

section Steps

variable {c : Compiler} {fs : FileSystem} {A : Path → Prop} {s s' : ModuleStore} {p q : Path}

theorem Step.isTidy (hc : c.IsRegular) (hfs : c.Suits fs) (h : Step c fs A s s') (hs : s.IsTidy) :
    s'.IsTidy := by
  cases h with
  | attempt isPlace allowed imports =>
    refine ⟨hs.modules, hs.graph, ?_⟩
    rw [imports]
    exact hs.imports.recordAll (Compiler.isPlace_imports hc hfs isPlace)
  | finish isPlace allowed untracked blueprint targets exist started recorded imports assembled =>
    refine ⟨?_, ?_, ?_⟩
    · rcases assembled with ⟨fault, -, rfl⟩ | ⟨m, -, rfl⟩
      · exact hs.modules
      · exact hs.modules.insert isPlace m
    · exact hs.graph.addAll isPlace fun q hq ↦
        Compiler.isPlace_targets hc hfs isPlace blueprint ((targets q).1 hq) (exist q hq)
    · rw [imports]
      exact hs.imports

/-- A step adds modules and changes none. -/
theorem Step.get?_eq (h : Step c fs A s s') (hp : p.IsPlace) (hpTracked : s.isTracked p = true) :
    s'.modules.get? p = s.modules.get? p := by
  cases h with
  | attempt => rfl
  | finish isPlace allowed untracked blueprint targets exist started recorded imports assembled =>
    rcases assembled with ⟨fault, -, rfl⟩ | ⟨m, -, rfl⟩
    · rfl
    · refine PathMap.get?_insert_of_ne (fun heq ↦ ?_) s.modules m
      obtain rfl := hp.eq_of_components isPlace heq
      rw [untracked] at hpTracked
      simp at hpTracked

theorem Step.isTracked (h : Step c fs A s s') (hp : p.IsPlace) (hpTracked : s.isTracked p = true) :
    s'.isTracked p = true := by
  rw [isTracked_eq, h.get?_eq hp hpTracked, ← isTracked_eq, hpTracked]

theorem Step.edges_eq (hc : c.IsRegular) (hfs : c.Suits fs) (h : Step c fs A s s') (hs : s.IsTidy)
    (hp : p.IsPlace) (hpTracked : s.isTracked p = true) : s'.graph.edges p = s.graph.edges p := by
  cases h with
  | attempt => rfl
  | finish isPlace allowed untracked blueprint targets exist started recorded imports assembled =>
    refine ModuleGraph.edges_addAll_of_ne hs.graph isPlace (fun q hq ↦
      Compiler.isPlace_targets hc hfs isPlace blueprint ((targets q).1 hq) (exist q hq)) hp ?_
    rintro rfl
    rw [untracked] at hpTracked
    simp at hpTracked

theorem Step.parents_mono (hc : c.IsRegular) (hfs : c.Suits fs) (h : Step c fs A s s')
    (hs : s.IsTidy) (hq : q ∈ s.journal.imports.parents p) :
    q ∈ s'.journal.imports.parents p := by
  cases h with
  | attempt isPlace allowed imports =>
    rw [imports]
    exact ImportLedger.mem_parents_recordAll_of_mem hs.imports
      (Compiler.isPlace_imports hc hfs isPlace) hq
  | finish isPlace allowed untracked blueprint targets exist started recorded imports assembled =>
    rwa [imports]

/-- What every step keeps is kept by a chain of steps. -/
theorem Steps.preserves (hc : c.IsRegular) (hfs : c.Suits fs) {P : ModuleStore → Prop}
    (hstep : ∀ s s', s.IsTidy → P s → Step c fs A s s' → P s') (h : Steps c fs A s s')
    (hs : s.IsTidy) (hP : P s) : s'.IsTidy ∧ P s' := by
  induction h with
  | refl => exact ⟨hs, hP⟩
  | tail _ hlast ih => exact ⟨hlast.isTidy hc hfs ih.1, hstep _ _ ih.1 ih.2 hlast⟩

theorem Steps.isTidy (hc : c.IsRegular) (hfs : c.Suits fs) (h : Steps c fs A s s')
    (hs : s.IsTidy) : s'.IsTidy :=
  (h.preserves hc hfs (P := fun _ ↦ True) (fun _ _ _ _ _ ↦ trivial) hs trivial).1

theorem Steps.get?_eq (h : Steps c fs A s s') (hp : p.IsPlace) (hpTracked : s.isTracked p = true) :
    s'.modules.get? p = s.modules.get? p := by
  induction h with
  | refl => rfl
  | tail _ hlast ih =>
    rw [hlast.get?_eq hp (by rw [isTracked_eq, ih, ← isTracked_eq, hpTracked]), ih]

theorem Steps.isTracked (h : Steps c fs A s s') (hp : p.IsPlace)
    (hpTracked : s.isTracked p = true) : s'.isTracked p = true := by
  rw [isTracked_eq, h.get?_eq hp hpTracked, ← isTracked_eq, hpTracked]

theorem Steps.parents_mono (hc : c.IsRegular) (hfs : c.Suits fs) (h : Steps c fs A s s')
    (hs : s.IsTidy) (hq : q ∈ s.journal.imports.parents p) :
    q ∈ s'.journal.imports.parents p :=
  (h.preserves hc hfs (P := fun s ↦ q ∈ s.journal.imports.parents p)
    (fun _ _ hs hmem hstep ↦ hstep.parents_mono hc hfs hs hmem) hs hq).2

end Steps

/-! ## Tracking takes steps -/

section Tracking

variable {c : Compiler} {fs : FileSystem} {A : Path → Prop}

/-- A run goes from one store to another in steps, without touching the files that are being
compiled. -/
structure Run (c : Compiler) (fs : FileSystem) (A : Path → Prop) (started : List Path)
    (s s' : ModuleStore) : Prop where
  steps : Steps c fs A s s'
  untouched : ∀ p ∈ started, s'.isTracked p = s.isTracked p

theorem Run.refl (c : Compiler) (fs : FileSystem) (A : Path → Prop) (started : List Path)
    (s : ModuleStore) :
    Run c fs A started s s :=
  ⟨ReflTransGen.refl, fun _ _ ↦ rfl⟩

theorem Run.trans {started : List Path} {s s' s'' : ModuleStore} (h : Run c fs A started s s')
    (h' : Run c fs A started s' s'') : Run c fs A started s s'' :=
  ⟨h.steps.trans h'.steps, fun p hp ↦ (h'.untouched p hp).trans (h.untouched p hp)⟩

/-- The files that were added between two stores compose only from files that exist and that are
tracked or still being compiled. -/
def Closes (c : Compiler) (fs : FileSystem) (started : List Path) (s s' : ModuleStore) : Prop :=
  ∀ p, p.IsPlace → s'.isTracked p = true → s.isTracked p = true ∨
    ∀ q, c.ComposesFrom fs p q → fs.isFile q = true ∧ (s'.isTracked q = true ∨ q ∈ started)

theorem Closes.refl (c : Compiler) (fs : FileSystem) (started : List Path) (s : ModuleStore) :
    Closes c fs started s s :=
  fun _ _ h ↦ .inl h

theorem Closes.trans (hc : c.IsRegular) (hfs : c.Suits fs) {started : List Path}
    {s s' s'' : ModuleStore} (h : Closes c fs started s s') (hrun : Run c fs A started s' s'')
    (h' : Closes c fs started s' s'') : Closes c fs started s s'' := by
  intro p hp htracked
  rcases h' p hp htracked with htracked | hclosed
  · refine (h p hp htracked).imp_right fun hclosed q hq ↦ ?_
    obtain ⟨hexists, hdone⟩ := hclosed q hq
    exact ⟨hexists, hdone.imp_left (hrun.steps.isTracked (hq.isPlace hc hfs hp hexists))⟩
  · exact .inr hclosed

/-- What a run that succeeds has done for a file. -/
structure Completes (c : Compiler) (fs : FileSystem) (started : List Path) (file : Path)
    (s s' : ModuleStore) : Prop where
  tracked : s'.isTracked file = true ∨ file ∈ started
  closes : Closes c fs started s s'

/-- What is known of a way to track the files that `file` composes from: it is a run, and it
completes what it is told to do if it succeeds. -/
def TracksTargets (c : Compiler) (fs : FileSystem) (A : Path → Prop) (file : Path)
    (started : List Path) (track : Path → ModuleStore → Outcome Unit) : Prop :=
  ∀ q s, c.ComposesFrom fs file q → fs.isFile q = true → s.IsTidy →
    Run c fs A started s (track q s).1 ∧
    ((track q s).2 = .ok () → Completes c fs started q s (track q s).1)

/-- Files were found for references of `file`, and each of them is tracked or being compiled. -/
def Found (c : Compiler) (fs : FileSystem) (file : Path) (b : Blueprint) (started : List Path)
    (s : ModuleStore) (found : List (String × Path)) : Prop :=
  ∀ e ∈ found, e.1 ∈ references b.composes ∧ e.2 = c.target file e.1 ∧ fs.isFile e.2 = true ∧
    (s.isTracked e.2 = true ∨ e.2 ∈ started)

theorem mem_of_lookup {r : String} {q : Path} {found : List (String × Path)}
    (h : found.lookup r = some q) : (r, q) ∈ found := by
  obtain ⟨before, rest, rfl, -⟩ := List.lookup_eq_some_iff.1 h
  simp

theorem isSome_lookup_of_subset {r : String} {found files : List (String × Path)}
    (hsub : ∀ e ∈ found, e ∈ files) (h : (found.lookup r).isSome = true) :
    (files.lookup r).isSome = true := by
  rw [List.lookup_isSome_iff] at h ⊢
  obtain ⟨e, he, heq⟩ := h
  exact ⟨e, hsub e he, heq⟩

theorem Found.mono {file : Path} {b : Blueprint} {started : List Path} {s s' : ModuleStore}
    {found : List (String × Path)}
    (hplace : ∀ q ∈ c.targets file b, fs.isFile q = true → q.IsPlace) (hsteps : Steps c fs A s s')
    (h : Found c fs file b started s found) : Found c fs file b started s' found := by
  intro e he
  obtain ⟨hr, htarget, hfile, htracked⟩ := h e he
  have heplace : e.2.IsPlace := hplace e.2 (htarget ▸ List.mem_map.2 ⟨e.1, hr, rfl⟩) hfile
  exact ⟨hr, htarget, hfile, htracked.imp_left (hsteps.isTracked heplace)⟩

theorem lookup_eq_target {file : Path} {b : Blueprint} {started : List Path} {s : ModuleStore}
    {files : List (String × Path)} (hfound : Found c fs file b started s files) {rs : List String}
    (hall : ∀ r ∈ rs, (files.lookup r).isSome = true) :
    ∀ r ∈ rs, files.lookup r = some (c.target file r) := by
  intro r hr
  obtain ⟨q, hq⟩ := Option.isSome_iff_exists.1 (hall r hr)
  rw [hq]
  exact congrArg some (hfound _ (mem_of_lookup hq)).2.1

theorem trackReferences_run (hc : c.IsRegular) (hfs : c.Suits fs) {file : Path}
    (hfile : file.IsPlace) {b : Blueprint} (hb : c.blueprint fs file = .ok b)
    {started : List Path} {track : Path → ModuleStore → Outcome Unit}
    (htrack : TracksTargets c fs A file started track) {rs : List String}
    (hrs : ∀ r ∈ rs, r ∈ references b.composes) {found : List (String × Path)} {s : ModuleStore}
    (hs : s.IsTidy) (hfound : Found c fs file b started s found) :
    Run c fs A started s (trackReferences c fs track file rs found s).1 ∧
      ∀ files, (trackReferences c fs track file rs found s).2 = .ok files →
        Found c fs file b started (trackReferences c fs track file rs found s).1 files ∧
        Closes c fs started s (trackReferences c fs track file rs found s).1 ∧
        (∀ e ∈ found, e ∈ files) ∧ ∀ r ∈ rs, (files.lookup r).isSome = true := by
  have hplace : ∀ q ∈ c.targets file b, fs.isFile q = true → q.IsPlace := fun q hq hexists ↦
    Compiler.isPlace_targets hc hfs hfile hb hq hexists
  induction rs generalizing found s with
  | nil =>
    refine ⟨Run.refl c fs A started s, fun files h ↦ ?_⟩
    obtain rfl := Except.ok.inj h
    exact ⟨hfound, Closes.refl c fs started s, fun e he ↦ he, List.forall_mem_nil _⟩
  | cons r rs ih =>
    obtain ⟨hr, hrest⟩ := List.forall_mem_cons.1 hrs
    unfold trackReferences
    split
    next hknown =>
      obtain ⟨hrun, hok⟩ := ih hrest hs hfound
      refine ⟨hrun, fun files h ↦ ?_⟩
      obtain ⟨hfiles, hcloses, hsub, hall⟩ := hok files h
      exact ⟨hfiles, hcloses, hsub,
        List.forall_mem_cons.2 ⟨isSome_lookup_of_subset hsub hknown, hall⟩⟩
    next =>
      cases hresolve : c.resolve fs file r with
      | error fault => exact ⟨Run.refl c fs A started s, fun files h ↦ by simp at h⟩
      | ok target =>
        obtain ⟨rfl, htarget⟩ := Compiler.resolve_eq_ok.1 hresolve
        have hmem : c.target file r ∈ c.targets file b := List.mem_map.2 ⟨r, hr, rfl⟩
        obtain ⟨hrun, hcomplete⟩ := htrack (c.target file r) s ⟨b, hb, hmem⟩ htarget hs
        simp only
        rcases hres : track (c.target file r) s with ⟨s₁, fault | u⟩
        · rw [hres] at hrun
          exact ⟨hrun, fun files h ↦ by simp at h⟩
        · rw [hres] at hrun hcomplete
          have hfound₁ : Found c fs file b started s₁ (found ++ [(r, c.target file r)]) := by
            intro e he
            rcases List.mem_append.1 he with he | he
            · exact hfound.mono hplace hrun.steps e he
            · obtain rfl := List.mem_singleton.1 he
              exact ⟨hr, rfl, htarget, (hcomplete rfl).tracked⟩
          obtain ⟨hrun', hok⟩ := ih hrest (hrun.steps.isTidy hc hfs hs) hfound₁
          refine ⟨hrun.trans hrun', fun files h ↦ ?_⟩
          obtain ⟨hfiles, hcloses, hsub, hall⟩ := hok files h
          refine ⟨hfiles, (hcomplete rfl).closes.trans hc hfs hrun' hcloses,
            fun e he ↦ hsub e (List.mem_append_left _ he),
            List.forall_mem_cons.2 ⟨isSome_lookup_of_subset hsub ?_, hall⟩⟩
          simp

theorem finish_run (hc : c.IsRegular) (hfs : c.Suits fs) {file : Path} (hfile : file.IsPlace)
    (hallowed : A file) {started : List Path} (hnotStarted : file ∉ started) {s : ModuleStore}
    (hs : s.IsTidy) (huntracked : s.isTracked file = false) (draft : Draft)
    (hb : c.blueprint fs file = .ok (.ofDraft draft)) {files : List (String × Path)}
    (hfound : Found c fs file (.ofDraft draft) (file :: started) s files)
    (hall : ∀ r ∈ references draft.composes, (files.lookup r).isSome = true)
    (hstarted : ∀ p ∈ started, p.IsPlace ∧ ReflTransGen (c.ComposesFrom fs) p file)
    (hrecorded : ∀ m ∈ c.imports fs file, m.parent ∈ s.journal.imports.parents m.file) :
    Run c fs A started s (finish c file draft files s).1 ∧
      ((finish c file draft files s).2 = .ok () →
        (finish c file draft files s).1.isTracked file = true ∧
        Closes c fs started s (finish c file draft files s).1) := by
  have hlookup := lookup_eq_target hfound hall
  have htargets : ∀ q, q ∈ files.map Prod.snd ↔ q ∈ c.targets file (.ofDraft draft) := by
    intro q
    constructor
    · intro hq
      obtain ⟨e, he, rfl⟩ := List.mem_map.1 hq
      obtain ⟨hr, htarget, -, -⟩ := hfound e he
      exact htarget ▸ List.mem_map.2 ⟨e.1, hr, rfl⟩
    · intro hq
      obtain ⟨r, hr, rfl⟩ := List.mem_map.1 hq
      exact List.mem_map.2 ⟨_, mem_of_lookup (hlookup r hr), rfl⟩
  have hgraph : files.foldl (fun g e ↦ g.add file e.2) s.graph =
      s.graph.addAll file (files.map Prod.snd) := by
    rw [ModuleGraph.addAll, List.foldl_map]
  obtain ⟨journal, himports, heq⟩ := Compiler.finish_eq hc draft hlookup s
  rw [hgraph] at heq
  have hstep : ∀ {modules}, ((∃ fault, c.assemble file (.ofDraft draft) s.composition? =
        .error fault ∧ modules = s.modules) ∨
      ∃ m, c.assemble file (.ofDraft draft) s.composition? = .ok m ∧
        modules = s.modules.insert file m) →
      Step c fs A s ⟨s.graph.addAll file (files.map Prod.snd), modules, journal⟩ := by
    intro modules hassembled
    refine .finish hfile hallowed huntracked hb htargets ?_ ?_ hrecorded himports hassembled
    · intro q hq
      obtain ⟨e, he, rfl⟩ := List.mem_map.1 hq
      exact (hfound e he).2.2.1
    · intro q hq
      obtain ⟨e, he, rfl⟩ := List.mem_map.1 hq
      refine (hfound e he).2.2.2.imp_right fun hmem ↦ ?_
      rcases List.mem_cons.1 hmem with heq | hmem
      · exact heq ▸ ReflTransGen.refl
      · exact (hstarted _ hmem).2
  rw [heq]
  cases hassemble : c.assemble file (.ofDraft draft) s.composition? with
  | error fault =>
    exact ⟨⟨ReflTransGen.single (hstep (.inl ⟨fault, hassemble, rfl⟩)), fun _ _ ↦ rfl⟩,
      fun h ↦ by simp at h⟩
  | ok m =>
    have htracked : (s.modules.insert file m).contains file = true := by
      rw [PathMap.contains_eq, hs.modules.get?_insert_self]
      rfl
    have hfinish := hstep (.inr ⟨m, hassemble, rfl⟩)
    refine ⟨⟨ReflTransGen.single hfinish, fun p hp ↦ ?_⟩,
      fun _ ↦ ⟨htracked, fun p hp hpTracked ↦ ?_⟩⟩
    · have hne : p.components ≠ file.components := by
        intro heq
        obtain rfl := (hstarted p hp).1.eq_of_components hfile heq
        exact hnotStarted hp
      rw [isTracked_eq, isTracked_eq, PathMap.get?_insert_of_ne hne]
    · by_cases hpFile : p = file
      · refine .inr fun q ⟨b, hqb, hq⟩ ↦ ?_
        subst hpFile
        obtain rfl := Except.ok.inj (hb.symm.trans hqb)
        obtain ⟨e, he, rfl⟩ := List.mem_map.1 ((htargets q).2 hq)
        obtain ⟨-, -, hexists, hdone⟩ := hfound e he
        refine ⟨hexists, ?_⟩
        rcases hdone with heTracked | hmem
        · have hePlace := Compiler.isPlace_targets hc hfs hfile hb hq hexists
          exact .inl (hfinish.isTracked hePlace heTracked)
        · rcases List.mem_cons.1 hmem with heq | hmem
          · exact .inl (heq ▸ htracked)
          · exact .inr hmem
      · refine .inl ?_
        rwa [isTracked_eq, PathMap.get?_insert_of_ne fun heq ↦ hpFile
          (hp.eq_of_components hfile heq), ← isTracked_eq] at hpTracked

theorem trackFrom_run (hc : c.IsRegular) (hfs : c.Suits fs)
    (hA : c.Passes fs A) (limit : Nat) {started : List Path} {file : Path} (hfile : file.IsPlace)
    (hallowed : A file)
    (hstarted : ∀ p ∈ started, p.IsPlace ∧ ReflTransGen (c.ComposesFrom fs) p file)
    {s : ModuleStore} (hs : s.IsTidy) :
    Run c fs A started s (trackFrom c fs limit started file s).1 ∧
      ((trackFrom c fs limit started file s).2 = .ok () →
        Completes c fs started file s (trackFrom c fs limit started file s).1) := by
  induction limit generalizing started file s with
  | zero => exact ⟨Run.refl c fs A started s, fun h ↦ by simp [trackFrom] at h⟩
  | succ limit ih =>
    have hamong := Path.isAmong_iff_mem hfile fun p hp ↦ (hstarted p hp).1
    unfold trackFrom
    split
    next hdone =>
      rw [Bool.or_eq_true, hamong] at hdone
      exact ⟨Run.refl c fs A started s, fun _ ↦ ⟨hdone, Closes.refl c fs started s⟩⟩
    next hnew =>
      rw [Bool.or_eq_true, hamong, not_or, Bool.not_eq_true] at hnew
      obtain ⟨huntracked, hnotStarted⟩ := hnew
      have himports := Compiler.imports_prepare hc.collectsImports.recordsImports fs file s.journal
      have hblueprint := Compiler.blueprint_prepare hc fs file s.journal
      rcases hprepare : prepare c fs file s.journal with ⟨journal, fault | draft⟩
      all_goals
        rw [hprepare] at himports hblueprint
        have hattempt : Run c fs A started s { s with journal := journal } :=
          ⟨ReflTransGen.single (.attempt hfile hallowed himports), fun _ _ ↦ rfl⟩
        simp only
      · exact ⟨hattempt, fun h ↦ by simp at h⟩
      · have hb : c.blueprint fs file = .ok (.ofDraft draft) := hblueprint.symm
        have hs₀ : IsTidy { s with journal := journal } := hattempt.steps.isTidy hc hfs hs
        have htrack : TracksTargets c fs A file (file :: started)
            (trackFrom c fs limit (file :: started)) := by
          intro q s hq hexists hs
          refine ih (hq.isPlace hc hfs hfile hexists) (hA hallowed hq hexists)
            (List.forall_mem_cons.2 ⟨⟨hfile, ReflTransGen.single hq⟩,
              fun p hp ↦ ⟨(hstarted p hp).1, ?_⟩⟩) hs
          exact (hstarted p hp).2.tail hq
        obtain ⟨hrun, hok⟩ := trackReferences_run hc hfs hfile hb htrack
          (fun r (hr : r ∈ references draft.composes) ↦ hr) hs₀
          (List.forall_mem_nil _ : Found c fs file _ _ _ [])
        have hrun' : Run c fs A started { s with journal := journal } _ :=
          ⟨hrun.steps, fun p hp ↦ hrun.untouched p (List.mem_cons_of_mem _ hp)⟩
        rcases hres : trackReferences c fs (trackFrom c fs limit (file :: started)) file
          (references draft.composes) [] { s with journal := journal } with ⟨s₁, fault | files⟩
        all_goals
          rw [hres] at hrun hrun' hok
          simp only at hrun hrun' hok ⊢
        · exact ⟨hattempt.trans hrun', fun h ↦ by simp at h⟩
        · have hrecorded : ∀ m ∈ c.imports fs file,
              m.parent ∈ s₁.journal.imports.parents m.file := by
            intro m hm
            have hmFile := (Compiler.isPlace_imports hc hfs hfile m hm).1
            refine hrun.steps.parents_mono hc hfs hs₀ ?_
            change m.parent ∈ journal.imports.parents m.file
            rw [himports, ImportLedger.mem_parents_recordAll hs.imports
              (Compiler.isPlace_imports hc hfs hfile) hmFile]
            exact .inr hm
          obtain ⟨hfound, hcloses, -, hall⟩ := hok files rfl
          obtain ⟨hfinish, hfinished⟩ := finish_run hc hfs hfile hallowed hnotStarted
            (hrun.steps.isTidy hc hfs hs₀)
            ((hrun.untouched file List.mem_cons_self).trans huntracked) draft hb hfound hall
            hstarted hrecorded
          refine ⟨(hattempt.trans hrun').trans hfinish, fun h ↦ ?_⟩
          obtain ⟨htracked, hlast⟩ := hfinished h
          refine ⟨.inl htracked, fun p hp hpTracked ↦ ?_⟩
          rcases hlast p hp hpTracked with hpTracked | hclosed
          · refine (hcloses p hp hpTracked).imp_right fun hclosed q hq ↦ ?_
            obtain ⟨hexists, hdone⟩ := hclosed q hq
            refine ⟨hexists, ?_⟩
            rcases hdone with hqTracked | hmem
            · exact .inl (hfinish.steps.isTracked (hq.isPlace hc hfs hp hexists) hqTracked)
            · rcases List.mem_cons.1 hmem with rfl | hmem
              · exact .inl htracked
              · exact .inr hmem
          · exact .inr hclosed

/-! ## Tracking succeeds -/

theorem trackReferences_ok (hc : c.IsRegular) (hfs : c.Suits fs) {file : Path} {b : Blueprint}
    (hb : c.blueprint fs file = .ok b) (hexist : ∀ q ∈ c.targets file b, fs.isFile q = true)
    {started : List Path} {track : Path → ModuleStore → Outcome Unit}
    (htrack : TracksTargets c fs A file started track)
    (hok : ∀ q s, c.ComposesFrom fs file q → fs.isFile q = true → s.IsTidy →
      (track q s).2 = .ok ()) {rs : List String}
    (hrs : ∀ r ∈ rs, r ∈ references b.composes) (found : List (String × Path)) {s : ModuleStore}
    (hs : s.IsTidy) : ∃ files, (trackReferences c fs track file rs found s).2 = .ok files := by
  induction rs generalizing found s with
  | nil => exact ⟨found, rfl⟩
  | cons r rs ih =>
    obtain ⟨hr, hrest⟩ := List.forall_mem_cons.1 hrs
    have hmem : c.target file r ∈ c.targets file b := List.mem_map.2 ⟨r, hr, rfl⟩
    have hresolve : c.resolve fs file r = .ok (c.target file r) :=
      Compiler.resolve_eq_ok.2 ⟨rfl, hexist _ hmem⟩
    have hrun := (htrack (c.target file r) s ⟨b, hb, hmem⟩ (hexist _ hmem) hs).1
    have hfirst := hok (c.target file r) s ⟨b, hb, hmem⟩ (hexist _ hmem) hs
    unfold trackReferences
    split
    next => exact ih hrest found hs
    next =>
      rw [hresolve]
      rcases hres : track (c.target file r) s with ⟨s₁, fault | u⟩
      · rw [hres] at hfirst
        simp at hfirst
      · rw [hres] at hrun
        simp only [hres]
        exact ih hrest _ (hrun.steps.isTidy hc hfs hs)

/-- Where nothing is wrong with a file and all that it composes from, tracking it succeeds. -/
theorem trackFrom_ok (hc : c.IsRegular) (hfs : c.Suits fs) {limit : Nat} {started : List Path}
    {file : Path} (hfile : file.IsPlace) (hlimit : fs.chainLimit ≤ limit + started.length)
    (hnodup : started.Nodup) (hexist : ∀ p ∈ started, fs.isFile p = true)
    (hstarted : ∀ p ∈ started, p.IsPlace ∧ ReflTransGen (c.ComposesFrom fs) p file)
    (haccepts : c.Accepts fs file) {s : ModuleStore} (hs : s.IsTidy) :
    (trackFrom c fs limit started file s).2 = .ok () := by
  induction limit generalizing started file s with
  | zero =>
    have hlt := FileSystem.length_lt_chainLimit (fun p hp ↦ (hstarted p hp).1) hexist hnodup
    omega
  | succ limit ih =>
    have hamong := Path.isAmong_iff_mem hfile fun p hp ↦ (hstarted p hp).1
    obtain ⟨b, hb, htargets, hassemble⟩ := haccepts file ReflTransGen.refl
    unfold trackFrom
    split
    next => rfl
    next hnew =>
      rw [Bool.or_eq_true, hamong, not_or] at hnew
      have himports := Compiler.imports_prepare hc.collectsImports.recordsImports fs file s.journal
      have hblueprint := Compiler.blueprint_prepare hc fs file s.journal
      rw [hb] at hblueprint
      rcases hprepare : prepare c fs file s.journal with ⟨journal, fault | draft⟩
      · simp [hprepare, Except.map] at hblueprint
      · rw [hprepare] at himports hblueprint
        obtain rfl := Except.ok.inj hblueprint
        have hs₀ : IsTidy { s with journal := journal } :=
          (Step.attempt (A := fun _ ↦ True) hfile trivial himports).isTidy hc hfs hs
        have hstarted' : ∀ q, c.ComposesFrom fs file q → ∀ p ∈ file :: started,
            p.IsPlace ∧ ReflTransGen (c.ComposesFrom fs) p q := fun q hq ↦
          List.forall_mem_cons.2 ⟨⟨hfile, ReflTransGen.single hq⟩,
            fun p hp ↦ ⟨(hstarted p hp).1, (hstarted p hp).2.tail hq⟩⟩
        have htrack : TracksTargets c fs (fun _ ↦ True) file (file :: started)
            (trackFrom c fs limit (file :: started)) := fun q s hq hexists hs ↦
          trackFrom_run hc hfs (fun _ _ _ _ _ ↦ trivial) limit (hq.isPlace hc hfs hfile hexists)
            trivial (hstarted' q hq) hs
        have hok : ∀ q s, c.ComposesFrom fs file q → fs.isFile q = true → s.IsTidy →
            (trackFrom c fs limit (file :: started) q s).2 = .ok () := by
          intro q s hq hexists hs
          refine ih (hq.isPlace hc hfs hfile hexists) ?_ (hnodup.cons hnew.2)
            (List.forall_mem_cons.2 ⟨Compiler.isFile_of_blueprint hb, hexist⟩) (hstarted' q hq)
            (fun x hx ↦ haccepts x (hx.head hq)) hs
          simp only [List.length_cons]
          omega
        obtain ⟨files, hfiles⟩ := trackReferences_ok hc hfs hb htargets htrack hok
          (fun r (hr : r ∈ references draft.composes) ↦ hr) [] hs₀
        obtain ⟨hrun, hfound⟩ := trackReferences_run hc hfs hfile hb htrack
          (fun r (hr : r ∈ references draft.composes) ↦ hr) hs₀
          (List.forall_mem_nil _ : Found c fs file _ _ _ [])
        simp only
        rcases hres : trackReferences c fs (trackFrom c fs limit (file :: started)) file
          (references draft.composes) [] { s with journal := journal } with ⟨s₁, fault | files'⟩
        · rw [hres] at hfiles
          simp at hfiles
        · rw [hres] at hfound
          obtain ⟨hfound, -, -, hall⟩ := hfound files' rfl
          obtain ⟨m, hm⟩ := hassemble s₁.composition?
          obtain ⟨journal', -, hfinish⟩ := Compiler.finish_eq hc draft
            (lookup_eq_target hfound hall) s₁
          rw [hm] at hfinish
          simp only [hfinish]

variable {s : ModuleStore} (hc : c.IsRegular) (hfs : c.Suits fs) (hs : s.IsTidy) (file : Path)

include hc hfs hs

/-- Tracking a file takes steps among all that it composes from. -/
theorem track_steps (hA : c.Passes fs A) (hallowed : A (c.absolute file)) :
    Steps c fs A s (track c fs file s).1 :=
  (trackFrom_run hc hfs hA _ (Compiler.isPlace_absolute hc file) hallowed
    (List.forall_mem_nil _) hs).1.steps

theorem track_steps_all : Steps c fs (fun _ ↦ True) s (track c fs file s).1 :=
  track_steps hc hfs hs file (fun _ _ _ _ _ ↦ trivial) trivial

theorem track_completes (h : (track c fs file s).2 = .ok ()) :
    Completes c fs [] (c.absolute file) s (track c fs file s).1 :=
  (trackFrom_run (A := fun _ ↦ True) hc hfs (fun _ _ _ _ _ ↦ trivial) _
    (Compiler.isPlace_absolute hc file) trivial (List.forall_mem_nil _) hs).2 h

theorem isTracked_track (h : (track c fs file s).2 = .ok ()) :
    (track c fs file s).1.isTracked (c.absolute file) = true :=
  (track_completes hc hfs hs file h).tracked.resolve_right List.not_mem_nil

theorem track_ok (h : c.Accepts fs (c.absolute file)) : (track c fs file s).2 = .ok () :=
  trackFrom_ok hc hfs (Compiler.isPlace_absolute hc file) (by simp) List.nodup_nil
    (List.forall_mem_nil _) (List.forall_mem_nil _) h hs

omit hs in
/-- A file that is tracked after some steps was tracked before or compiles. -/
theorem Steps.compiles {s' : ModuleStore} (h : Steps c fs A s s') (hs : s.IsTidy) {p : Path}
    (hp : p.IsPlace) (hpTracked : s'.isTracked p = true) :
    s.isTracked p = true ∨ c.Compiles fs p := by
  refine (h.preserves hc hfs (P := fun s' ↦ ∀ p : Path, p.IsPlace → s'.isTracked p = true →
    s.isTracked p = true ∨ c.Compiles fs p) ?_ hs fun p _ h ↦ .inl h).2 p hp hpTracked
  intro s₁ s₂ _ hold hstep p hp htracked
  cases hstep with
  | attempt => exact hold p hp htracked
  | @finish file _ b qs _ isPlace allowed untracked blueprint targets exist started recorded imports
      assembled =>
    rcases assembled with ⟨fault, -, rfl⟩ | ⟨m, hm, rfl⟩
    · exact hold p hp htracked
    · by_cases hpFile : p = file
      · refine .inr ⟨b, hpFile ▸ blueprint, fun q hq ↦ exist q ((targets q).2 (hpFile ▸ hq)),
          fun known ↦ ?_⟩
        have hsame := c.assemble_outcome file b s₁.composition? known
        rw [hm] at hsame
        subst hpFile
        cases hknown : c.assemble p b known with
        | error fault => simp [hknown, Except.map] at hsame
        | ok m => exact ⟨m, rfl⟩
      · refine hold p hp ?_
        rwa [isTracked_eq, PathMap.get?_insert_of_ne fun heq ↦ hpFile
          (hp.eq_of_components isPlace heq), ← isTracked_eq] at htracked

omit hs in
/-- An empty store tracks exactly the files that compile together with all they compose from. -/
theorem track_empty_ok_iff :
    (track c fs file .empty).2 = .ok () ↔ c.Accepts fs (c.absolute file) := by
  refine ⟨fun h ↦ ?_, track_ok hc hfs isTidy_empty file⟩
  have hcompletes := track_completes hc hfs isTidy_empty file h
  have hall : ∀ q, ReflTransGen (c.ComposesFrom fs) (c.absolute file) q →
      q.IsPlace ∧ (track c fs file .empty).1.isTracked q = true := by
    intro q hq
    induction hq with
    | refl => exact ⟨Compiler.isPlace_absolute hc file, isTracked_track hc hfs isTidy_empty file h⟩
    | tail _ hlast ih =>
      obtain ⟨hp, htracked⟩ := ih
      have hclosed := (hcompletes.closes _ hp htracked).resolve_left (by simp [isTracked_eq, empty])
      obtain ⟨hexists, hdone⟩ := hclosed _ hlast
      exact ⟨hlast.isPlace hc hfs hp hexists, hdone.resolve_right List.not_mem_nil⟩
  intro q hq
  obtain ⟨hqPlace, hqTracked⟩ := hall q hq
  exact ((track_steps_all hc hfs isTidy_empty file).compiles hc hfs isTidy_empty hqPlace
    hqTracked).resolve_left (by simp [isTracked_eq, empty])

end Tracking

end ModuleStore

end StyleModules
