import StyleModules.Proofs.Extensional
import StyleModules.Proofs.Tracking

/-!
# Faithful stores

A store is faithful to a disk if each module was made from what the disk holds, with the edges that
belong to it.  Tracking keeps a store faithful, whether or not it fails, and whichever file it starts
from.  In all faithful stores a file has the same composition, unless one can go in circles from it
through several files.
-/

namespace StyleModules

open Relation ModuleStore

/-! ## Modules that a disk decides -/

namespace Compiler

variable (c : Compiler) (fs : FileSystem)

/-- Following what files compose from, one does not come from a file to another one and back. -/
def Unwinds (file : Path) : Prop :=
  ∀ p q r, ReflTransGen (c.ComposesFrom fs) file p → ReflTransGen (c.ComposesFrom fs) p q →
    ReflTransGen (c.ComposesFrom fs) q r → r.Same p → q.Same p

/-- What a file sees of the files it composes from, given their modules.  It does not see itself. -/
def seen (modules : Path → Module) (file q : Path) : Option Composition :=
  if q.components = file.components then none else some (modules q).composition

/-- A file is compiled to a module once the other files it composes from are compiled to theirs. -/
inductive Compiled : Path → Module → Prop
  | mk {file : Path} {b : Blueprint} {m : Module} (modules : Path → Module)
      (blueprint : c.blueprint fs file = .ok b)
      (exist : ∀ q ∈ c.targets file b, fs.isFile q = true)
      (compiled : ∀ q ∈ c.targets file b, ¬ q.Same file → Compiled q (modules q))
      (assembled : c.assemble file b (seen modules file) = .ok m) :
      Compiled file m

variable {c fs} {p q x : Path} {m m' : Module}

theorem seen_same (modules : Path → Module) (h : p.Same q) : seen modules p = seen modules q := by
  funext x
  rw [seen, seen, h]

/-- Files that are denoted the same compose from the same files. -/
theorem ComposesFrom.same (hc : c.IsExtensional) (h : c.ComposesFrom fs p x) (hpq : p.Same q)
    (hq : fs.isFile q = true) : c.ComposesFrom fs q x := by
  obtain ⟨b, hb, hx⟩ := h
  obtain ⟨b', hb', hsame⟩ := blueprint_same hc hpq hq hb
  exact ⟨b', hb', targets_eq hc hpq hsame ▸ hx⟩

theorem Unwinds.of_composesFrom (h : c.Unwinds fs p) (hpq : c.ComposesFrom fs p q) :
    c.Unwinds fs q :=
  fun _ _ _ hx hy hz ↦ h _ _ _ (hx.head hpq) hy hz

/-- A way that starts at a file starts under every path that denotes it. -/
theorem head_same (hc : c.IsExtensional) (h : ReflTransGen (c.ComposesFrom fs) p x)
    (hpq : p.Same q) (hq : fs.isFile q = true) :
    x = p ∨ ReflTransGen (c.ComposesFrom fs) q x := by
  rcases ReflTransGen.cases_head h with rfl | ⟨y, hpy, hyx⟩
  · exact .inl rfl
  · exact .inr (hyx.head (hpy.same hc hpq hq))

theorem Unwinds.same (hc : c.IsExtensional) (h : c.Unwinds fs p) (hpq : p.Same q)
    (hp : fs.isFile p = true) : c.Unwinds fs q := by
  intro x y z hqx hxy hyz hsame
  rcases head_same hc hqx hpq.symm hp with rfl | hpx
  · rcases head_same hc hxy hpq.symm hp with rfl | hpy
    · rfl
    · exact (h p y z ReflTransGen.refl hpy hyz (hsame.trans hpq.symm)).trans hpq
  · exact h x y z hpx hxy hyz hsame

/-- A file that unwinds composes from no other of the files that led to it. -/
theorem Unwinds.not_isAmong (hc : c.IsExtensional) (h : c.Unwinds fs p)
    (hpq : c.ComposesFrom fs p q) (hq : fs.isFile q = true) (hother : ¬ q.Same p)
    {started : List Path}
    (hstarted : ∀ x ∈ started, ReflTransGen (c.ComposesFrom fs) x p) :
    ¬ q.isAmong started = true := by
  intro hamong
  obtain ⟨x, hx, hsame⟩ := Path.isAmong_iff.1 hamong
  rcases head_same hc (hstarted x hx) hsame hq with rfl | hqp
  · exact hother (Eq.symm hsame)
  · exact hother (h p q p ReflTransGen.refl (ReflTransGen.single hpq) hqp rfl)

/-- The disk decides what a file is compiled to. -/
theorem Compiled.unique (hc : c.IsExtensional) (h : c.Compiled fs p m) (hpq : p.Same q)
    (h' : c.Compiled fs q m') : m.Same m' := by
  induction h generalizing q m' with
  | @mk file b m modules blueprint exist compiled assembled ih =>
    cases h' with
    | @mk _ b' _ modules' blueprint' exist' compiled' assembled' =>
      obtain ⟨b'', hb'', hsame⟩ :=
        blueprint_same hc hpq (isFile_of_blueprint blueprint') blueprint
      obtain rfl := Except.ok.inj (blueprint'.symm.trans hb'')
      have htargets := targets_eq hc hpq hsame
      have hseen : ∀ x ∈ c.targets file b, seen modules file x = seen modules' q x := by
        intro x hx
        rw [seen_same modules' hpq.symm, seen, seen]
        split
        next => rfl
        next hother =>
          have hx' := compiled' x (htargets ▸ hx) fun hxq ↦ hother (hxq.trans hpq.symm)
          exact congrArg some (ih x hx hother rfl hx').composition
      obtain ⟨m'', hm'', hmodule⟩ := assemble_same hc hpq hsame hseen assembled
      obtain rfl := Except.ok.inj (assembled'.symm.trans hm'')
      exact hmodule

/-- A file can be compiled under every path that denotes it. -/
theorem Compiled.same (hc : c.IsExtensional) (h : c.Compiled fs p m) (hpq : p.Same q)
    (hq : fs.isFile q = true) : ∃ m', c.Compiled fs q m' ∧ m.Same m' := by
  cases h with
  | mk modules blueprint exist compiled assembled =>
    obtain ⟨b', hb', hsame⟩ := blueprint_same hc hpq hq blueprint
    have htargets := targets_eq hc hpq hsame
    rw [seen_same modules hpq] at assembled
    obtain ⟨m', hm', hmodule⟩ := assemble_same hc hpq hsame (fun _ _ ↦ rfl) assembled
    exact ⟨m', .mk modules hb' (htargets ▸ exist) (fun x hx hother ↦
      compiled x (htargets ▸ hx) fun hxp ↦ hother (hxp.trans hpq)) hm', hmodule⟩

/-- What is known of other files only shows in the composition. -/
theorem assemble_stylesheet {file : Path} {b : Blueprint} {known known' : Path → Option Composition}
    (h : c.assemble file b known = .ok m) (h' : c.assemble file b known' = .ok m') :
    m.stylesheet = m'.stylesheet := by
  unfold assemble at h h'
  split at h
  next => simp at h
  next job hjob =>
    rw [hjob] at h'
    dsimp only at h'
    split at h
    next => simp at h
    next renamed hrenamed =>
      rw [hrenamed] at h'
      rw [← Except.ok.inj h, ← Except.ok.inj h']

end Compiler

namespace ModuleStore

variable {c : Compiler} {fs : FileSystem} {A : Path → Prop} {s s' s'' : ModuleStore}
  {file p q : Path}

/-! ## Faithful stores -/

/-- A module was made from what a disk holds, and the graph has its edges. -/
structure IsMade (c : Compiler) (fs : FileSystem) (g : ModuleGraph) (file : Path) (b : Blueprint)
    (m : Module) : Prop where
  blueprint : c.blueprint fs file = .ok b
  exist : ∀ q ∈ c.targets file b, fs.isFile q = true
  edges : ∀ q ∈ c.targets file b, q.isAmong (g.edges file) = true
  assembled : ∃ known, c.assemble file b known = .ok m
  compiled : c.Unwinds fs file → c.Compiled fs file m

/-- Each module was made from what a disk holds, for a file that `A` allows, and the graph knows only
files, with no edges but those that belong to them. -/
structure Faithful (c : Compiler) (fs : FileSystem) (A : Path → Prop) (s : ModuleStore) : Prop where
  modules : s.modules.IsOrdered
  graph : s.graph.IsOrdered
  made : ∀ p m, s.modules.get? p = some m →
    ∃ q b, q.Same p ∧ A q ∧ IsMade c fs s.graph q b m
  composes : ∀ p q : Path, fs.isFile p = true → q.isAmong (s.graph.edges p) = true →
    ∃ x, c.ComposesFrom fs p x ∧ x.Same q
  known : ∀ p ∈ s.graph.targets.keys, fs.isFile p = true

theorem faithful_empty (c : Compiler) (fs : FileSystem) (A : Path → Prop) :
    Faithful c fs A empty where
  modules := PathMap.isOrdered_empty
  graph := ModuleGraph.isOrdered_empty
  made p m h := by simp [empty] at h
  composes p q _ h := by simp [empty] at h
  known := List.forall_mem_nil _

/-- What is tracked stays tracked, with the same modules, and files that are being compiled do not
become tracked. -/
structure Extends (started : List Path) (s s' : ModuleStore) : Prop where
  kept : ∀ p, s.isTracked p = true → s'.modules.get? p = s.modules.get? p
  apart : ∀ p : Path, p.isAmong started = true → s'.isTracked p = s.isTracked p

namespace Extends

variable {started : List Path}

theorem refl (started : List Path) (s : ModuleStore) : Extends started s s :=
  ⟨fun _ _ ↦ rfl, fun _ _ ↦ rfl⟩

theorem isTracked (h : Extends started s s') (hp : s.isTracked p = true) :
    s'.isTracked p = true := by
  rw [isTracked_eq, h.kept p hp, ← isTracked_eq, hp]

theorem trans (h : Extends started s s') (h' : Extends started s' s'') : Extends started s s'' :=
  ⟨fun p hp ↦ (h'.kept p (h.isTracked hp)).trans (h.kept p hp),
    fun p hp ↦ (h'.apart p hp).trans (h.apart p hp)⟩

theorem of_cons (h : Extends (file :: started) s s') : Extends started s s' :=
  ⟨h.kept, fun p hp ↦ h.apart p (Path.isAmong_iff.2
    ((Path.isAmong_iff.1 hp).imp fun _ h ↦ h.imp_left (List.mem_cons_of_mem file)))⟩

end Extends

theorem IsMade.mono {g g' : ModuleGraph} {b : Blueprint} {m : Module} (h : IsMade c fs g file b m)
    (hedges : ∀ p q : Path, q.isAmong (g.edges p) = true → q.isAmong (g'.edges p) = true) :
    IsMade c fs g' file b m :=
  { h with edges := fun q hq ↦ hedges file q (h.edges q hq) }

namespace Faithful

theorem withJournal (hs : Faithful c fs A s) (journal : Journal) :
    Faithful c fs A { s with journal := journal } :=
  ⟨hs.modules, hs.graph, hs.made, hs.composes, hs.known⟩

/-- A file that is tracked compiles under every path that denotes it. -/
theorem compiles (hc : c.IsExtensional) (hs : Faithful c fs A s) (hp : s.isTracked p = true)
    (hexists : fs.isFile p = true) : c.Compiles fs p := by
  rw [isTracked_eq] at hp
  obtain ⟨m, hm⟩ := Option.isSome_iff_exists.1 hp
  obtain ⟨q, b, hqp, -, hmade⟩ := hs.made p m hm
  obtain ⟨b', hb', hsame⟩ := Compiler.blueprint_same hc hqp hexists hmade.blueprint
  obtain ⟨known, hknown⟩ := hmade.assembled
  obtain ⟨m', hm', -⟩ := Compiler.assemble_same hc hqp hsame (fun _ _ ↦ rfl) hknown
  exact Compiler.compiles_of_assemble hb' (Compiler.targets_eq hc hqp hsame ▸ hmade.exist) hm'

/-- The edges of a tracked file are those to the files it composes from. -/
theorem isAmong_edges_iff (hc : c.IsExtensional) (hs : Faithful c fs A s)
    (hp : s.isTracked p = true) : q.isAmong (s.graph.edges p) = true ↔
      ∃ x y, x.Same p ∧ c.ComposesFrom fs x y ∧ y.Same q := by
  rw [isTracked_eq] at hp
  obtain ⟨m, hm⟩ := Option.isSome_iff_exists.1 hp
  obtain ⟨x, b, hxp, -, hmade⟩ := hs.made p m hm
  have hx : fs.isFile x = true := Compiler.isFile_of_blueprint hmade.blueprint
  constructor
  · intro hq
    obtain ⟨y, hy, hyq⟩ := hs.composes x q hx (ModuleGraph.edges_congr hxp s.graph ▸ hq)
    exact ⟨x, y, hxp, hy, hyq⟩
  · rintro ⟨x', y, hx'p, hy, hyq⟩
    obtain ⟨b', hb', hyMem⟩ := hy.same hc (hx'p.trans hxp.symm) hx
    obtain rfl := Except.ok.inj (hmade.blueprint.symm.trans hb')
    rw [← ModuleGraph.edges_congr hxp, ← hyq.isAmong_eq]
    exact hmade.edges y hyMem

/-- The composition of a file that unwinds is decided by the disk. -/
theorem compiled (hc : c.IsExtensional) (hs : Faithful c fs A s) {m : Module}
    (hm : s.modules.get? p = some m) (hexists : fs.isFile p = true) (hp : c.Unwinds fs p) :
    ∃ m', c.Compiled fs p m' ∧ m.Same m' := by
  obtain ⟨q, b, hqp, -, hmade⟩ := hs.made p m hm
  exact (hmade.compiled (hp.same hc hqp.symm hexists)).same hc hqp hexists

/-- The edges of a file are added. -/
theorem link (hc : c.IsExtensional) (hs : Faithful c fs A s) {b : Blueprint}
    (hb : c.blueprint fs file = .ok b) {files : List (String × Path)}
    (hfiles : ∀ e ∈ files, e.2 ∈ c.targets file b ∧ fs.isFile e.2 = true) (journal : Journal) :
    Faithful c fs A ⟨files.foldl (fun g e ↦ g.add file e.2) s.graph, s.modules, journal⟩ := by
  obtain ⟨hgraph, hedges⟩ := hs.graph.foldl_add file files
  refine ⟨hs.modules, hgraph, fun p m hm ↦ ?_, fun p q hp hq ↦ ?_, fun p hp ↦ ?_⟩
  · obtain ⟨q, b, hqp, hq, hmade⟩ := hs.made p m hm
    exact ⟨q, b, hqp, hq, hmade.mono fun p q h ↦ (hedges p q).2 (.inl h)⟩
  · rcases (hedges p q).1 hq with hq | ⟨hpFile, e, he, hqe⟩
    · exact hs.composes p q hp hq
    · have hcomposes : c.ComposesFrom fs file e.2 := ⟨b, hb, (hfiles e he).1⟩
      exact ⟨e.2, hcomposes.same hc hpFile.symm hp, hqe.symm⟩
  · rcases ModuleGraph.mem_keys_foldl_add hp with hp | rfl | ⟨e, he, rfl⟩
    · exact hs.known p hp
    · exact Compiler.isFile_of_blueprint hb
    · exact (hfiles e he).2

/-- The module of a file is added. -/
theorem insert (hs : Faithful c fs A s) {b : Blueprint} {m : Module} (hfile : A file)
    (hmade : IsMade c fs s.graph file b m) (journal : Journal) :
    Faithful c fs A ⟨s.graph, s.modules.insert file m, journal⟩ := by
  refine ⟨hs.modules.insert file m, hs.graph, fun p n hn ↦ ?_, hs.composes, hs.known⟩
  change (s.modules.insert file m).get? p = some n at hn
  by_cases hp : p.components = file.components
  · rw [PathMap.get?_congr hp, hs.modules.get?_insert_self] at hn
    obtain rfl := Option.some.inj hn
    exact ⟨file, b, Eq.symm hp, hfile, hmade⟩
  · rw [PathMap.get?_insert_of_ne hp] at hn
    exact hs.made p n hn

end Faithful

/-! ## Tracking keeps a store faithful -/

/-- Files were found for references of a file, and something was done about each of them. -/
def Gathered (c : Compiler) (fs : FileSystem) (file : Path) (b : Blueprint) (done : Path → Prop)
    (found : List (String × Path)) : Prop :=
  ∀ e ∈ found, e.1 ∈ references b.composes ∧ e.2 = c.target file e.1 ∧ fs.isFile e.2 = true ∧
    done e.2

theorem Gathered.mem_targets {b : Blueprint} {done : Path → Prop} {found : List (String × Path)}
    (h : Gathered c fs file b done found) :
    ∀ e ∈ found, e.2 ∈ c.targets file b ∧ fs.isFile e.2 = true := by
  intro e he
  obtain ⟨hr, htarget, hexists, -⟩ := h e he
  exact ⟨htarget ▸ List.mem_map.2 ⟨e.1, hr, rfl⟩, hexists⟩

theorem Gathered.lookup_eq {b : Blueprint} {done : Path → Prop} {found : List (String × Path)}
    (h : Gathered c fs file b done found) {rs : List String}
    (hall : ∀ r ∈ rs, (found.lookup r).isSome = true) :
    ∀ r ∈ rs, found.lookup r = some (c.target file r) := by
  intro r hr
  obtain ⟨q, hq⟩ := Option.isSome_iff_exists.1 (hall r hr)
  rw [hq]
  exact congrArg some (h _ (mem_of_lookup hq)).2.1

/-- What tracking a single file keeps and does is kept and done for all files that references stand
for. -/
theorem trackReferences_gathers {b : Blueprint} (hb : c.blueprint fs file = .ok b)
    (track : Path → ModuleStore → Outcome Unit) (P : ModuleStore → Prop)
    (done : ModuleStore → Path → Prop)
    (htrack : ∀ q s, c.ComposesFrom fs file q → fs.isFile q = true → P s →
      P (track q s).1 ∧ (∀ x, done s x → done (track q s).1 x) ∧
        ((track q s).2 = .ok () → done (track q s).1 q))
    {rs : List String} (hrs : ∀ r ∈ rs, r ∈ references b.composes)
    {found : List (String × Path)} (hs : P s) (hfound : Gathered c fs file b (done s) found) :
    P (trackReferences c fs track file rs found s).1 ∧
      ∀ files, (trackReferences c fs track file rs found s).2 = .ok files →
        Gathered c fs file b (done (trackReferences c fs track file rs found s).1) files ∧
          (∀ e ∈ found, e ∈ files) ∧ ∀ r ∈ rs, (files.lookup r).isSome = true := by
  induction rs generalizing found s with
  | nil =>
    refine ⟨hs, fun files h ↦ ?_⟩
    obtain rfl := Except.ok.inj h
    exact ⟨hfound, fun _ he ↦ he, List.forall_mem_nil _⟩
  | cons r rs ih =>
    obtain ⟨hr, hrest⟩ := List.forall_mem_cons.1 hrs
    unfold trackReferences
    split
    next hknown =>
      obtain ⟨hP, hok⟩ := ih hrest hs hfound
      refine ⟨hP, fun files h ↦ ?_⟩
      obtain ⟨hfiles, hsub, hall⟩ := hok files h
      exact ⟨hfiles, hsub, List.forall_mem_cons.2 ⟨isSome_lookup_of_subset hsub hknown, hall⟩⟩
    next =>
      cases hresolve : c.resolve fs file r with
      | error fault => exact ⟨hs, fun files h ↦ by simp at h⟩
      | ok target =>
        obtain ⟨rfl, hexists⟩ := Compiler.resolve_eq_ok.1 hresolve
        obtain ⟨hP, hmono, hdone⟩ := htrack (c.target file r) s
          ⟨b, hb, List.mem_map.2 ⟨r, hr, rfl⟩⟩ hexists hs
        simp only
        rcases hres : track (c.target file r) s with ⟨s₁, fault | u⟩
        all_goals rw [hres] at hP hmono hdone
        · exact ⟨hP, fun files h ↦ by simp at h⟩
        · have hfound₁ : Gathered c fs file b (done s₁) (found ++ [(r, c.target file r)]) := by
            intro e he
            rcases List.mem_append.1 he with he | he
            · obtain ⟨her, htarget, heFile, heDone⟩ := hfound e he
              exact ⟨her, htarget, heFile, hmono e.2 heDone⟩
            · obtain rfl := List.mem_singleton.1 he
              exact ⟨hr, rfl, hexists, hdone rfl⟩
          obtain ⟨hP', hok⟩ := ih hrest hP hfound₁
          refine ⟨hP', fun files h ↦ ?_⟩
          obtain ⟨hfiles, hsub, hall⟩ := hok files h
          refine ⟨hfiles, fun e he ↦ hsub e (List.mem_append_left _ he),
            List.forall_mem_cons.2 ⟨isSome_lookup_of_subset hsub ?_, hall⟩⟩
          simp

/-- What an attempt at a file keeps and does: a faithful store stays faithful and is extended, and if
the attempt succeeds, the file is tracked or still being compiled. -/
structure Progresses (c : Compiler) (fs : FileSystem) (A : Path → Prop) (started : List Path)
    (file : Path) (s : ModuleStore) (result : Outcome Unit) : Prop where
  faithful : Faithful c fs A result.1
  extend : Extends started s result.1
  tracked : result.2 = .ok () → result.1.isTracked file = true ∨ file.isAmong started = true

namespace Faithful

variable {started : List Path}

/-- A file is finished after those that it composes from. -/
theorem finish (hc : c.IsExtensional) (hs : Faithful c fs A s) (hfile : A file)
    {draft : Draft} (hb : c.blueprint fs file = .ok (.ofDraft draft))
    (hstarted : ∀ p ∈ started, ReflTransGen (c.ComposesFrom fs) p file)
    {files : List (String × Path)} (hfound : Gathered c fs file (.ofDraft draft)
      (fun q ↦ s.isTracked q = true ∨ q.isAmong (file :: started) = true) files)
    (hall : ∀ r ∈ references draft.composes, (files.lookup r).isSome = true)
    (huntracked : s.isTracked file = false) (hnew : ¬ file.isAmong started = true) :
    Progresses c fs A started file s (finish c file draft files s) := by
  have hlookup := hfound.lookup_eq hall
  obtain ⟨journal, heq⟩ := Compiler.finish_eq_assemble hc.pipeline.isDetermined draft hlookup s
  have hlinked := hs.link hc hb hfound.mem_targets journal
  have htarget : ∀ q ∈ c.targets file (.ofDraft draft), ∃ e ∈ files, e.2 = q := by
    intro q hq
    obtain ⟨r, hr, rfl⟩ := List.mem_map.1 hq
    exact ⟨_, mem_of_lookup (hlookup r hr), rfl⟩
  rw [heq]
  cases hassemble : c.assemble file (.ofDraft draft) s.composition? with
  | error fault => exact ⟨hlinked, ⟨fun _ _ ↦ rfl, fun _ _ ↦ rfl⟩, fun h ↦ by simp at h⟩
  | ok m =>
    have hcompiled : c.Unwinds fs file → c.Compiled fs file m := by
      intro hunwinds
      have hknown : ∀ q, ∃ n, q ∈ c.targets file (.ofDraft draft) → ¬ q.Same file →
          c.Compiled fs q n ∧ s.composition? q = some n.composition := by
        intro q
        by_cases hq : q ∈ c.targets file (.ofDraft draft) ∧ ¬ q.Same file
        · obtain ⟨hq, hother⟩ := hq
          obtain ⟨e, he, rfl⟩ := htarget q hq
          obtain ⟨-, -, hexists, hdone⟩ := hfound e he
          have hcomposes : c.ComposesFrom fs file e.2 := ⟨_, hb, hq⟩
          have htracked := hdone.resolve_right (hunwinds.not_isAmong hc hcomposes hexists hother
            (List.forall_mem_cons.2 ⟨ReflTransGen.refl, hstarted⟩))
          rw [isTracked_eq] at htracked
          obtain ⟨n, hn⟩ := Option.isSome_iff_exists.1 htracked
          obtain ⟨n', hn', hsame⟩ :=
            hs.compiled hc hn hexists (hunwinds.of_composesFrom hcomposes)
          refine ⟨n', fun _ _ ↦ ⟨hn', ?_⟩⟩
          rw [composition?, hn, Option.map_some, hsame.composition]
        · exact ⟨m, fun h hother ↦ absurd ⟨h, hother⟩ hq⟩
      choose modules hmodules using hknown
      refine .mk modules hb (fun q hq ↦ ?_) (fun q hq hother ↦ (hmodules q hq hother).1) ?_
      · obtain ⟨e, he, rfl⟩ := htarget q hq
        exact (hfound e he).2.2.1
      · rw [← hassemble]
        refine Compiler.assemble_congr fun q hq ↦ ?_
        rw [Compiler.seen]
        split
        next hself =>
          -- The file is not tracked yet, so it knows nothing of itself.
          rw [isTracked_congr hself.symm, isTracked_eq, Option.isSome_eq_false_iff,
            Option.isNone_iff_eq_none] at huntracked
          rw [composition?, huntracked, Option.map_none]
        next hother => exact ((hmodules q hq hother).2).symm
    refine ⟨hlinked.insert hfile ⟨hb, fun q hq ↦ ?_, fun q hq ↦ ?_, ⟨_, hassemble⟩, hcompiled⟩
      journal, ⟨fun p hp ↦ ?_, fun p hp ↦ ?_⟩, fun _ ↦ .inl ?_⟩
    · obtain ⟨e, he, rfl⟩ := htarget q hq
      exact (hfound e he).2.2.1
    · obtain ⟨e, he, rfl⟩ := htarget q hq
      exact ((hs.graph.foldl_add file files).2 file e.2).2 (.inr ⟨rfl, e, he, rfl⟩)
    · refine PathMap.get?_insert_of_ne (fun hsame ↦ ?_) s.modules m
      rw [isTracked_congr hsame, huntracked] at hp
      simp at hp
    · have hne : p.components ≠ file.components := fun hsame ↦
        hnew (Path.Same.isAmong_eq hsame started ▸ hp)
      rw [isTracked_eq, isTracked_eq]
      exact congrArg Option.isSome (PathMap.get?_insert_of_ne hne s.modules m)
    · rw [isTracked_eq, hs.modules.get?_insert_self]
      rfl

/-- The files that references stand for are found one after the other. -/
theorem trackReferences (hs : Faithful c fs A s) {b : Blueprint} (hb : c.blueprint fs file = .ok b)
    (track : Path → ModuleStore → Outcome Unit) (htrack : ∀ q s, c.ComposesFrom fs file q →
      fs.isFile q = true → Faithful c fs A s → Progresses c fs A started q s (track q s)) :
    let run := trackReferences c fs track file (references b.composes) [] s
    Faithful c fs A run.1 ∧ Extends started s run.1 ∧ ∀ files, run.2 = .ok files →
      Gathered c fs file b (fun q ↦ run.1.isTracked q = true ∨ q.isAmong started = true) files ∧
        ∀ r ∈ references b.composes, (files.lookup r).isSome = true := by
  have hnone : Gathered c fs file b
      (fun q ↦ s.isTracked q = true ∨ q.isAmong started = true) [] := List.forall_mem_nil _
  obtain ⟨⟨hs', hextend⟩, hok⟩ := trackReferences_gathers hb track
    (fun s' ↦ Faithful c fs A s' ∧ Extends started s s')
    (fun s' q ↦ s'.isTracked q = true ∨ q.isAmong started = true)
    (fun q s' hq hexists ⟨hs', hextend⟩ ↦ by
      obtain ⟨hs'', hextend', hdone⟩ := htrack q s' hq hexists hs'
      exact ⟨⟨hs'', hextend.trans hextend'⟩, fun x hx ↦ hx.imp_left hextend'.isTracked, hdone⟩)
    (fun r hr ↦ hr) ⟨hs, .refl started s⟩ hnone
  exact ⟨hs', hextend, fun files h ↦ ⟨(hok files h).1, (hok files h).2.2⟩⟩

end Faithful

/-- An attempt at a file that cannot be prepared changes nothing but the journal. -/
theorem trackFrom_of_blueprint_error (hc : c.IsExtensional) {fault : Fault}
    (hb : c.blueprint fs file = .error fault) (limit : Nat) {started : List Path}
    (huntracked : s.isTracked file = false) (hnew : ¬ file.isAmong started = true) :
    ∃ journal : Journal, trackFrom c fs (limit + 1) started file s =
      ({ s with journal := journal }, .error fault) := by
  have hprepare := Compiler.prepare_eq hc.pipeline.isDetermined fs file s.journal
  rw [trackFrom, huntracked, Bool.false_or, if_neg hnew]
  rcases hprepared : prepare c fs file s.journal with ⟨journal, fault' | draft⟩
  · rw [hprepared, hb] at hprepare
    obtain rfl : fault' = fault := Except.error.inj hprepare
    exact ⟨journal, rfl⟩
  · rw [hprepared, hb] at hprepare
    simp [Except.map] at hprepare

/-- An attempt at a file goes on with the files that it composes from. -/
theorem trackFrom_of_blueprint_ok (hc : c.IsExtensional) {b : Blueprint}
    (hb : c.blueprint fs file = .ok b) (limit : Nat) {started : List Path}
    (huntracked : s.isTracked file = false) (hnew : ¬ file.isAmong started = true) :
    ∃ (journal : Journal) (draft : Draft), prepare c fs file s.journal = (journal, .ok draft) ∧
      .ofDraft draft = b ∧ trackFrom c fs (limit + 1) started file s =
        match trackReferences c fs (trackFrom c fs limit (file :: started)) file
          (references b.composes) [] { s with journal := journal } with
        | (s, .error fault) => (s, .error fault)
        | (s, .ok files) => finish c file draft files s := by
  have hprepare := Compiler.prepare_eq hc.pipeline.isDetermined fs file s.journal
  rw [trackFrom, huntracked, Bool.false_or, if_neg hnew]
  rcases hprepared : prepare c fs file s.journal with ⟨journal, fault | draft⟩
  · rw [hprepared, hb] at hprepare
    simp [Except.map] at hprepare
  · rw [hprepared, hb] at hprepare
    obtain rfl := Except.ok.inj hprepare
    exact ⟨journal, draft, rfl, rfl, rfl⟩

/-- Tracking a file keeps a store faithful and what it tracks, and tracks the file if it succeeds,
unless that is being compiled already. -/
theorem Faithful.trackFrom (hc : c.IsExtensional) (hA : c.Passes fs A) (limit : Nat)
    {started : List Path} (hfile : A file)
    (hstarted : ∀ p ∈ started, ReflTransGen (c.ComposesFrom fs) p file)
    (hs : Faithful c fs A s) :
    Progresses c fs A started file s (trackFrom c fs limit started file s) := by
  induction limit generalizing started file s with
  | zero => exact ⟨hs, .refl started s, fun h ↦ by simp [ModuleStore.trackFrom] at h⟩
  | succ limit ih =>
    by_cases hdone : s.isTracked file = true ∨ file.isAmong started = true
    · rw [ModuleStore.trackFrom, if_pos (by simpa using hdone)]
      exact ⟨hs, .refl started s, fun _ ↦ hdone⟩
    rw [not_or, Bool.not_eq_true] at hdone
    obtain ⟨huntracked, hnew⟩ := hdone
    cases hb : c.blueprint fs file with
    | error fault =>
      obtain ⟨journal, hrun⟩ := trackFrom_of_blueprint_error hc hb limit huntracked hnew
      rw [hrun]
      exact ⟨hs.withJournal journal, ⟨fun _ _ ↦ rfl, fun _ _ ↦ rfl⟩, fun h ↦ by simp at h⟩
    | ok b =>
      obtain ⟨journal, draft, -, rfl, hrun⟩ := trackFrom_of_blueprint_ok hc hb limit huntracked hnew
      obtain ⟨hs₁, hextend, hok⟩ := (hs.withJournal journal).trackReferences hb
        (ModuleStore.trackFrom c fs limit (file :: started))
        fun q s' hq hexists hs' ↦ ih (hA hfile hq hexists)
          (List.forall_mem_cons.2 ⟨ReflTransGen.single hq, fun p hp ↦ (hstarted p hp).tail hq⟩)
          hs'
      have hextend : Extends (file :: started) s _ := ⟨hextend.kept, hextend.apart⟩
      rw [hrun]
      rcases hres : ModuleStore.trackReferences c fs
        (ModuleStore.trackFrom c fs limit (file :: started)) file
        (references (Blueprint.ofDraft draft).composes) [] { s with journal := journal }
        with ⟨s₁, fault | files⟩
      all_goals rw [hres] at hs₁ hextend hok
      · exact ⟨hs₁, hextend.of_cons, fun h ↦ by simp at h⟩
      · obtain ⟨hfound, hall⟩ := hok files rfl
        have huntracked : s₁.isTracked file = false :=
          (hextend.apart file (Path.isAmong_of_mem List.mem_cons_self)).trans huntracked
        obtain ⟨hs₂, hextend', htracked⟩ := hs₁.finish hc hfile hb hstarted hfound hall
          huntracked hnew
        exact ⟨hs₂, hextend.of_cons.trans hextend', htracked⟩

end ModuleStore

end StyleModules
