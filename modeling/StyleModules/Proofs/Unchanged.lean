import StyleModules.Proofs.Agreement
import StyleModules.Proofs.Provenance

/-!
# Changes of nothing

A change of a file that is as it was before makes a session compile the file and its dependents
again, and not from where it started to compile them first.  If everything was tracked then
everything is tracked again, and the bundle has the same text.  Compositions are the same too, except
where one can go in circles through several files: there it shows which of them is compiled first.
-/

namespace StyleModules

open Relation ModuleStore

namespace Compiler

variable {c : Compiler} {fs : FileSystem} {p q : Path}

/-- A path that denotes the place it stands for. -/
def IsNormal (c : Compiler) (p : Path) : Prop := (c.absolute p).Same p

theorem isFile_absolute (h : (c.absolute p).Same q) (hq : fs.isFile q = true) :
    fs.isFile (c.absolute p) = true :=
  FileSystem.isFile_of_isPlain (Path.isPlain_normalize _) h hq

/-- Different places are different files. -/
theorem IsNormal.same_of_sameFile (hroot : c.root.isAbsolute = true) (hp : c.IsNormal p)
    (hq : c.IsNormal q) (h : fs.SameFile p q) : p.Same q := by
  have hlocation : ∀ x : Path, c.IsNormal x → fs.isFile x = true →
      fs.location? x = some x.components := by
    intro x hx hexists
    have hsame := FileSystem.sameFile_of_same hx (isFile_absolute hx hexists) hexists
    have hplace := FileSystem.location?_of_isPlace
      (Path.isPlace_normalize (Path.isAbsolute_join hroot)) hsame.left
    exact hsame.location.symm.trans (hplace.trans (congrArg some hx))
  exact Option.some.inj ((hlocation p hp h.left).symm.trans
    (h.location.trans (hlocation q hq h.right)))

/-! ## Files that compile -/

/-- Each of some files compiles, composes from others of them only, and has only one path. -/
structure AllCompile (c : Compiler) (fs : FileSystem) (B : Path → Prop) : Prop where
  closed : ∀ p q, B p → c.ComposesFrom fs p q → B q
  compiles : ∀ p, B p → c.Compiles fs p
  same : ∀ p q, B p → B q → fs.SameFile p q → p.Same q

theorem AllCompile.isFile {B : Path → Prop} (hB : c.AllCompile fs B) (hp : B p) :
    fs.isFile p = true := by
  obtain ⟨b, hb, -⟩ := hB.compiles p hp
  exact isFile_of_blueprint hb

end Compiler

namespace ModuleStore

variable {c : Compiler} {fs : FileSystem} {A B : Path → Prop} {s s' : ModuleStore}
  {file p q : Path}

theorem trackReferences_isOk {track : Path → ModuleStore → Outcome Unit} {rs : List String}
    (hrs : ∀ r ∈ rs, fs.isFile (c.target file r) = true ∧
      ∀ s, (track (c.target file r) s).2 = .ok ()) (found : List (String × Path))
    (s : ModuleStore) : ∃ files, (trackReferences c fs track file rs found s).2 = .ok files := by
  induction rs generalizing found s with
  | nil => exact ⟨found, rfl⟩
  | cons r rs ih =>
    obtain ⟨⟨hexists, hok⟩, hrest⟩ := List.forall_mem_cons.1 hrs
    unfold trackReferences
    split
    next => exact ih hrest found s
    next =>
      have hresolve : c.resolve fs file r = .ok (c.target file r) :=
        Compiler.resolve_eq_ok.2 ⟨rfl, hexists⟩
      have hfirst := hok s
      simp only [hresolve]
      rcases hres : track (c.target file r) s with ⟨s₁, fault | u⟩
      · simp [hres] at hfirst
      · exact ih hrest _ s₁

/-- Whatever is tracked already, a file that compiles together with all it composes from can be
tracked. -/
theorem trackFrom_isOk (hc : c.IsExtensional) (hB : c.AllCompile fs B) {limit : Nat}
    {started : List Path} (hfile : B file) (hstarted : ∀ p ∈ started, B p)
    (hdifferent : started.Pairwise fun p q ↦ ¬ fs.SameFile p q)
    (hlimit : fs.chainLimit ≤ limit + started.length) (s : ModuleStore) :
    (trackFrom c fs limit started file s).2 = .ok () := by
  induction limit generalizing started file s with
  | zero =>
    have hlt := FileSystem.length_lt_chainLimit_of_pairwise
      (fun p hp ↦ hB.isFile (hstarted p hp)) hdifferent
    omega
  | succ limit ih =>
    by_cases hdone : s.isTracked file = true ∨ file.isAmong started = true
    · rw [trackFrom, if_pos (by simpa using hdone)]
    rw [not_or, Bool.not_eq_true] at hdone
    obtain ⟨huntracked, hnew⟩ := hdone
    obtain ⟨b, hb, hexist, hassemble⟩ := hB.compiles file hfile
    obtain ⟨journal, draft, -, rfl, hrun⟩ := trackFrom_of_blueprint_ok hc hb limit huntracked hnew
    have hstarted' : ∀ p ∈ file :: started, B p := List.forall_mem_cons.2 ⟨hfile, hstarted⟩
    have hdifferent' : (file :: started).Pairwise fun p q ↦ ¬ fs.SameFile p q :=
      List.pairwise_cons.2 ⟨fun p hp hsame ↦ hnew (Path.isAmong_iff.2
        ⟨p, hp, (hB.same file p hfile (hstarted p hp) hsame).symm⟩), hdifferent⟩
    have htarget : ∀ r ∈ references (Blueprint.ofDraft draft).composes,
        fs.isFile (c.target file r) = true ∧
          ∀ s, (trackFrom c fs limit (file :: started) (c.target file r) s).2 = .ok () := by
      intro r hr
      have hmem : c.target file r ∈ c.targets file (.ofDraft draft) := List.mem_map.2 ⟨r, hr, rfl⟩
      exact ⟨hexist _ hmem, ih (hB.closed file _ hfile ⟨_, hb, hmem⟩) hstarted' hdifferent'
        (by rw [List.length_cons]; omega)⟩
    obtain ⟨files, hfiles⟩ := trackReferences_isOk htarget [] { s with journal := journal }
    obtain ⟨-, hfound⟩ := trackReferences_gathers hb
      (trackFrom c fs limit (file :: started)) (fun _ ↦ True) (fun _ _ ↦ True)
      (fun _ _ _ _ _ ↦ ⟨trivial, fun _ _ ↦ trivial, fun _ ↦ trivial⟩)
      (fun r hr ↦ hr) (s := { s with journal := journal }) trivial (List.forall_mem_nil _)
    obtain ⟨hgathered, -, hall⟩ := hfound files hfiles
    rw [hrun]
    rcases hres : trackReferences c fs (trackFrom c fs limit (file :: started)) file
      (references (Blueprint.ofDraft draft).composes) [] { s with journal := journal }
      with ⟨s₁, fault | files'⟩
    all_goals rw [hres] at hfiles
    · simp at hfiles
    · obtain rfl := Except.ok.inj hfiles
      obtain ⟨journal', hfinish⟩ := Compiler.finish_eq_assemble hc.pipeline.isDetermined draft
        (hgathered.lookup_eq hall) s₁
      obtain ⟨m, hm⟩ := hassemble s₁.composition?
      simp only [hfinish, hm]

theorem track_isOk (hc : c.IsExtensional) (hB : c.AllCompile fs B) (hfile : B (c.absolute file))
    (s : ModuleStore) : (track c fs file s).2 = .ok () :=
  trackFrom_isOk hc hB hfile (List.forall_mem_nil _) List.Pairwise.nil (Nat.le_refl _) s

/-- What holds of the ledger when the imports of a file are recorded holds of it when files are
tracked. -/
theorem ledger_trackFrom (hc : c.IsExtensional) (hcollects : c.pipeline.CollectsImports)
    (hA : c.Passes fs A) {P : ImportLedger → Prop}
    (hP : ∀ file l, A file → P l → P (l.recordAll (c.imports fs file))) (limit : Nat)
    {started : List Path} (hfile : A file) (hs : P s.journal.imports) :
    P (trackFrom c fs limit started file s).1.journal.imports := by
  refine trackFrom_preserves (P := fun s ↦ P s.journal.imports) (Compiler.Passes.hands
    hc.pipeline.isDetermined hA) (fun file s hfile hs ↦ ?_) (fun file draft files s _ hs ↦ ?_)
    limit hfile hs
  · change P (prepare c fs file s.journal).1.imports
    rw [Compiler.imports_prepare hcollects.recordsImports]
    exact hP file _ hfile hs
  · rw [Compiler.imports_finish hcollects.recordsImports]
    exact hs

end ModuleStore

/-- The files that events are about, and all that is read or tracked because of them. -/
inductive Compiler.Involves (c : Compiler) (fs : FileSystem) (events : List FileEvent) :
    Path → Prop
  | event {e : FileEvent} (he : e ∈ events) : Involves c fs events (c.absolute e.file)
  | composes {p q : Path} (hp : Involves c fs events p) (h : c.ComposesFrom fs p q) :
      Involves c fs events q
  | source {p q : Path} (hp : Involves c fs events p) (h : q ∈ c.sources fs p) :
      Involves c fs events q
  /-- Evicted files are compiled again under the paths of their places. -/
  | place {p : Path} (hp : Involves c fs events p) (h : fs.isFile p = true) :
      Involves c fs events (c.absolute p)

/-- Compiling some files leads to no others. -/
structure Compiler.Encloses (c : Compiler) (fs : FileSystem) (A : Path → Prop) : Prop where
  passes : c.Passes fs A
  sources : ∀ p q, A p → q ∈ c.sources fs p → A q
  place : ∀ p, A p → fs.isFile p = true → A (c.absolute p)

theorem Compiler.encloses_involves (c : Compiler) (fs : FileSystem) (events : List FileEvent) :
    c.Encloses fs (c.Involves fs events) where
  passes _ _ hp h _ := hp.composes h
  sources _ _ hp h := hp.source h
  place _ hp h := hp.place h

/-- Where files are found by namespace, events have to do with places only. -/
theorem Compiler.Involves.isPlace {c : Compiler} {fs : FileSystem} (hc : c.IsRegular)
    (hfs : c.Suits fs) {events : List FileEvent} {p : Path} (h : c.Involves fs events p)
    (hexists : fs.isFile p = true) : p.IsPlace := by
  induction h with
  | event => exact isPlace_absolute hc _
  | composes _ hpq ih => exact hpq.isPlace hc hfs (ih hpq.isFile) hexists
  | source _ hq ih =>
    have hp := isFile_of_mem_sources (self_mem_sources hq)
    exact isPlace_of_mem_sources hc.resolver hfs.root (ih hp) hq
  | place => exact isPlace_absolute hc _

namespace ModuleStore

variable {c : Compiler} {fs : FileSystem} {A : Path → Prop} {s : ModuleStore} {file p q : Path}

/-- A faithful store whose ledger knows only files that `A` allows. -/
structure Intact (c : Compiler) (fs : FileSystem) (A : Path → Prop) (s : ModuleStore) : Prop
    extends Faithful c fs A s where
  ledger : s.journal.imports.IsWithin fun p ↦ A p ∧ fs.isFile p = true

theorem intact_empty (c : Compiler) (fs : FileSystem) (A : Path → Prop) :
    Intact c fs A empty where
  toFaithful := faithful_empty c fs A
  ledger := ImportLedger.isWithin_empty _

/-- A tracked file is written for one that `A` allows and that exists. -/
theorem Faithful.allowed (hs : Faithful c fs A s) (h : s.isTracked p = true) :
    ∃ q, q.Same p ∧ A q ∧ fs.isFile q = true := by
  rw [isTracked_eq] at h
  obtain ⟨m, hm⟩ := Option.isSome_iff_exists.1 h
  obtain ⟨q, b, hqp, hq, hmade⟩ := hs.made p m hm
  exact ⟨q, hqp, hq, Compiler.isFile_of_blueprint hmade.blueprint⟩

theorem Intact.track (hc : c.IsExtensional) (hcollects : c.pipeline.CollectsImports)
    (hA : c.Encloses fs A) (hs : Intact c fs A s) (hfile : A (c.absolute file)) :
    Intact c fs A (track c fs file s).1 := by
  have hfaithful := (hs.toFaithful.trackFrom hc hA.passes fs.chainLimit hfile
    (List.forall_mem_nil _)).faithful
  refine ⟨hfaithful, ledger_trackFrom hc hcollects hA.passes
    (P := fun l ↦ l.IsWithin fun p ↦ A p ∧ fs.isFile p = true) (fun file l hfile hl ↦ ?_)
    fs.chainLimit hfile hs.ledger⟩
  have hmessages : ∀ ms : List ImportMessage, (∀ m ∈ ms, m ∈ c.imports fs file) →
      ∀ l : ImportLedger, (l.IsWithin fun p ↦ A p ∧ fs.isFile p = true) →
        (l.recordAll ms).IsWithin fun p ↦ A p ∧ fs.isFile p = true := by
    intro ms hms
    induction ms with
    | nil => exact fun l hl ↦ hl
    | cons m ms ih =>
      obtain ⟨hm, hrest⟩ := List.forall_mem_cons.1 hms
      have hparent := (Compiler.mem_sources_of_mem_imports hm).2
      exact fun l hl ↦ ih hrest _ (hl.record m.file
        ⟨hA.sources file m.parent hfile hparent, Compiler.isFile_of_mem_sources hparent⟩)
  exact hmessages _ (fun _ hm ↦ hm) l hl

/-- Evicting a file leaves the others as they are. -/
theorem Intact.without (hs : Intact c fs A s) (d : Path) :
    Intact c fs A (s.without c d) ∧
      ∀ p, ¬ p.Same (c.absolute d) → (s.without c d).isTracked p = s.isTracked p := by
  have hledger := hs.ledger.forget d
  unfold ModuleStore.without remove
  by_cases htracked : s.isTracked (c.absolute d) = true
  · obtain ⟨q, hqd, -, hq⟩ := hs.allowed htracked
    have hexists := Compiler.isFile_absolute hqd.symm hq
    rw [if_pos htracked]
    refine ⟨⟨⟨hs.modules.erase _, hs.graph.clear _, fun p m hm ↦ ?_, fun p q hp hq ↦ ?_,
      fun p hp ↦ ?_⟩, hledger⟩, fun p hp ↦ ?_⟩
    · change (s.modules.erase (c.absolute d)).get? p = some m at hm
      by_cases hp : p.components = (c.absolute d).components
      · rw [PathMap.get?_congr hp, PathMap.get?_erase_self] at hm
        simp at hm
      · rw [PathMap.get?_erase_of_ne hp] at hm
        obtain ⟨q, b, hqp, hq, hmade⟩ := hs.made p m hm
        refine ⟨q, b, hqp, hq, { hmade with edges := fun x hx ↦ ?_ }⟩
        change x.isAmong ((s.graph.clear (c.absolute d)).edges q) = true
        rw [ModuleGraph.edges_clear_of_ne fun heq ↦ hp (hqp.symm.trans heq)]
        exact hmade.edges x hx
    · change q.isAmong ((s.graph.clear (c.absolute d)).edges p) = true at hq
      rw [hs.graph.edges_clear] at hq
      split at hq
      next => simp at hq
      next => exact hs.composes p q hp hq
    · rcases ModuleGraph.mem_keys_clear hp with hp | ⟨rfl, -⟩
      · exact hs.known p hp
      · exact hexists
    · change (s.modules.erase (c.absolute d)).contains p = s.modules.contains p
      rw [PathMap.contains_eq, PathMap.contains_eq, PathMap.get?_erase_of_ne hp]
  · rw [if_neg htracked]
    exact ⟨⟨hs.toFaithful.withJournal _, hledger⟩, fun _ _ ↦ rfl⟩

theorem Intact.foldl_without (hs : Intact c fs A s) (tree : List Path) :
    Intact c fs A (tree.foldl (ModuleStore.without c) s) ∧
      ∀ p : Path, (∀ d ∈ tree, ¬ p.Same (c.absolute d)) →
        (tree.foldl (ModuleStore.without c) s).isTracked p = s.isTracked p := by
  induction tree generalizing s with
  | nil => exact ⟨hs, fun _ _ ↦ rfl⟩
  | cons d tree ih =>
    obtain ⟨hs₁, hkept₁⟩ := hs.without d
    obtain ⟨hs₂, hkept₂⟩ := ih hs₁
    refine ⟨hs₂, fun p hp ↦ ?_⟩
    obtain ⟨hd, hrest⟩ := List.forall_mem_cons.1 hp
    exact (hkept₂ p hrest).trans (hkept₁ p hd)

end ModuleStore

/-! ## Sessions on one disk -/

namespace Session

variable {c : Compiler} {fs : FileSystem} {A : Path → Prop} {s : Session} {file d p : Path}

def handleAll (s : Session) (events : List FileEvent) : Session :=
  events.foldl (fun s e ↦ (s.handle e).1) s

/-- A session that compiles on a disk and has an intact store. -/
structure IsIntact (c : Compiler) (fs : FileSystem) (A : Path → Prop) (s : Session) : Prop where
  compiler : s.compiler = c
  disk : s.fs = fs
  intact : Intact c fs A s.store

/-- A file in the tree of another one is that one, or it exists and was met under a path that is
allowed. -/
theorem IsIntact.mem_evictedWith (hs : s.IsIntact c fs A) (h : d ∈ s.evictedWith file) :
    d = c.absolute file ∨ fs.isFile d = true ∧ ∃ q, q.Same d ∧ A q ∧ fs.isFile q = true := by
  obtain ⟨rfl, rfl, hs⟩ := hs
  obtain ⟨f, hf, -, hreaches⟩ := (walk_evictedWith s file).reaches d h
  obtain rfl := List.mem_singleton.1 hf
  rcases hreaches.cases_tail with rfl | ⟨x, -, hlast, -⟩
  · exact .inl rfl
  right
  rcases List.mem_append.1 hlast with hdependent | hparent
  · change d ∈ (s.store.dependents s.compiler x).toOption.getD [] at hdependent
    unfold ModuleStore.dependents at hdependent
    dsimp only at hdependent
    split at hdependent
    next =>
      obtain ⟨hknown, htracked⟩ := List.mem_filter.1 hdependent
      obtain ⟨e, he, rfl⟩ := List.mem_map.1 hknown
      exact ⟨hs.known _ (List.mem_map.2 ⟨e, (List.mem_filter.1 he).1, rfl⟩), hs.allowed htracked⟩
    next => simp [Except.toOption] at hdependent
  · obtain ⟨hd, hexists⟩ := hs.ledger.parents x d hparent
    exact ⟨hexists, d, rfl, hd, hexists⟩

/-- Evicted files are compiled again under paths that are allowed. -/
theorem IsIntact.allowed_absolute (hs : s.IsIntact c fs A) (hroot : c.root.isAbsolute = true)
    (hA : c.Encloses fs A) (hfile : A (c.absolute file)) (h : d ∈ s.evictedWith file) :
    A (c.absolute d) := by
  rcases hs.mem_evictedWith h with rfl | ⟨-, q, hqd, hq, hexists⟩
  · exact (Compiler.absolute_absolute hroot file).symm ▸ hfile
  · exact Compiler.absolute_same hqd c ▸ hA.place q hq hexists

theorem IsIntact.evicting (hs : s.IsIntact c fs A) (file : Path) :
    (s.evicting file).IsIntact c fs A ∧ ∀ p : Path,
      (∀ d ∈ s.evictedWith file, ¬ p.Same (c.absolute d)) →
        (s.evicting file).store.isTracked p = s.store.isTracked p := by
  obtain ⟨rfl, rfl, hs⟩ := hs
  obtain ⟨hs', hkept⟩ := hs.foldl_without (s.evictedWith file)
  rw [evicting_eq]
  exact ⟨⟨rfl, rfl, hs'⟩, hkept⟩

section Tracking

variable (hc : c.IsExtensional) (hcollects : c.pipeline.CollectsImports) (hA : c.Encloses fs A)

include hc hcollects hA

theorem IsIntact.track (hs : s.IsIntact c fs A) (hfile : A (c.absolute file)) :
    (s.track file).1.IsIntact c fs A ∧
      (∀ p, s.store.isTracked p = true → (s.track file).1.store.isTracked p = true) ∧
      ((s.track file).2 = .ok () → (s.track file).1.store.isTracked (c.absolute file) = true) := by
  obtain ⟨rfl, rfl, hs⟩ := hs
  obtain ⟨-, hextend, htracked⟩ := hs.toFaithful.trackFrom hc hA.passes s.fs.chainLimit hfile
    (List.forall_mem_nil _)
  exact ⟨⟨rfl, rfl, hs.track hc hcollects hA hfile⟩, fun _ hp ↦ hextend.isTracked hp,
    fun h ↦ (htracked h).resolve_right (by simp)⟩

theorem IsIntact.retracked (hs : s.IsIntact c fs A) (hd : A (c.absolute d)) :
    (s.retracked d).IsIntact c fs A ∧
      ∀ p, s.store.isTracked p = true → (s.retracked d).store.isTracked p = true := by
  unfold Session.retracked
  split
  next => exact ⟨hs, fun _ hp ↦ hp⟩
  next =>
    obtain ⟨hs', hmono, -⟩ := hs.track hc hcollects hA hd
    exact ⟨hs', hmono⟩

theorem IsIntact.foldl_retracked {files : List Path} (hs : s.IsIntact c fs A)
    (hfiles : ∀ d ∈ files, A (c.absolute d)) :
    (files.foldl Session.retracked s).IsIntact c fs A ∧
      ∀ p, s.store.isTracked p = true →
        (files.foldl Session.retracked s).store.isTracked p = true := by
  induction files generalizing s with
  | nil => exact ⟨hs, fun _ hp ↦ hp⟩
  | cons d files ih =>
    obtain ⟨hd, hrest⟩ := List.forall_mem_cons.1 hfiles
    obtain ⟨hs₁, hmono₁⟩ := hs.retracked hc hcollects hA hd
    obtain ⟨hs₂, hmono₂⟩ := ih hs₁ hrest
    exact ⟨hs₂, fun p hp ↦ hmono₂ p (hmono₁ p hp)⟩

/-- Handling an event keeps the store intact, whether or not it fails. -/
theorem IsIntact.handle (hroot : c.root.isAbsolute = true) (hs : s.IsIntact c fs A) {e : FileEvent}
    (he : A (c.absolute e.file)) : (s.handle e).1.IsIntact c fs A := by
  have hkept : (s.kept e).IsIntact c fs A :=
    kept_preserves (P := fun s ↦ s.IsIntact c fs A) hs (hs.evicting e.file).1
  have htail : ∀ d ∈ (s.evictedWith e.file).tail, A (c.absolute d) := fun d hd ↦
    hs.allowed_absolute hroot hA he (List.mem_of_mem_tail hd)
  exact handle_preserves (P := fun s ↦ s.IsIntact c fs A) hkept
    (fun _ hs ↦ (hs.track hc hcollects hA he).1)
    (fun d hd _ hs ↦ (hs.track hc hcollects hA (htail d hd)).1)
    fun _ _ hs ↦ ⟨hs.compiler, hs.disk, hs.intact⟩

theorem IsIntact.handleAll (hroot : c.root.isAbsolute = true) (hs : s.IsIntact c fs A)
    (events : List FileEvent) (hevents : ∀ e ∈ events, A (c.absolute e.file)) :
    (s.handleAll events).IsIntact c fs A := by
  induction events generalizing s with
  | nil => exact hs
  | cons e events ih =>
    obtain ⟨he, hrest⟩ := List.forall_mem_cons.1 hevents
    exact ih (hs.handle hc hcollects hA hroot he) hrest

/-! ## Compiling everything again -/

/-- A file that can be compiled again whenever it comes up is tracked in the end. -/
theorem IsIntact.isTracked_foldl_retracked {files : List Path} (hs : s.IsIntact c fs A)
    (hfiles : ∀ d ∈ files, A (c.absolute d))
    (hok : ∀ s : Session, s.IsIntact c fs A → ∀ d ∈ files, (s.track d).2 = .ok ())
    (hd : d ∈ files) (hexists : fs.isFile d = true) :
    (files.foldl Session.retracked s).store.isTracked (c.absolute d) = true := by
  induction files generalizing s with
  | nil => simp at hd
  | cons x files ih =>
    obtain ⟨hx, hrest⟩ := List.forall_mem_cons.1 hfiles
    obtain ⟨hs₁, -⟩ := hs.retracked hc hcollects hA hx
    rcases List.mem_cons.1 hd with rfl | hd
    · refine (hs₁.foldl_retracked hc hcollects hA hrest).2 _ ?_
      unfold Session.retracked
      split
      next hdone =>
        rw [hs.disk, hexists, Bool.not_true, Bool.false_or, Session.isTracked, Session.absolute,
          hs.compiler] at hdone
        exact hdone
      next => exact (hs.track hc hcollects hA hx).2.2 (hok s hs d List.mem_cons_self)
    · exact ih hs₁ hrest (fun s hs x hx ↦ hok s hs x (List.mem_cons_of_mem _ hx)) hd

end Tracking

/-- Nothing is reported where all dependents are compiled again. -/
theorem snd_retrack {files : List Path} (file : Path)
    (hok : ∀ s' : Session, s.SameSetup s' → ∀ d ∈ files, (s'.track d).2 = .ok ()) :
    (s.retrack file files).2 = .ok () := by
  have hfold : ∀ s' : Session, s.SameSetup s' → (files.foldl retrackOne (s', [])).2 = [] := by
    induction files with
    | nil => exact fun _ _ ↦ rfl
    | cons d files ih =>
      intro s' hsetup
      have hrest := ih fun s' hs' x hx ↦ hok s' hs' x (List.mem_cons_of_mem d hx)
      rw [List.foldl_cons]
      unfold retrackOne
      dsimp only
      split
      next => exact hrest s' hsetup
      next =>
        have hfirst := hok s' hsetup d List.mem_cons_self
        have hsetup' := hsetup.trans (sameSetup_track s' d)
        rcases hres : s'.track d with ⟨s₁, fault | u⟩
        · simp [hres] at hfirst
        · rw [hres] at hsetup'
          exact hrest s₁ hsetup'
  have hnone := hfold s (SameSetup.refl s)
  unfold Session.retrack
  split
  next => rfl
  next s' failures hne heq =>
    rw [heq] at hnone
    exact absurd hnone hne

/-- Where all files are tracked under the paths of their places, all of them compile. -/
theorem IsIntact.allCompile (hc : c.IsExtensional) (hA : c.Encloses fs A)
    (hroot : c.root.isAbsolute = true) (hs : s.IsIntact c fs A)
    (hall : ∀ p, A p → fs.isFile p = true → s.isTracked p = true ∧ c.IsNormal p) :
    c.AllCompile fs fun p ↦ A p ∧ fs.isFile p = true := by
  have hcompiles : ∀ p, A p → fs.isFile p = true → c.Compiles fs p := by
    intro p hp hexists
    obtain ⟨htracked, hnormal⟩ := hall p hp hexists
    rw [Session.isTracked, Session.absolute, hs.compiler, isTracked_congr hnormal] at htracked
    exact hs.intact.compiles hc htracked hexists
  refine ⟨?_, ?_, ?_⟩
  · rintro p q ⟨hp, hexists⟩ hpq
    have hqFile := (hcompiles p hp hexists).isFile hpq
    exact ⟨hA.passes hp hpq hqFile, hqFile⟩
  · rintro p ⟨hp, hexists⟩
    exact hcompiles p hp hexists
  · rintro p q ⟨hp, hpFile⟩ ⟨hq, hqFile⟩ hsame
    exact (hall p hp hpFile).2.same_of_sameFile hroot (hall q hq hqFile).2 hsame

/-- Where all files are tracked under the paths of their places, a change of one of them succeeds
and tracks the same files again. -/
theorem IsIntact.change (hc : c.IsExtensional) (hcollects : c.pipeline.CollectsImports)
    (hA : c.Encloses fs A) (hroot : c.root.isAbsolute = true) (hs : s.IsIntact c fs A)
    (hall : ∀ p, A p → fs.isFile p = true → s.isTracked p = true ∧ c.IsNormal p)
    (hfile : s.isTracked file = true) :
    (s.change file).2 = .ok () ∧ (s.change file).1.IsIntact c fs A ∧
      s.store.TracksAlike (s.change file).1.store := by
  have hB := hs.allCompile hc hA hroot hall
  rw [Session.isTracked, Session.absolute, hs.compiler] at hfile
  obtain ⟨x, hx, hxAllowed, hxFile⟩ := hs.intact.allowed hfile
  have hself : A (c.absolute file) := by
    have hplace := hA.place x hxAllowed hxFile
    rwa [Compiler.absolute_same hx c, Compiler.absolute_absolute hroot] at hplace
  have htree : ∀ d ∈ s.evictedWith file, fs.isFile d = true ∧
      A (c.absolute d) ∧ fs.isFile (c.absolute d) = true := by
    intro d hd
    have hallowed := hs.allowed_absolute hroot hA hself hd
    rcases hs.mem_evictedWith hd with rfl | ⟨hexists, q, hqd, hq, hqFile⟩
    · have hexists := Compiler.isFile_absolute hx.symm hxFile
      rw [Compiler.absolute_absolute hroot]
      exact ⟨hexists, hself, hexists⟩
    · have hnormal : (c.absolute d).Same q :=
        Compiler.absolute_same hqd c ▸ (hall q hq hqFile).2
      exact ⟨hexists, hallowed, Compiler.isFile_absolute hnormal hqFile⟩
  have hok : ∀ s' : Session, s'.compiler = c → s'.fs = fs → ∀ d, A (c.absolute d) →
      fs.isFile (c.absolute d) = true → (s'.track d).2 = .ok () := by
    rintro s' rfl rfl d hd hexists
    exact track_isOk hc hB ⟨hd, hexists⟩ s'.store
  have htail : ∀ d ∈ (s.evictedWith file).tail, A (c.absolute d) := fun d hd ↦
    (htree d (List.mem_of_mem_tail hd)).2.1
  have htailOk : ∀ s' : Session, s'.compiler = c → s'.fs = fs →
      ∀ d ∈ (s.evictedWith file).tail, (s'.track d).2 = .ok () := fun s' hcompiler hdisk d hd ↦
    hok s' hcompiler hdisk d (htail d hd) (htree d (List.mem_of_mem_tail hd)).2.2
  obtain ⟨hevicted, hkept⟩ := hs.evicting file
  obtain ⟨hs₁, hmono₁, htracked₁⟩ := hevicted.track hc hcollects hA hself
  obtain ⟨hs₂, hmono₂⟩ := hs₁.foldl_retracked hc hcollects hA htail
  have hfirst := hok _ hevicted.compiler hevicted.disk file hself
    (Compiler.isFile_absolute hx.symm hxFile)
  rw [fst_change_ok hfirst, change_eq_retrack hfirst]
  refine ⟨snd_retrack file fun s' hsetup ↦ htailOk s' (hsetup.compiler.trans hs₁.compiler)
    (hsetup.fs.trans hs₁.disk), hs₂, fun p ↦ Bool.eq_iff_iff.2 ⟨fun hp ↦ ?_, fun hp ↦ ?_⟩⟩
  · by_cases hlost : ∃ d ∈ s.evictedWith file, p.Same (c.absolute d)
    · -- What was evicted is compiled again: the file first, then the rest of the tree.
      obtain ⟨d, hd, hpd⟩ := hlost
      rw [isTracked_congr hpd]
      obtain ⟨rest, hrest⟩ := evictedWith_eq_cons s file
      rw [hrest] at hd
      rcases List.mem_cons.1 hd with rfl | hd
      · rw [Session.absolute, hs.compiler, Compiler.absolute_absolute hroot]
        exact hmono₂ _ (htracked₁ hfirst)
      · have hdTail : d ∈ (s.evictedWith file).tail := by rwa [hrest, List.tail_cons]
        exact hs₁.isTracked_foldl_retracked hc hcollects hA htail
          (fun s' hs' ↦ htailOk s' hs'.compiler hs'.disk) hdTail
          (htree d (List.mem_of_mem_tail hdTail)).1
    · have hstays : ∀ d ∈ s.evictedWith file, ¬ p.Same (c.absolute d) := by simpa using hlost
      exact hmono₂ p (hmono₁ p ((hkept p hstays).trans hp))
  · obtain ⟨q, hqp, hq, hexists⟩ := hs₂.intact.allowed hp
    obtain ⟨htracked, hnormal⟩ := hall q hq hexists
    rw [Session.isTracked, Session.absolute, hs.compiler,
      isTracked_congr (hnormal.trans hqp)] at htracked
    exact htracked

/-- On one disk, whatever events there were: if each file that they have to do with is tracked under
the path of its place, then a change of a tracked file succeeds, and afterwards the same files are
tracked, with the same compositions unless one can go in circles from them through several files,
and the bundle has the same text. -/
theorem change_unchanged {o : Options} {extras : Extras} {start : Session}
    (hstart : Session.start fs o extras = .ok start)
    (habsolute : ∀ d, fs.workingDirectory = .ok d → d.isAbsolute = true)
    (hpaths : ∀ r, extras.paths = some r → r.IsExtensional)
    (htransforms : extras.transforms.IsExtensional) (hpure : extras.transforms.IsPure)
    (events : List FileEvent) (file : Path)
    (hall : ∀ p, start.compiler.Involves fs events p → fs.isFile p = true →
      (start.handleAll events).isTracked p = true ∧ start.compiler.IsNormal p)
    (hfile : (start.handleAll events).isTracked file = true) :
    let before := start.handleAll events
    let after := (before.change file).1
    (before.change file).2 = .ok () ∧ before.store.TracksAlike after.store ∧
      (∀ p, fs.isFile p = true → start.compiler.Unwinds fs p →
        before.store.composition? p = after.store.composition? p) ∧
      ∀ place, (before.store.output start.compiler place).2.toOption.map Bundle.css =
        (after.store.output start.compiler place).2.toOption.map Bundle.css := by
  have hc := isExtensional_of_start hstart hpaths htransforms
  have hroot := isAbsolute_root_of_start hstart habsolute
  have hA := start.compiler.encloses_involves fs events
  obtain ⟨hcollects, hempty⟩ : start.compiler.pipeline.CollectsImports ∧
      start.IsIntact start.compiler fs (start.compiler.Involves fs events) := by
    obtain ⟨d, out, -, -, rfl⟩ := start_eq_ok hstart
    exact ⟨.forBuild hpure _ _, rfl, rfl, intact_empty _ _ _⟩
  have hbefore := hempty.handleAll hc hcollects hA hroot events fun e he ↦ .event he
  obtain ⟨hok, hafter, halike⟩ := hbefore.change hc hcollects hA hroot hall hfile
  have hs := hbefore.intact.toFaithful
  have hs' := hafter.intact.toFaithful
  exact ⟨hok, halike, fun p hexists hp ↦ hs.composition?_eq hc hs' halike hexists hp,
    hs.css_output hc hs' halike⟩

/-- Where files are found by namespace, it is enough that all files of the disk are tracked. -/
theorem isTracked_of_involves {c : Compiler} (hc : c.IsRegular) (hfs : c.Suits fs)
    (hkeyed : fs.IsKeyed) {events : List FileEvent}
    (hfiles : ∀ p ∈ fs.files, s.isTracked p = true) (hp : c.Involves fs events p)
    (hexists : fs.isFile p = true) : s.isTracked p = true ∧ c.IsNormal p := by
  have hplace := hp.isPlace hc hfs hexists
  exact ⟨hfiles p (FileSystem.mem_files hkeyed hplace hexists),
    congrArg Path.components (Compiler.absolute_eq hplace)⟩

namespace Sample

/-- Two files compose from each other, and a third one from itself. -/
def ring : FileSystem := disk [
  ("/a.mcss", rule ".x" "" ++ rule ".a" "composes:x;composes:b from './b'"),
  ("/b.mcss", rule ".b" "composes:a from './a'"), ("/c.mcss", rule ".c" "composes:c from './c'")]

theorem isSome_startRing : (Session.start ring options .none).toOption.isSome = true :=
  isSome_start_disk _

def startRing : Session := (Session.start ring options .none).toOption.get isSome_startRing

theorem starts_ring : Starts options .none ring startRing := starts_disk _

def first : List FileEvent := [⟨.init, ⟨"a.mcss"⟩⟩, ⟨.init, ⟨"c.mcss"⟩⟩]

/-- What the files refer to is resolved, and the third one refers to itself only.  All of them are
tracked, and the second one has another composition once it changed. -/
theorem handled_ring :
    (∀ p ∈ ring.files, ∀ r ∈ startRing.compiler.referencesOf ring p,
      (startRing.compiler.resolver.absolute r p (.stylesheet false)).isSome = true) ∧
    (∀ r ∈ startRing.compiler.referencesOf ring ⟨"/c.mcss"⟩,
      startRing.compiler.target ⟨"/c.mcss"⟩ r = ⟨"/c.mcss"⟩) ∧
    (∀ p ∈ ring.files, (startRing.handleAll first).isTracked p = true) ∧
    (startRing.handleAll first).isTracked ⟨"b.mcss"⟩ = true ∧
    ((startRing.handleAll first).change ⟨"b.mcss"⟩).1.store.composition? ⟨"/b.mcss"⟩ ≠
      (startRing.handleAll first).store.composition? ⟨"/b.mcss"⟩ := by
  decide +kernel

theorem isTracked_ring (p : Path) (hp : startRing.compiler.Involves ring first p)
    (hexists : ring.isFile p = true) :
    (startRing.handleAll first).isTracked p = true ∧ startRing.compiler.IsNormal p := by
  obtain ⟨hresolves, -, hfiles, -⟩ := handled_ring
  have hsuits := Compiler.suits_of_files (isKeyed_disk _) (by decide +kernel) hresolves
  exact isTracked_of_involves starts_ring.isRegular hsuits (isKeyed_disk _) hfiles hp hexists

end Sample

/-- A change of the second file of the ring does not change the third one or the bundle. -/
theorem change_unchanged_sample :
    let before := Sample.startRing.handleAll Sample.first
    let after := (before.change ⟨"b.mcss"⟩).1
    (before.change ⟨"b.mcss"⟩).2 = .ok () ∧
      before.store.composition? ⟨"/c.mcss"⟩ = after.store.composition? ⟨"/c.mcss"⟩ ∧
      ∀ place, (before.store.output Sample.startRing.compiler place).2.toOption.map Bundle.css =
        (after.store.output Sample.startRing.compiler place).2.toOption.map Bundle.css := by
  obtain ⟨-, hself, -, htracked, -⟩ := Sample.handled_ring
  have hunwinds : Sample.startRing.compiler.Unwinds Sample.ring ⟨"/c.mcss"⟩ := by
    have hloop : ∀ q, ReflTransGen (Sample.startRing.compiler.ComposesFrom Sample.ring)
        ⟨"/c.mcss"⟩ q → q = ⟨"/c.mcss"⟩ := by
      intro q hq
      induction hq with
      | refl => rfl
      | tail _ hlast ih =>
        subst ih
        obtain ⟨b, hb, hq⟩ := hlast
        obtain ⟨r, hr, rfl⟩ := List.mem_map.1 hq
        exact hself r (Compiler.referencesOf_eq hb ▸ hr)
    intro p q r hp hpq _ _
    rw [hloop p hp, hloop q (hp.trans hpq)]
    rfl
  obtain ⟨hok, -, hcomposition, hcss⟩ := change_unchanged Sample.starts_ring.start
    Sample.starts_ring.isAbsolute (by simp [Extras.none]) Pipeline.IsExtensional.empty
    Pipeline.isPure_empty Sample.first ⟨"b.mcss"⟩ Sample.isTracked_ring htracked
  exact ⟨hok, hcomposition _ (by decide +kernel) hunwinds, hcss⟩

namespace Sample

/-- The second file is found under a path that does not denote its place. -/
def astray : FileSystem := disk [
  ("/a.mcss", rule ".a" "composes:b from 'n::b.css'"),
  ("/n::b.css", rule ".b" "composes:c from '/c.mcss'"), ("/c.mcss", "")]

theorem isSome_startAstray : (Session.start astray options .none).toOption.isSome = true :=
  isSome_start_disk _

def startAstray : Session := (Session.start astray options .none).toOption.get isSome_startAstray

end Sample

/-- Composing in circles, a file expands to more names if it is compiled first; and a file that is
tracked under a path that does not denote its place is tracked again under the path of its place. -/
theorem change_unchanged_fails :
    ((∀ p ∈ Sample.ring.files, (Sample.startRing.handleAll Sample.first).isTracked p = true) ∧
      ((Sample.startRing.handleAll Sample.first).change ⟨"b.mcss"⟩).1.store.composition?
          ⟨"/b.mcss"⟩ ≠
        (Sample.startRing.handleAll Sample.first).store.composition? ⟨"/b.mcss"⟩) ∧
    ((∀ p ∈ Sample.astray.files,
        ∃ q ∈ (Sample.startAstray.handleAll Sample.first).store.modules.keys,
          Sample.astray.location? q = Sample.astray.location? p) ∧
      (Sample.startAstray.handleAll Sample.first).store.isTracked ⟨"/n::b.css"⟩ = false ∧
      ((Sample.startAstray.handleAll Sample.first).change ⟨"c.mcss"⟩).1.store.isTracked
        ⟨"/n::b.css"⟩ = true) := by
  obtain ⟨-, -, hfiles, -, hcomposition⟩ := Sample.handled_ring
  exact ⟨⟨hfiles, hcomposition⟩, by decide +kernel⟩

end Session

end StyleModules
