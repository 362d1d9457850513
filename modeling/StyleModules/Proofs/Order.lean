import StyleModules.Proofs.Agreement
import StyleModules.Proofs.Provenance

/-!
# The order of the first events

Where no file comes back to itself by composing, an attempt at a file comes out the same whatever
was tracked before, and adds the same files to those that are tracked.  So it does not matter in
which order the files of a project are met: the same files end up tracked, with the same modules,
and the same files fail in the same way.
-/

namespace StyleModules

open Relation ModuleStore

/-- From a file one never comes to the same file twice by following what files compose from, in
whatever way their paths are written. -/
def Compiler.IsCycleFree (c : Compiler) (fs : FileSystem) (p : Path) : Prop :=
  ∀ x y, ReflTransGen (c.ComposesFrom fs) p x → TransGen (c.ComposesFrom fs) x y →
    ¬ fs.SameFile x y

/-- Where files are found by namespace it is enough that no place composes from itself. -/
theorem Compiler.Suits.isCycleFree {c : Compiler} {fs : FileSystem} (hc : c.IsRegular)
    (hfs : c.Suits fs) (hacyclic : c.IsAcyclic fs) {p : Path} (hp : p.IsPlace) :
    c.IsCycleFree fs p := by
  have hplace : ∀ x, ReflTransGen (c.ComposesFrom fs) p x → fs.isFile x = true → x.IsPlace := by
    intro x hx
    induction hx with
    | refl => exact fun _ ↦ hp
    | tail _ hlast ih => exact fun hexists ↦ hlast.isPlace hc hfs (ih hlast.isFile) hexists
  intro x y hx hxy hsame
  have hxPlace := hplace x hx hsame.left
  obtain rfl := hsame.eq_of_isPlace hxPlace (hplace y (hx.trans hxy.to_reflTransGen) hsame.right)
  exact hacyclic x hxPlace hxy

namespace ModuleStore

variable {c : Compiler} {fs : FileSystem} {A : Path → Prop} {s s' : ModuleStore} {file p q : Path}

/-- A faithful store that tracks all that tracked files compose from. -/
structure Complete (c : Compiler) (fs : FileSystem) (A : Path → Prop) (s : ModuleStore) : Prop
    extends Faithful c fs A s where
  closed : ∀ p q, s.isTracked p = true → c.ComposesFrom fs p q → s.isTracked q = true

theorem complete_empty (c : Compiler) (fs : FileSystem) (A : Path → Prop) :
    Complete c fs A empty where
  toFaithful := faithful_empty c fs A
  closed p q h := by simp [isTracked_eq, empty] at h

namespace Complete

theorem withJournal (hs : Complete c fs A s) (journal : Journal) :
    Complete c fs A { s with journal := journal } :=
  ⟨hs.toFaithful.withJournal journal, hs.closed⟩

/-- A file that a tracked file composes from exists and is tracked. -/
theorem target (hc : c.IsExtensional) (hs : Complete c fs A s) (hp : s.isTracked p = true)
    (h : c.ComposesFrom fs p q) : fs.isFile q = true ∧ s.isTracked q = true :=
  ⟨(hs.compiles hc hp h.isFile).isFile h, hs.closed p q hp h⟩

/-- A tracked file unwinds. -/
theorem unwinds (hc : c.IsExtensional) (hA : c.Passes fs A)
    (hfree : ∀ x y, A x → TransGen (c.ComposesFrom fs) x y → ¬ fs.SameFile x y)
    (hs : Complete c fs A s) (hfile : A file) (hexists : fs.isFile file = true)
    (htracked : s.isTracked file = true) : c.Unwinds fs file := by
  have hreach : ∀ x, ReflTransGen (c.ComposesFrom fs) file x →
      A x ∧ fs.isFile x = true ∧ s.isTracked x = true := by
    intro x hx
    induction hx with
    | refl => exact ⟨hfile, hexists, htracked⟩
    | tail _ hlast ih =>
      obtain ⟨hx, -, hxTracked⟩ := ih
      obtain ⟨hexists, htracked⟩ := hs.target hc hxTracked hlast
      exact ⟨hA hx hlast hexists, hexists, htracked⟩
  intro x y z hx hxy hyz hsame
  rcases reflTransGen_iff_eq_or_transGen.1 hxy with rfl | hxy
  · rfl
  · obtain ⟨hxAllowed, hxFile, -⟩ := hreach x hx
    have hxz := hxy.trans_left hyz
    obtain ⟨-, hzFile, -⟩ := hreach z (hx.trans hxz.to_reflTransGen)
    exact absurd (FileSystem.sameFile_of_same hsame.symm hxFile hzFile) (hfree x z hxAllowed hxz)

/-- Complete stores that track the same files hold the same modules. -/
theorem agree (hc : c.IsExtensional) (hA : c.Passes fs A)
    (hfree : ∀ x y, A x → TransGen (c.ComposesFrom fs) x y → ¬ fs.SameFile x y)
    (hs : Complete c fs A s) (hs' : Complete c fs A s') (h : s.TracksAlike s') : s.Agree s' := by
  refine ⟨h, fun p m m' hm hm' ↦ ?_⟩
  obtain ⟨q, b, hqp, hq, hmade⟩ := hs.made p m hm
  have hexists := Compiler.isFile_of_blueprint hmade.blueprint
  rw [← PathMap.get?_congr hqp] at hm hm'
  have hunwinds := hs.unwinds hc hA hfree hq hexists (by rw [isTracked_eq, hm, Option.isSome_some])
  obtain ⟨n, hn, hsame⟩ := hs.compiled hc hm hexists hunwinds
  obtain ⟨n', hn', hsame'⟩ := hs'.compiled hc hm' hexists hunwinds
  exact hsame.trans ((hn.unique hc rfl hn').trans hsame'.symm)

end Complete

/-! ## Runs that come out the same from every store -/

/-- From every complete store a run leads to a complete store, comes out as `o` and adds the files
`new` to those that are tracked. -/
def Adds (c : Compiler) (fs : FileSystem) (A : Path → Prop) {α : Type}
    (run : ModuleStore → Outcome α) (o : Except Fault α) (new : Path → Prop) : Prop :=
  ∀ s, Complete c fs A s → Complete c fs A (run s).1 ∧ (run s).2 = o ∧
    ∀ p, (run s).1.isTracked p = true ↔ s.isTracked p = true ∨ new p

theorem adds_pure {α : Type} (o : Except Fault α) :
    Adds c fs A (fun s ↦ (s, o)) o fun _ ↦ False :=
  fun _ hs ↦ ⟨hs, rfl, fun _ ↦ (iff_of_eq (or_false _)).symm⟩

/-- Goes on with another run where one succeeds. -/
def andThen {α β : Type} (run : ModuleStore → Outcome α) (next : α → ModuleStore → Outcome β)
    (s : ModuleStore) : Outcome β :=
  match run s with
  | (s, .error fault) => (s, .error fault)
  | (s, .ok a) => next a s

theorem Adds.andThen {α β : Type} {run : ModuleStore → Outcome α} {o : Except Fault α}
    {new : Path → Prop} (h : Adds c fs A run o new) {next : α → ModuleStore → Outcome β}
    (hnext : ∀ a, o = .ok a → ∃ o' new', Adds c fs A (next a) o' new') :
    ∃ o' new', Adds c fs A (andThen run next) o' new' := by
  have hrun : ∀ s, Complete c fs A s → run s = ((run s).1, o) := fun s hs ↦
    Prod.ext rfl (h s hs).2.1
  cases o with
  | error fault =>
    refine ⟨.error fault, new, fun s hs ↦ ?_⟩
    obtain ⟨hs₁, -, htracked⟩ := h s hs
    rw [ModuleStore.andThen, hrun s hs]
    exact ⟨hs₁, rfl, htracked⟩
  | ok a =>
    obtain ⟨o', new', hrest⟩ := hnext a rfl
    refine ⟨o', fun p ↦ new p ∨ new' p, fun s hs ↦ ?_⟩
    obtain ⟨hs₁, -, htracked⟩ := h s hs
    obtain ⟨hs₂, hout₂, htracked₂⟩ := hrest _ hs₁
    rw [ModuleStore.andThen, hrun s hs]
    exact ⟨hs₂, hout₂, fun p ↦ by rw [htracked₂, htracked, or_assoc]⟩

/-- What holds of tracking each file that references stand for holds of tracking all of them. -/
theorem trackReferences_adds (track : Path → ModuleStore → Outcome Unit) (rs : List String)
    (htrack : ∀ r ∈ rs, fs.isFile (c.target file r) = true →
      ∃ o new, Adds c fs A (track (c.target file r)) o new) (found : List (String × Path)) :
    ∃ o new, Adds c fs A (trackReferences c fs track file rs found) o new := by
  induction rs generalizing found with
  | nil => exact ⟨_, _, adds_pure (.ok found)⟩
  | cons r rs ih =>
    obtain ⟨hr, hrest⟩ := List.forall_mem_cons.1 htrack
    by_cases hknown : (found.lookup r).isSome = true
    · have hskip : trackReferences c fs track file (r :: rs) found =
          trackReferences c fs track file rs found := funext fun s ↦ by
        rw [trackReferences, if_pos hknown]
      exact hskip ▸ ih hrest found
    · cases hresolve : c.resolve fs file r with
      | error fault =>
        have hstop : trackReferences c fs track file (r :: rs) found =
            fun s ↦ (s, .error fault) := funext fun s ↦ by
          rw [trackReferences, if_neg hknown, hresolve]
        exact hstop ▸ ⟨_, _, adds_pure (.error fault)⟩
      | ok target =>
        obtain ⟨rfl, hexists⟩ := Compiler.resolve_eq_ok.1 hresolve
        obtain ⟨o, new, hfirst⟩ := hr hexists
        have hgo : trackReferences c fs track file (r :: rs) found =
            andThen (track (c.target file r)) fun _ ↦
              trackReferences c fs track file rs (found ++ [(r, c.target file r)]) := by
          funext s
          simp only [trackReferences, hknown, hresolve, Bool.false_eq_true, if_false, andThen]
          rcases track (c.target file r) s with ⟨s₁, fault | u⟩ <;> rfl
        rw [hgo]
        exact hfirst.andThen fun _ _ ↦ ih hrest _

/-- Nothing is done for references to tracked files. -/
theorem trackReferences_of_isTracked {track : Path → ModuleStore → Outcome Unit}
    {rs : List String} (hexists : ∀ r ∈ rs, fs.isFile (c.target file r) = true)
    (htrack : ∀ r ∈ rs, track (c.target file r) s = (s, .ok ())) (found : List (String × Path)) :
    ∃ files, trackReferences c fs track file rs found s = (s, .ok files) := by
  induction rs generalizing found with
  | nil => exact ⟨found, rfl⟩
  | cons r rs ih =>
    obtain ⟨hr, hrs⟩ := List.forall_mem_cons.1 hexists
    obtain ⟨hfirst, hrest⟩ := List.forall_mem_cons.1 htrack
    unfold trackReferences
    split
    next => exact ih hrs hrest found
    next =>
      rw [Compiler.resolve_eq_ok.2 ⟨rfl, hr⟩]
      simp only [hfirst]
      exact ih hrs hrest _

theorem trackFrom_of_isTracked (limit : Nat) (started : List Path) (h : s.isTracked p = true) :
    trackFrom c fs (limit + 1) started p s = (s, .ok ()) := by
  rw [trackFrom, h, Bool.true_or, if_pos rfl]

/-- A file that others lead to is none of them. -/
theorem not_isAmong_of_leads {started : List Path}
    (hfree : ∀ x y, A x → TransGen (c.ComposesFrom fs) x y → ¬ fs.SameFile x y)
    (hstarted : ∀ x ∈ started, A x ∧ TransGen (c.ComposesFrom fs) x file)
    (hreadable : ∀ q : Path, q.Same file → fs.isFile q = true → fs.isFile file = true) :
    ¬ file.isAmong started = true := by
  intro hamong
  obtain ⟨x, hx, hsame⟩ := Path.isAmong_iff.1 hamong
  obtain ⟨hxAllowed, hleads⟩ := hstarted x hx
  obtain ⟨y, hxy, -⟩ := TransGen.head'_iff.1 hleads
  exact hfree x file hxAllowed hleads
    (FileSystem.sameFile_of_same hsame hxy.isFile (hreadable x hsame hxy.isFile))

/-- Where the references of a tracked file lead, nothing is left to do. -/
theorem Complete.trackReferences_eq (hc : c.IsExtensional) (hs : Complete c fs A s)
    (htracked : s.isTracked file = true) {b : Blueprint} (hb : c.blueprint fs file = .ok b)
    (limit : Nat) (started : List Path) :
    ∃ files, trackReferences c fs (trackFrom c fs (limit + 1) started) file
      (references b.composes) [] s = (s, .ok files) := by
  have htarget : ∀ r ∈ references b.composes,
      fs.isFile (c.target file r) = true ∧ s.isTracked (c.target file r) = true := fun r hr ↦
    hs.target hc htracked ⟨b, hb, List.mem_map.2 ⟨r, hr, rfl⟩⟩
  exact trackReferences_of_isTracked (fun r hr ↦ (htarget r hr).1)
    (fun r hr ↦ trackFrom_of_isTracked limit started (htarget r hr).2) []

/-- A file that can be compiled to its end is tracked in the end. -/
theorem Complete.finish (hc : c.IsExtensional) (hs : Complete c fs A s) (hfile : A file)
    {draft : Draft} (hb : c.blueprint fs file = .ok (.ofDraft draft)) {started : List Path}
    (hstarted : ∀ x ∈ started, ReflTransGen (c.ComposesFrom fs) x file)
    {files : List (String × Path)} (hfound : Gathered c fs file (.ofDraft draft)
      (fun q ↦ s.isTracked q = true ∨ q.isAmong (file :: started) = true) files)
    (hall : ∀ r ∈ references draft.composes, (files.lookup r).isSome = true)
    (hapart : ∀ q, c.ComposesFrom fs file q → fs.isFile q = true →
      ¬ q.isAmong (file :: started) = true)
    (huntracked : s.isTracked file = false) (hnew : ¬ file.isAmong started = true) :
    let run := ModuleStore.finish c file draft files s
    Complete c fs A run.1 ∧
      run.2 = (c.assemble file (.ofDraft draft) fun _ ↦ none).map (fun _ ↦ ()) ∧
      ∀ p : Path, run.1.isTracked p = true ↔
        s.isTracked p = true ∨ (p.Same file ∧ run.2 = .ok ()) := by
  have hlookup := hfound.lookup_eq hall
  have hprogress := hs.toFaithful.finish hc hfile hb hstarted hfound hall huntracked hnew
  have htargets : ∀ q, c.ComposesFrom fs file q → s.isTracked q = true := by
    rintro q ⟨b, hb', hq⟩
    obtain rfl := Except.ok.inj (hb.symm.trans hb')
    obtain ⟨r, hr, rfl⟩ := List.mem_map.1 hq
    obtain ⟨-, -, hexists, hdone⟩ := hfound _ (mem_of_lookup (hlookup r hr))
    exact hdone.resolve_right (hapart _ ⟨_, hb, hq⟩ hexists)
  obtain ⟨journal, heq⟩ := Compiler.finish_eq_assemble hc.pipeline.isDetermined draft hlookup s
  have houtcome := c.assemble_outcome file (.ofDraft draft) s.composition? fun _ ↦ none
  intro run
  change Progresses c fs A started file s run at hprogress
  change run = _ at heq
  rw [← houtcome]
  cases hassemble : c.assemble file (.ofDraft draft) s.composition? with
  | error fault =>
    rw [hassemble] at heq
    refine ⟨⟨hprogress.faithful, fun p q hp hpq ↦ ?_⟩, by rw [heq]; rfl, fun p ↦ by simp [heq]; rfl⟩
    rw [heq] at hp ⊢
    exact hs.closed p q hp hpq
  | ok m =>
    rw [hassemble] at heq
    have htracked : ∀ p : Path, run.1.isTracked p = true ↔ s.isTracked p = true ∨ p.Same file := by
      intro p
      rw [heq, isTracked_eq, isTracked_eq]
      by_cases hp : p.components = file.components
      · have hself := hs.modules.get?_insert_self (p := file) m
        rw [PathMap.get?_congr hp, hself]
        simp [Path.Same, hp]
      · rw [PathMap.get?_insert_of_ne hp]
        simp [Path.Same, hp]
    refine ⟨⟨hprogress.faithful, fun p q hp hpq ↦ (htracked q).2 (.inl ?_)⟩, by rw [heq]; rfl,
      fun p ↦ by simpa [heq] using htracked p⟩
    rcases (htracked p).1 hp with hp | hp
    · exact hs.closed p q hp hpq
    · exact htargets q (hpq.same hc hp (Compiler.isFile_of_blueprint hb))

/-- If tracking the files that a file composes from comes out the same from every store, then so does
tracking the file. -/
theorem Adds.trackFrom (hc : c.IsExtensional) (hA : c.Passes fs A) (hfile : A file)
    {b : Blueprint} (hb : c.blueprint fs file = .ok b) {started : List Path}
    (hstarted : ∀ x ∈ started, ReflTransGen (c.ComposesFrom fs) x file)
    (hapart : ∀ q, c.ComposesFrom fs file q → fs.isFile q = true →
      ¬ q.isAmong (file :: started) = true)
    (hnew : ¬ file.isAmong started = true) {limit : Nat} {o : Except Fault (List (String × Path))}
    {new : Path → Prop} (hrefs : Adds c fs A (trackReferences c fs
      (trackFrom c fs (limit + 1) (file :: started)) file (references b.composes) []) o new) :
    ∃ o' new', Adds c fs A (ModuleStore.trackFrom c fs (limit + 1 + 1) started file) o' new' := by
  let finished := (c.assemble file b fun _ ↦ none).map fun _ ↦ ()
  let result := o.bind fun _ ↦ finished
  refine ⟨result, fun p ↦ new p ∨ (p.Same file ∧ result = .ok ()), fun s hs ↦ ?_⟩
  by_cases htracked : s.isTracked file = true
  · -- A tracked file compiles, and what it composes from was tracked with it.
    obtain ⟨files, hskip⟩ := hs.trackReferences_eq hc htracked hb limit (file :: started)
    obtain ⟨-, hout, hnewTracked⟩ := hrefs s hs
    rw [hskip] at hout hnewTracked
    obtain ⟨b', hb', -, hassemble⟩ := hs.compiles hc htracked (Compiler.isFile_of_blueprint hb)
    obtain rfl := Except.ok.inj (hb.symm.trans hb')
    obtain ⟨m, hm⟩ := hassemble fun _ ↦ none
    have hresult : result = .ok () := by simp only [result, finished, ← hout, hm]; rfl
    rw [trackFrom_of_isTracked _ _ htracked]
    refine ⟨hs, hresult.symm, fun p ↦ ⟨.inl, fun h ↦ h.elim id fun h ↦ h.elim (fun h ↦ ?_) ?_⟩⟩
    · exact (hnewTracked p).2 (.inr h)
    · exact fun h ↦ (isTracked_congr h.1 s).trans htracked
  · rw [Bool.not_eq_true] at htracked
    obtain ⟨journal, draft, -, rfl, hrun⟩ :=
      trackFrom_of_blueprint_ok hc hb (limit + 1) htracked hnew
    obtain ⟨hs₁, hout, hadded⟩ := hrefs _ (hs.withJournal journal)
    obtain ⟨-, hextend, hok⟩ := (hs.toFaithful.withJournal journal).trackReferences hb
      (ModuleStore.trackFrom c fs (limit + 1) (file :: started))
      fun q s' hq hexists hs' ↦ Faithful.trackFrom hc hA (limit + 1) (hA hfile hq hexists)
        (List.forall_mem_cons.2 ⟨ReflTransGen.single hq, fun p hp ↦ (hstarted p hp).tail hq⟩) hs'
    rw [hrun]
    rcases hres : trackReferences c fs (ModuleStore.trackFrom c fs (limit + 1) (file :: started)) file
      (references (Blueprint.ofDraft draft).composes) [] { s with journal := journal }
      with ⟨s₁, fault | files⟩
    all_goals
      rw [hres] at hs₁ hout hadded hextend hok
      have hresult : result = o.bind fun _ ↦ finished := rfl
      rw [← hout] at hresult
    · rw [hresult]
      exact ⟨hs₁, rfl, fun p ↦ (hadded p).trans (by simp [Except.bind]; rfl)⟩
    · obtain ⟨hfound, hall⟩ := hok files rfl
      have huntracked : s₁.isTracked file = false :=
        (hextend.apart file (Path.isAmong_of_mem List.mem_cons_self)).trans htracked
      obtain ⟨hs₂, hout₂, hadded₂⟩ := hs₁.finish hc hfile hb hstarted hfound hall hapart huntracked hnew
      have hfinished : (finish c file draft files s₁).2 = result := hout₂.trans hresult.symm
      refine ⟨hs₂, hfinished, fun p ↦ (hadded₂ p).trans ?_⟩
      rw [hadded p, hfinished, or_assoc]
      rfl

/-- An attempt at a file comes out the same from every complete store. -/
theorem trackFrom_adds (hc : c.IsExtensional) (hA : c.Passes fs A)
    (hfree : ∀ x y, A x → TransGen (c.ComposesFrom fs) x y → ¬ fs.SameFile x y) (limit : Nat)
    {started : List Path} (hfile : A file)
    (hreadable : ∀ q : Path, q.Same file → fs.isFile q = true → fs.isFile file = true)
    (hstarted : ∀ x ∈ started, A x ∧ TransGen (c.ComposesFrom fs) x file)
    (hdifferent : started.Pairwise fun p q ↦ ¬ fs.SameFile p q)
    (hlimit : fs.chainLimit ≤ limit + started.length) :
    ∃ o new, Adds c fs A (trackFrom c fs limit started file) o new := by
  have hfiles : ∀ x ∈ started, fs.isFile x = true := fun x hx ↦ by
    obtain ⟨y, hxy, -⟩ := TransGen.head'_iff.1 (hstarted x hx).2
    exact hxy.isFile
  have hlt := FileSystem.length_lt_chainLimit_of_pairwise hfiles hdifferent
  induction limit generalizing started file with
  | zero => omega
  | succ limit ih =>
    have hnew := not_isAmong_of_leads hfree hstarted hreadable
    have hcompiles : ∀ s, Complete c fs A s → s.isTracked file = true → c.Compiles fs file := by
      intro s hs htracked
      refine hs.compiles hc htracked ?_
      rw [isTracked_eq] at htracked
      obtain ⟨m, hm⟩ := Option.isSome_iff_exists.1 htracked
      obtain ⟨q, b, hq, -, hmade⟩ := hs.made file m hm
      exact hreadable q hq (Compiler.isFile_of_blueprint hmade.blueprint)
    cases hb : c.blueprint fs file with
    | error fault =>
      refine ⟨.error fault, fun _ ↦ False, fun s hs ↦ ?_⟩
      have huntracked : s.isTracked file = false := by
        rw [← Bool.not_eq_true]
        intro htracked
        obtain ⟨b, hb', -⟩ := hcompiles s hs htracked
        simp [hb] at hb'
      obtain ⟨journal, hrun⟩ := trackFrom_of_blueprint_error hc hb limit huntracked hnew
      rw [hrun]
      exact ⟨hs.withJournal journal, rfl, fun p ↦ (iff_of_eq (or_false _)).symm⟩
    | ok b =>
      have hexists := Compiler.isFile_of_blueprint hb
      have hstarted' : ∀ q, c.ComposesFrom fs file q → ∀ x ∈ file :: started,
          A x ∧ TransGen (c.ComposesFrom fs) x q := fun q hq ↦
        List.forall_mem_cons.2 ⟨⟨hfile, TransGen.single hq⟩,
          fun x hx ↦ ⟨(hstarted x hx).1, (hstarted x hx).2.tail hq⟩⟩
      have hdifferent' : (file :: started).Pairwise fun p q ↦ ¬ fs.SameFile p q :=
        List.pairwise_cons.2 ⟨fun x hx hsame ↦
          hfree x file (hstarted x hx).1 (hstarted x hx).2 hsame.symm, hdifferent⟩
      have hfiles' : ∀ x ∈ file :: started, fs.isFile x = true :=
        List.forall_mem_cons.2 ⟨hexists, hfiles⟩
      have hlt' := FileSystem.length_lt_chainLimit_of_pairwise hfiles' hdifferent'
      obtain ⟨o, new, hrefs⟩ := trackReferences_adds (A := A)
        (trackFrom c fs limit (file :: started)) (references b.composes)
        (fun r hr hexists ↦ by
          have hcomposes : c.ComposesFrom fs file (c.target file r) :=
            ⟨b, hb, List.mem_map.2 ⟨r, hr, rfl⟩⟩
          exact ih (hA hfile hcomposes hexists) (fun _ _ _ ↦ hexists) (hstarted' _ hcomposes)
            hdifferent' (by rw [List.length_cons]; omega) hfiles' hlt') []
      obtain ⟨l, rfl⟩ : ∃ l, limit = l + 1 := by
        rw [List.length_cons] at hlt'
        exact Nat.exists_eq_succ_of_ne_zero (by omega)
      exact hrefs.trackFrom hc hA hfile hb (fun x hx ↦ (hstarted x hx).2.to_reflTransGen)
        (fun q hq hexists ↦ not_isAmong_of_leads hfree (hstarted' q hq) fun _ _ _ ↦ hexists) hnew

/-- An event about a file that stays comes out the same from every complete store. -/
theorem track_adds (hc : c.IsExtensional) (hA : c.Passes fs A)
    (hfree : ∀ x y, A x → TransGen (c.ComposesFrom fs) x y → ¬ fs.SameFile x y)
    (hfile : A (c.absolute file)) : ∃ o new, Adds c fs A (track c fs file) o new :=
  trackFrom_adds hc hA hfree fs.chainLimit hfile
    (fun _ hq hexists ↦ FileSystem.isFile_of_isPlain (Path.isPlain_normalize _) hq.symm hexists)
    (List.forall_mem_nil _) List.Pairwise.nil (Nat.le_refl _)

end ModuleStore

/-! ## Sessions that agree -/

/-- Two reports tell of the same failures and the same bundle. -/
structure BatchReport.Agree (r r' : BatchReport) : Prop where
  processed : r.processed = r'.processed
  failures : r.failures.Perm r'.failures
  bundle : r.bundle = r'.bundle

namespace Session

variable {s s' : Session}

/-- Two sessions differ only in what transforms wrote down, and in how files are written that denote
the same. -/
structure Agree (s s' : Session) : Prop where
  eq : s' = { s with store := s'.store }
  store : s.store.Agree s'.store

/-- Sessions that agree write the same bundle. -/
theorem Agree.writeBundle {A : Path → Prop} (h : s.Agree s') (hc : s.compiler.IsExtensional)
    (hs : Faithful s.compiler s.fs A s.store) (hs' : Faithful s.compiler s.fs A s'.store) :
    s.writeBundle.1.Agree s'.writeBundle.1 ∧
      s.writeBundle.2.toOption = s'.writeBundle.2.toOption := by
  have hout := hs.output_eq hc hs' h.store (s.outputDirectory.join ⟨bundleName⟩)
  have hstore : (output s.compiler (s.outputDirectory.join ⟨bundleName⟩) s.store).1.Agree
      (output s.compiler (s.outputDirectory.join ⟨bundleName⟩) s'.store).1 := by
    obtain ⟨journal, hjournal⟩ := output_fst s.compiler _ s.store
    obtain ⟨journal', hjournal'⟩ := output_fst s.compiler _ s'.store
    rw [hjournal, hjournal']
    exact ⟨h.store.tracked, h.store.modules⟩
  rw [h.eq]
  unfold Session.writeBundle
  dsimp only
  generalize output s.compiler (s.outputDirectory.join ⟨bundleName⟩) s.store = o at hout hstore ⊢
  generalize output s.compiler (s.outputDirectory.join ⟨bundleName⟩) s'.store = o' at hout hstore ⊢
  obtain ⟨store, fault | bundle⟩ := o <;> obtain ⟨store', fault' | bundle'⟩ := o' <;>
  simp only [Except.toOption, reduceCtorEq, Option.some.injEq] at hout hstore
  · exact ⟨⟨rfl, hstore⟩, rfl⟩
  · subst hout
    exact ⟨⟨rfl, hstore⟩, rfl⟩

theorem Agree.writeMaps (h : s.Agree s') : s.writeMaps.1.Agree s'.writeMaps.1 ∧
    s.writeMaps.2 = s'.writeMaps.2 := by
  rw [h.eq]
  exact ⟨⟨rfl, h.store⟩, rfl⟩

/-- What is done with a batch once its events are handled. -/
def ship (state : Session × BatchReport) : Outcome BatchReport :=
  match state.1.writeBundle with
  | (s, .error fault) => (s, .error fault)
  | (s, .ok written) =>
    match s.writeMaps with
    | (s, some fault) => (s, .error fault)
    | (s, none) => (s, .ok { state.2 with bundle := written })

theorem process_eq_ship (s : Session) (events : List FileEvent) :
    s.process events = ship (events.foldl handleInBatch (s, .empty)) := rfl

theorem ship_store (s : Session) (report : BatchReport) : ∃ journal : Journal,
    (ship (s, report)).1.store = ⟨s.store.graph, s.store.modules, journal⟩ := by
  obtain ⟨fs, maps, journal, hwritten⟩ := fst_writeBundle s
  replace hwritten := congrArg Session.store hwritten
  refine ⟨journal, ?_⟩
  unfold ship
  rcases hrun : s.writeBundle with ⟨t, fault | written⟩
  · simp only [hrun] at hwritten ⊢
    exact hwritten
  · have hstore : t.writeMaps.1.store = t.store := rfl
    simp only [hrun] at hwritten ⊢
    rcases hmaps : t.writeMaps with ⟨u, _ | fault⟩ <;> rw [hmaps] at hstore <;>
    exact hstore.trans hwritten

/-- Sessions that agree ship the same, and are left with stores that have the same bundle. -/
theorem Agree.ship {A : Path → Prop} (h : s.Agree s') (hc : s.compiler.IsExtensional)
    (hs : Faithful s.compiler s.fs A s.store) (hs' : Faithful s.compiler s.fs A s'.store)
    {r r' : BatchReport} (hr : r.Agree r') :
    (ship (s, r)).1.Agree (ship (s', r')).1 ∧
      Option.Rel BatchReport.Agree (ship (s, r)).2.toOption (ship (s', r')).2.toOption ∧
      ∀ place, ((ship (s, r)).1.store.output s.compiler place).2.toOption =
        ((ship (s', r')).1.store.output s.compiler place).2.toOption := by
  have hshipped : (Session.ship (s, r)).1.Agree (Session.ship (s', r')).1 ∧
      Option.Rel BatchReport.Agree (Session.ship (s, r)).2.toOption
        (Session.ship (s', r')).2.toOption := by
    obtain ⟨hwritten, hbundle⟩ := h.writeBundle hc hs hs'
    unfold Session.ship
    rcases hrun : s.writeBundle with ⟨t, fault | written⟩ <;>
    rcases hrun' : s'.writeBundle with ⟨t', fault' | written'⟩ <;>
    simp only [hrun, hrun', Except.toOption, reduceCtorEq, Option.some.injEq] at hwritten hbundle ⊢
    · exact ⟨hwritten, .none⟩
    · obtain ⟨hmaps, hfault⟩ := hwritten.writeMaps
      rcases hrun : t.writeMaps with ⟨u, _ | fault⟩ <;>
      rcases hrun' : t'.writeMaps with ⟨u', _ | fault'⟩ <;>
      simp only [hrun, hrun', reduceCtorEq] at hmaps hfault ⊢
      · exact ⟨hmaps, .some ⟨hr.processed, hr.failures, hbundle⟩⟩
      · exact ⟨hmaps, .none⟩
  refine ⟨hshipped.1, hshipped.2, fun place ↦ ?_⟩
  obtain ⟨journal, hjournal⟩ := ship_store s r
  obtain ⟨journal', hjournal'⟩ := ship_store s' r'
  have hstores := hshipped.1.store
  rw [hjournal, hjournal'] at hstores ⊢
  exact (hs.withJournal journal).output_eq hc (hs'.withJournal journal') hstores place

/-! ## Events about files that stay -/

/-- What a batch reports about an event that comes out as `o`. -/
def failure? (s : Session) (e : FileEvent) (o : Except Fault Unit) : Option FileFailure :=
  match o with
  | .ok _ => none
  | .error fault => if s.options.handles e.file then some ⟨e.file, fault.report⟩ else none

/-- What files add to a store and how they fail is gathered event by event. -/
theorem foldl_handleInBatch {A : Path → Prop} {o : FileEvent → Except Fault Unit}
    {new : FileEvent → Path → Prop} {events : List FileEvent}
    (hinit : ∀ e ∈ events, e.change = .init)
    (hadds : ∀ e ∈ events, Adds s.compiler s.fs A (ModuleStore.track s.compiler s.fs e.file)
      (o e) (new e))
    (hs : Complete s.compiler s.fs A s.store) (report : BatchReport) :
    ∃ store, events.foldl handleInBatch (s, report) =
        ({ s with store := store }, { report with
          processed := report.processed + events.countP fun e ↦ s.options.handles e.file
          failures := report.failures ++ events.filterMap fun e ↦ s.failure? e (o e) }) ∧
      Complete s.compiler s.fs A store ∧ ∀ p, store.isTracked p = true ↔
        s.store.isTracked p = true ∨ ∃ e ∈ events, s.options.handles e.file = true ∧ new e p := by
  induction events generalizing s report with
  | nil => exact ⟨s.store, by simp, hs, by simp⟩
  | cons e events ih =>
    obtain ⟨hchange, hinit⟩ := List.forall_mem_cons.1 hinit
    obtain ⟨hfirst, hadds⟩ := List.forall_mem_cons.1 hadds
    have hfailures : (e :: events).filterMap (fun e ↦ s.failure? e (o e)) =
        (s.failure? e (o e)).toList ++ events.filterMap fun e ↦ s.failure? e (o e) := by
      rw [List.filterMap_cons]
      cases s.failure? e (o e) <;> rfl
    rw [List.foldl_cons]
    by_cases hhandles : s.options.handles e.file = true
    · obtain ⟨hs₁, hout, hadded⟩ := hfirst s.store hs
      have hstep : handleInBatch (s, report) e = ((s.track e.file).1, { report with
          processed := report.processed + 1
          failures := report.failures ++ (s.failure? e (o e)).toList }) := by
        unfold handleInBatch handle
        simp only [hhandles, hchange]
        rw [← hout]
        unfold Session.track
        rcases ModuleStore.track s.compiler s.fs e.file s.store with ⟨store, fault | u⟩
        · simp [failure?, hhandles]
        · simp [failure?]
      obtain ⟨store, heq, hstore, htracked⟩ := ih (s := (s.track e.file).1) hinit hadds hs₁
        { report with
          processed := report.processed + 1
          failures := report.failures ++ (s.failure? e (o e)).toList }
      refine ⟨store, ?_, hstore, fun p ↦ (htracked p).trans ?_⟩
      · have hcount : (e :: events).countP (fun e ↦ s.options.handles e.file) =
            events.countP (fun e ↦ s.options.handles e.file) + 1 :=
          List.countP_cons_of_pos hhandles
        rw [hstep, heq, hcount, hfailures, ← Nat.add_assoc, Nat.add_right_comm, ← List.append_assoc]
        rfl
      · rw [List.exists_mem_cons_iff, and_iff_right hhandles, ← or_assoc]
        exact or_congr_left (hadded p)
    · have hstep : handleInBatch (s, report) e = (s, report) := by
        unfold handleInBatch
        simp [hhandles]
      have hnone : s.failure? e (o e) = none := by
        unfold failure?
        split
        next => rfl
        next => rw [if_neg hhandles]
      obtain ⟨store, heq, hstore, htracked⟩ := ih hinit hadds hs report
      refine ⟨store, ?_, hstore, fun p ↦ (htracked p).trans ?_⟩
      · have hcount : (e :: events).countP (fun e ↦ s.options.handles e.file) =
            events.countP fun e ↦ s.options.handles e.file := List.countP_cons_of_neg hhandles
        rw [hstep, heq, hcount, hfailures, hnone]
        rfl
      · rw [List.exists_mem_cons_iff]
        simp [hhandles]

/-- Where no file comes back to itself by composing, the order of the first events does not matter:
the same files are tracked with the same modules, the same files fail in the same way, and the same
bundle is written, if any. -/
theorem process_perm {o : Options} {extras : Extras} {fs : FileSystem} {s : Session}
    (hstart : Session.start fs o extras = .ok s)
    (hpaths : ∀ r, extras.paths = some r → r.IsExtensional)
    (htransforms : extras.transforms.IsExtensional) {events events' : List FileEvent}
    (hperm : events.Perm events') (hinit : ∀ e ∈ events, e.change = .init)
    (hfree : ∀ e ∈ events, s.compiler.IsCycleFree fs (s.absolute e.file)) :
    let handled := fun es : List FileEvent ↦ es.foldl handleInBatch (s, .empty)
    (handled events).2.Agree (handled events').2 ∧
      (s.process events).1.Agree (s.process events').1 ∧
      (∀ place, ((s.process events).1.store.output s.compiler place).2.toOption =
        ((s.process events').1.store.output s.compiler place).2.toOption) ∧
      Option.Rel BatchReport.Agree (s.process events).2.toOption
        (s.process events').2.toOption := by
  intro handled
  have hc := isExtensional_of_start hstart hpaths htransforms
  let A := fun p ↦ ∃ e ∈ events, ReflTransGen (s.compiler.ComposesFrom fs) (s.absolute e.file) p
  have hA : s.compiler.Passes fs A := fun p q ⟨e, he, hp⟩ hpq _ ↦ ⟨e, he, hp.tail hpq⟩
  have hfree' : ∀ x y, A x → TransGen (s.compiler.ComposesFrom fs) x y → ¬ fs.SameFile x y :=
    fun x y ⟨e, he, hx⟩ hxy ↦ hfree e he x y hx hxy
  have hempty : s.store = .empty ∧ s.fs = fs := by
    obtain ⟨d, out, -, -, rfl⟩ := start_eq_ok hstart
    exact ⟨rfl, rfl⟩
  choose! outcome new hadds using fun e (he : e ∈ events) ↦
    track_adds hc hA hfree' (show A (s.compiler.absolute e.file) from ⟨e, he, ReflTransGen.refl⟩)
  have hrun : ∀ es : List FileEvent, es.Perm events → ∃ store,
      handled es = ({ s with store := store }, ⟨es.countP fun e ↦ s.options.handles e.file,
        es.filterMap fun e ↦ s.failure? e (outcome e), none⟩) ∧
      Complete s.compiler fs A store ∧ ∀ p, store.isTracked p = true ↔
        ∃ e ∈ es, s.options.handles e.file = true ∧ new e p := by
    intro es hes
    obtain ⟨store, heq, hstore, htracked⟩ := foldl_handleInBatch (s := s) (A := A)
      (fun e he ↦ hinit e (hes.subset he)) (fun e he ↦ hempty.2.symm ▸ hadds e (hes.subset he))
      (hempty.1.symm ▸ complete_empty _ _ _) .empty
    refine ⟨store, ?_, hempty.2 ▸ hstore, fun p ↦ (htracked p).trans ?_⟩
    · simpa [handled, BatchReport.empty] using heq
    · rw [hempty.1]
      simp [isTracked_eq, ModuleStore.empty]
  obtain ⟨store, heq, hstore, htracked⟩ := hrun events (List.Perm.refl events)
  obtain ⟨store', heq', hstore', htracked'⟩ := hrun events' hperm.symm
  have hmem : ∀ p, (∃ e ∈ events, s.options.handles e.file = true ∧ new e p) ↔
      ∃ e ∈ events', s.options.handles e.file = true ∧ new e p := fun p ↦ by
    simp only [hperm.mem_iff]
  have hagree : Agree { s with store := store } { s with store := store' } :=
    ⟨rfl, hstore.agree hc hA hfree' hstore' fun p ↦ Bool.eq_iff_iff.2
      ((htracked p).trans ((hmem p).trans (htracked' p).symm))⟩
  have hreports : (handled events).2.Agree (handled events').2 := by
    rw [heq, heq']
    exact ⟨hperm.countP_eq _, hperm.filterMap _, rfl⟩
  rw [process_eq_ship, process_eq_ship]
  change _ ∧ (ship (handled events)).1.Agree (ship (handled events')).1 ∧
    (∀ place, ((ship (handled events)).1.store.output s.compiler place).2.toOption =
      ((ship (handled events')).1.store.output s.compiler place).2.toOption) ∧
    Option.Rel _ (ship (handled events)).2.toOption (ship (handled events')).2.toOption
  rw [heq, heq'] at hreports ⊢
  have hfaithful : Faithful s.compiler s.fs A store := hempty.2 ▸ hstore.toFaithful
  have hfaithful' : Faithful s.compiler s.fs A store' := hempty.2 ▸ hstore'.toFaithful
  obtain ⟨hsession, hshipped, hbundles⟩ := hagree.ship hc hfaithful hfaithful' hreports
  exact ⟨hreports, hsession, hbundles, hshipped⟩

namespace Sample

/-- One file composes from another, and a third one imports what is not there. -/
def mixed : FileSystem :=
  disk [("/a.mcss", rule ".a" "composes: b from './b'"), ("/b.mcss", rule ".b" ""),
    ("/c.mcss", "@import 'x'")]

theorem isSome_startMixed : (Session.start mixed options .none).toOption.isSome = true :=
  isSome_start_disk _

def startMixed : Session := (Session.start mixed options .none).toOption.get isSome_startMixed

theorem starts_mixed : Starts options .none mixed startMixed := starts_disk _

theorem admits_mixed : startMixed.compiler.Admits mixed.files mixed :=
  Compiler.admits_of_files starts_mixed.isRegular (isKeyed_disk _) (by decide +kernel)
    (fun p ↦ if p.text = "/a.mcss" then 1 else 0) (by decide +kernel)

def forth : List FileEvent :=
  [⟨.init, ⟨"a.mcss"⟩⟩, ⟨.init, ⟨"b.mcss"⟩⟩, ⟨.init, ⟨"c.mcss"⟩⟩]

def back : List FileEvent :=
  [⟨.init, ⟨"c.mcss"⟩⟩, ⟨.init, ⟨"b.mcss"⟩⟩, ⟨.init, ⟨"a.mcss"⟩⟩]

end Sample

/-- A file is met before and after the one that it composes from, with one that fails at either
end. -/
theorem process_perm_sample :
    (Sample.startMixed.process Sample.forth).1.Agree (Sample.startMixed.process Sample.back).1 ∧
      (Sample.startMixed.process Sample.forth).2.toOption.map
        (fun report ↦ report.failures.map FileFailure.file) = some [⟨"c.mcss"⟩] := by
  have hfree : ∀ e ∈ Sample.forth,
      Sample.startMixed.compiler.IsCycleFree Sample.mixed (Sample.startMixed.absolute e.file) :=
    fun e _ ↦ Sample.admits_mixed.toSuits.isCycleFree Sample.starts_mixed.isRegular
      Sample.admits_mixed.acyclic (Compiler.isPlace_absolute Sample.starts_mixed.isRegular e.file)
  exact ⟨(process_perm Sample.starts_mixed.start (by simp [Extras.none])
    Pipeline.IsExtensional.empty (by decide) (by decide) hfree).2.1, by decide +kernel⟩

end Session

end StyleModules
