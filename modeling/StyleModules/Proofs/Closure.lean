import StyleModules.Proofs.Bounds
import StyleModules.Proofs.Provenance

/-!
# What tracking a file adds

Tracking a file begins to compile it and every file that it composes from, each at most once, and
stops at the first one that cannot be compiled.  What was tracked before is left as it was.  When
nothing fails, the files that were added are those that can be reached from the file through files
that were not tracked, and the graph has an edge for each of their references.
-/

namespace StyleModules

open Relation ModuleStore

namespace Compiler

/-- Every file is known by a single path: the root directory is no file, and a file that a place
composes from is a place again. -/
structure Pinpoints (c : Compiler) (fs : FileSystem) : Prop where
  root : fs.isFile ⟨"/"⟩ = false
  isPlace : ∀ ⦃p q⦄, p.IsPlace → c.ComposesFrom fs p q → fs.isFile q = true → q.IsPlace

variable {c : Compiler} {fs : FileSystem}

theorem Suits.pinpoints (hc : c.IsRegular) (h : c.Suits fs) : c.Pinpoints fs :=
  ⟨h.root, fun _ _ hp hq hexists ↦ hq.isPlace hc h hp hexists⟩

end Compiler

namespace ModuleStore

/-- The files whose compilation is begun while the files that references stand for are tracked. -/
def begunReferences (c : Compiler) (fs : FileSystem) (track : Path → ModuleStore → Outcome Unit)
    (begun : Path → ModuleStore → List Path) (file : Path) :
    List String → List (String × Path) → ModuleStore → List Path
  | [], _, _ => []
  | r :: rs, found, s =>
    if (found.lookup r).isSome then begunReferences c fs track begun file rs found s
    else
      match c.resolve fs file r with
      | .error _ => []
      | .ok target =>
        begun target s ++
          match track target s with
          | (_, .error _) => []
          | (s, .ok ()) =>
            begunReferences c fs track begun file rs (found ++ [(r, target)]) s

/-- The files whose compilation is begun while a file is tracked, in the order of their
beginning. -/
def begunFrom (c : Compiler) (fs : FileSystem) : Nat → List Path → Path → ModuleStore → List Path
  | 0, _, _, _ => []
  | limit + 1, started, file, s =>
    if s.isTracked file || file.isAmong started then []
    else
      file ::
        match prepare c fs file s.journal with
        | (_, .error _) => []
        | (journal, .ok draft) =>
          begunReferences c fs (trackFrom c fs limit (file :: started))
            (begunFrom c fs limit (file :: started)) file (references draft.composes) []
            { s with journal := journal }

/-- The files whose compilation is begun when a file is tracked. -/
def begun (c : Compiler) (fs : FileSystem) (file : Path) (s : ModuleStore) : List Path :=
  begunFrom c fs fs.chainLimit [] (c.absolute file) s

/-! ## What a search keeps -/

/-- All files and edges of a store are about places. -/
structure HasPlaces (s : ModuleStore) : Prop where
  modules : s.modules.IsTidy
  graph : s.graph.IsTidy

theorem hasPlaces_empty : empty.HasPlaces := ⟨PathMap.isTidy_empty, ModuleGraph.isTidy_empty⟩

/-- A file that is composed from and exists. -/
def IsSource (c : Compiler) (fs : FileSystem) (file q : Path) : Prop :=
  c.ComposesFrom fs file q ∧ fs.isFile q = true

/-- The search goes on from one file to another. -/
def LeadsOn (c : Compiler) (fs : FileSystem) (s : ModuleStore) (x y : Path) : Prop :=
  s.isTracked x = false ∧ c.ComposesFrom fs x y

/-- What a search for files keeps, and what it begins on its way, whether or not it succeeds.  It
starts at some roots and stays away from the files that were begun before. -/
structure Search (c : Compiler) (fs : FileSystem) (started : List Path) (roots : Path → Prop)
    (s s' : ModuleStore) (begun : List Path) : Prop where
  hasPlaces : s'.HasPlaces
  get?_eq : ∀ q, q.IsPlace → s.isTracked q = true → s'.modules.get? q = s.modules.get? q
  edges_eq : ∀ q, q.IsPlace → s.isTracked q = true ∨ q ∈ started →
    s'.graph.edges q = s.graph.edges q
  fresh : ∀ q ∈ begun, q.IsPlace ∧ s.isTracked q = false ∧ q ∉ started ∧
    ∃ r, roots r ∧ ReflTransGen (LeadsOn c fs s) r q
  nodup : begun.Nodup
  new : ∀ q, q.IsPlace → s'.isTracked q = true → s.isTracked q = true ∨ q ∈ begun

/-- What a search that succeeds has done with the files it began. -/
structure Finished (c : Compiler) (fs : FileSystem) (started : List Path) (s' : ModuleStore)
    (begun : List Path) : Prop where
  tracked : ∀ q ∈ begun, s'.isTracked q = true
  compiles : ∀ q ∈ begun, c.Compiles fs q
  closed : ∀ q ∈ begun, ∀ y, c.ComposesFrom fs q y →
    y ∈ s'.graph.edges q ∧ (s'.isTracked y = true ∨ y ∈ started)

section Search

variable {c : Compiler} {fs : FileSystem} {started : List Path} {roots : Path → Prop}
  {s s' s'' : ModuleStore} {begun begun' : List Path}

theorem Search.refl (hs : s.HasPlaces) : Search c fs started roots s s [] where
  hasPlaces := hs
  get?_eq _ _ _ := rfl
  edges_eq _ _ _ := rfl
  fresh := List.forall_mem_nil _
  nodup := List.nodup_nil
  new _ _ h := .inl h

theorem Finished.nil : Finished c fs started s' [] :=
  ⟨List.forall_mem_nil _, List.forall_mem_nil _, List.forall_mem_nil _⟩

theorem Search.isTracked (h : Search c fs started roots s s' begun) {q : Path} (hq : q.IsPlace)
    (hqTracked : s.isTracked q = true) : s'.isTracked q = true := by
  rw [isTracked_eq, h.get?_eq q hq hqTracked, ← isTracked_eq, hqTracked]

/-- What is not tracked after a search was not tracked before it. -/
theorem Search.untracked (h : Search c fs started roots s s' begun) {q : Path} (hq : q.IsPlace)
    (hqUntracked : s'.isTracked q = false) : s.isTracked q = false := by
  rw [Bool.eq_false_iff]
  intro hqTracked
  rw [h.isTracked hq hqTracked] at hqUntracked
  simp at hqUntracked

theorem Search.leadsOn (h : Search c fs started roots s s' begun) {x y : Path} (hx : x.IsPlace)
    (hxy : LeadsOn c fs s' x y) : LeadsOn c fs s x y :=
  ⟨h.untracked hx hxy.1, hxy.2⟩

theorem Search.mono (roots' : Path → Prop) (hroots : ∀ r, roots r → roots' r)
    (h : Search c fs started roots s s' begun) : Search c fs started roots' s s' begun :=
  { h with
    fresh := fun q hq ↦ by
      obtain ⟨hplace, huntracked, hstarted, r, hr, hpath⟩ := h.fresh q hq
      exact ⟨hplace, huntracked, hstarted, r, hroots r hr, hpath⟩ }

/-- A file that is being compiled is not tracked by a search. -/
theorem Search.isTracked_started (h : Search c fs started roots s s' begun) {q : Path}
    (hq : q.IsPlace) (huntracked : s.isTracked q = false) (hstarted : q ∈ started) :
    s'.isTracked q = false := by
  rw [Bool.eq_false_iff]
  intro hqTracked
  rcases h.new q hq hqTracked with hbefore | hbegun
  · rw [huntracked] at hbefore
    simp at hbefore
  · exact (h.fresh q hbegun).2.2.1 hstarted

/-- A search among the sources of a file is part of the search that begins with the file. -/
theorem Search.opened {file : Path} (hfile : file.IsPlace) (huntracked : s.isTracked file = false)
    (hstarted : file ∉ started)
    (h : Search c fs (file :: started) (IsSource c fs file) s s' begun) :
    Search c fs started (· = file) s s' (file :: begun) where
  hasPlaces := h.hasPlaces
  get?_eq := h.get?_eq
  edges_eq q hq hkept := h.edges_eq q hq (hkept.imp_right (List.mem_cons_of_mem _))
  fresh := List.forall_mem_cons.2 ⟨⟨hfile, huntracked, hstarted, file, rfl, ReflTransGen.refl⟩,
    fun q hq ↦ by
      obtain ⟨hqPlace, hqUntracked, hqStarted, r, hr, hpath⟩ := h.fresh q hq
      rw [List.mem_cons, not_or] at hqStarted
      exact ⟨hqPlace, hqUntracked, hqStarted.2, file, rfl, hpath.head ⟨huntracked, hr.1⟩⟩⟩
  nodup := List.nodup_cons.2 ⟨fun hq ↦ (h.fresh file hq).2.2.1 List.mem_cons_self, h.nodup⟩
  new q hq hqTracked := (h.new q hq hqTracked).imp_right (List.mem_cons_of_mem _)

/-- Nothing is lost when what is known of a file that was begun is changed once more. -/
theorem Search.update {file : Path} (h : Search c fs started roots s s' begun)
    (hfile : file ∈ begun) (hs'' : s''.HasPlaces)
    (hmodules : ∀ q : Path, q.IsPlace → q ≠ file → s''.modules.get? q = s'.modules.get? q)
    (hedges : ∀ q : Path, q.IsPlace → q ≠ file → s''.graph.edges q = s'.graph.edges q) :
    Search c fs started roots s s'' begun where
  hasPlaces := hs''
  get?_eq q hq hqTracked := by
    refine (hmodules q hq ?_).trans (h.get?_eq q hq hqTracked)
    rintro rfl
    rw [(h.fresh q hfile).2.1] at hqTracked
    simp at hqTracked
  edges_eq q hq hkept := by
    refine (hedges q hq ?_).trans (h.edges_eq q hq hkept)
    rintro rfl
    obtain ⟨-, huntracked, hstarted, -⟩ := h.fresh q hfile
    rw [huntracked] at hkept
    simp [hstarted] at hkept
  fresh := h.fresh
  nodup := h.nodup
  new q hq hqTracked := by
    by_cases hqFile : q = file
    · exact .inr (hqFile ▸ hfile)
    · rw [isTracked_eq, hmodules q hq hqFile, ← isTracked_eq] at hqTracked
      exact h.new q hq hqTracked

/-- One search behind another that succeeded. -/
theorem Search.trans (hfs : c.Pinpoints fs)
    (hroots : ∀ r, roots r → r.IsPlace) (h : Search c fs started roots s s' begun)
    (hfinished : Finished c fs started s' begun) (h' : Search c fs started roots s' s'' begun') :
    Search c fs started roots s s'' (begun ++ begun') where
  hasPlaces := h'.hasPlaces
  get?_eq q hq hqTracked :=
    (h'.get?_eq q hq (h.isTracked hq hqTracked)).trans (h.get?_eq q hq hqTracked)
  edges_eq q hq hkept :=
    (h'.edges_eq q hq (hkept.imp_left (h.isTracked hq))).trans (h.edges_eq q hq hkept)
  fresh q hq := by
    rcases List.mem_append.1 hq with hq | hq
    · exact h.fresh q hq
    · obtain ⟨hqPlace, hqUntracked, hqStarted, r, hr, hpath⟩ := h'.fresh q hq
      have hback : ∀ {x}, ReflTransGen (LeadsOn c fs s') r x → fs.isFile x = true ∨ x = r →
          x.IsPlace ∧ ReflTransGen (LeadsOn c fs s) r x := by
        intro x hrx
        induction hrx with
        | refl => exact fun _ ↦ ⟨hroots r hr, ReflTransGen.refl⟩
        | @tail x y _ hxy ih =>
          obtain ⟨hx, hrx'⟩ := ih (.inl hxy.2.isFile)
          rintro (hexists | rfl)
          · exact ⟨hfs.isPlace hx hxy.2 hexists, hrx'.tail (h.leadsOn hx hxy)⟩
          · exact ⟨hroots y hr, hrx'.tail (h.leadsOn hx hxy)⟩
      refine ⟨hqPlace, h.untracked hqPlace hqUntracked, hqStarted, r, hr, ?_⟩
      rcases ReflTransGen.cases_tail hpath with rfl | ⟨x, hrx, hxq⟩
      · exact ReflTransGen.refl
      · obtain ⟨hx, hrx'⟩ := hback hrx (.inl hxq.2.isFile)
        exact hrx'.tail (h.leadsOn hx hxq)
  nodup := by
    refine List.nodup_append.2 ⟨h.nodup, h'.nodup, fun a ha b hb heq ↦ ?_⟩
    have htracked := hfinished.tracked a ha
    rw [heq, (h'.fresh b hb).2.1] at htracked
    simp at htracked
  new q hq hqTracked := by
    rcases h'.new q hq hqTracked with hqTracked | hqBegun
    · exact (h.new q hq hqTracked).imp_right (List.mem_append_left _)
    · exact .inr (List.mem_append_right _ hqBegun)

theorem Finished.trans (hfs : c.Pinpoints fs) (hplace : ∀ q ∈ begun, q.IsPlace)
    (h : Finished c fs started s' begun) (hsearch : Search c fs started roots s' s'' begun')
    (h' : Finished c fs started s'' begun') : Finished c fs started s'' (begun ++ begun') where
  tracked q hq := by
    rcases List.mem_append.1 hq with hq | hq
    · exact hsearch.isTracked (hplace q hq) (h.tracked q hq)
    · exact h'.tracked q hq
  compiles q hq := by
    rcases List.mem_append.1 hq with hq | hq
    · exact h.compiles q hq
    · exact h'.compiles q hq
  closed q hq y hy := by
    rcases List.mem_append.1 hq with hq | hq
    · obtain ⟨hedge, hdone⟩ := h.closed q hq y hy
      have hexists : fs.isFile y = true := (h.compiles q hq).isFile hy
      refine ⟨?_, hdone.imp_left (hsearch.isTracked (hfs.isPlace (hplace q hq) hy hexists))⟩
      rwa [hsearch.edges_eq q (hplace q hq) (.inl (h.tracked q hq))]
    · exact h'.closed q hq y hy

end Search

/-! ## Tracking searches -/

section Tracking

variable {c : Compiler} {fs : FileSystem}

/-- What is known of a way to track the files that `file` composes from: it is a search, it has
finished what it began if it succeeds, and otherwise it met a file that cannot be compiled. -/
def SearchesSources (c : Compiler) (fs : FileSystem) (started : List Path) (file : Path)
    (track : Path → ModuleStore → Outcome Unit) (begun : Path → ModuleStore → List Path) : Prop :=
  ∀ q s, IsSource c fs file q → s.HasPlaces →
    Search c fs started (· = q) s (track q s).1 (begun q s) ∧
    ((track q s).2 = .ok () → Finished c fs started (track q s).1 (begun q s) ∧
      ((track q s).1.isTracked q = true ∨ q ∈ started)) ∧
    ∀ fault, (track q s).2 = .error fault → ∃ x ∈ begun q s, ¬ c.Compiles fs x

variable {started : List Path} {file : Path} {b : Blueprint}

theorem Found.after_search {s s' : ModuleStore} {roots : Path → Prop} {begun : List Path}
    {found : List (String × Path)} (hfs : c.Pinpoints fs) (hfile : file.IsPlace)
    (hb : c.blueprint fs file = .ok b) (hsearch : Search c fs started roots s s' begun)
    (h : Found c fs file b started s found) : Found c fs file b started s' found := by
  intro e he
  obtain ⟨hr, htarget, hexists, hdone⟩ := h e he
  have hmem : e.2 ∈ c.targets file b := htarget ▸ List.mem_map.2 ⟨e.1, hr, rfl⟩
  exact ⟨hr, htarget, hexists,
    hdone.imp_left (hsearch.isTracked (hfs.isPlace hfile ⟨b, hb, hmem⟩ hexists))⟩

theorem search_trackReferences (hfs : c.Pinpoints fs) (hfile : file.IsPlace)
    (hb : c.blueprint fs file = .ok b) {track : Path → ModuleStore → Outcome Unit}
    {begun : Path → ModuleStore → List Path}
    (htrack : SearchesSources c fs started file track begun) {rs : List String}
    (hrs : ∀ r ∈ rs, r ∈ references b.composes) {found : List (String × Path)} {s : ModuleStore}
    (hs : s.HasPlaces) (hfound : Found c fs file b started s found) :
    Search c fs started (IsSource c fs file) s (trackReferences c fs track file rs found s).1
        (begunReferences c fs track begun file rs found s) ∧
      (∀ files, (trackReferences c fs track file rs found s).2 = .ok files →
        Finished c fs started (trackReferences c fs track file rs found s).1
          (begunReferences c fs track begun file rs found s) ∧
        Found c fs file b started (trackReferences c fs track file rs found s).1 files ∧
        (∀ e ∈ found, e ∈ files) ∧ ∀ r ∈ rs, (files.lookup r).isSome = true) ∧
      ∀ fault, (trackReferences c fs track file rs found s).2 = .error fault →
        (∃ q ∈ c.targets file b, fs.isFile q = false) ∨
          ∃ x ∈ begunReferences c fs track begun file rs found s, ¬ c.Compiles fs x := by
  induction rs generalizing found s with
  | nil =>
    refine ⟨Search.refl hs, fun files h ↦ ?_, fun fault h ↦ by simp [trackReferences] at h⟩
    obtain rfl := Except.ok.inj h
    exact ⟨Finished.nil, hfound, fun e he ↦ he, List.forall_mem_nil _⟩
  | cons r rs ih =>
    obtain ⟨hr, hrest⟩ := List.forall_mem_cons.1 hrs
    unfold trackReferences begunReferences
    by_cases hknown : (found.lookup r).isSome = true
    · simp only [hknown, if_true]
      obtain ⟨hsearch, hok, herror⟩ := ih hrest hs hfound
      refine ⟨hsearch, fun files h ↦ ?_, herror⟩
      obtain ⟨hfinished, hfiles, hsub, hall⟩ := hok files h
      exact ⟨hfinished, hfiles, hsub,
        List.forall_mem_cons.2 ⟨isSome_lookup_of_subset hsub hknown, hall⟩⟩
    · simp only [hknown, Bool.false_eq_true, if_false]
      have hmem : c.target file r ∈ c.targets file b := List.mem_map.2 ⟨r, hr, rfl⟩
      cases hresolve : c.resolve fs file r with
      | error fault =>
        refine ⟨Search.refl hs, fun files h ↦ by simp at h, fun fault _ ↦ .inl ⟨_, hmem, ?_⟩⟩
        rw [Bool.eq_false_iff]
        intro hexists
        rw [Compiler.resolve_eq_ok.2 ⟨rfl, hexists⟩] at hresolve
        simp at hresolve
      | ok target =>
        obtain ⟨rfl, hexists⟩ := Compiler.resolve_eq_ok.1 hresolve
        have hsource : IsSource c fs file (c.target file r) := ⟨⟨b, hb, hmem⟩, hexists⟩
        obtain ⟨hsearch, hok, herror⟩ := htrack (c.target file r) s hsource hs
        have hsearch' := hsearch.mono (IsSource c fs file) (by rintro q rfl; exact hsource)
        have hroots : ∀ q, IsSource c fs file q → q.IsPlace :=
          fun q hq ↦ hfs.isPlace hfile hq.1 hq.2
        simp only
        rcases hres : track (c.target file r) s with ⟨s₁, fault | u⟩
        · rw [hres] at hsearch' herror
          obtain ⟨x, hx, hxFails⟩ := herror fault rfl
          simp only [List.append_nil]
          exact ⟨hsearch', fun files h ↦ by simp at h, fun _ _ ↦ .inr ⟨x, hx, hxFails⟩⟩
        · rw [hres] at hsearch' hok
          obtain ⟨hfinished, hdone⟩ := hok rfl
          have hfound₁ : Found c fs file b started s₁ (found ++ [(r, c.target file r)]) := by
            intro e he
            rcases List.mem_append.1 he with he | he
            · exact hfound.after_search hfs hfile hb hsearch' e he
            · obtain rfl := List.mem_singleton.1 he
              exact ⟨hr, rfl, hexists, hdone⟩
          obtain ⟨hsearch₁, hok₁, herror₁⟩ := ih hrest hsearch'.hasPlaces hfound₁
          refine ⟨hsearch'.trans hfs hroots hfinished hsearch₁, fun files h ↦ ?_,
            fun fault h ↦ ?_⟩
          · obtain ⟨hfinished₁, hfiles, hsub, hall⟩ := hok₁ files h
            refine ⟨hfinished.trans hfs (fun q hq ↦ (hsearch'.fresh q hq).1) hsearch₁ hfinished₁,
              hfiles, fun e he ↦ hsub e (List.mem_append_left _ he),
              List.forall_mem_cons.2 ⟨isSome_lookup_of_subset hsub ?_, hall⟩⟩
            simp
          · refine (herror₁ fault h).imp_right ?_
            rintro ⟨x, hx, hxFails⟩
            exact ⟨x, List.mem_append_right _ hx, hxFails⟩

/-- Finishing a file ends the search that began with it. -/
theorem search_finish (hc : c.pipeline.IsDetermined) (hfs : c.Pinpoints fs) (hfile : file.IsPlace)
    (hstarted : file ∉ started) {s s₁ : ModuleStore} {begun : List Path}
    (huntracked : s.isTracked file = false)
    (hsearch : Search c fs (file :: started) (IsSource c fs file) s s₁ begun) (draft : Draft)
    (hb : c.blueprint fs file = .ok (.ofDraft draft))
    (hfinished : Finished c fs (file :: started) s₁ begun) {files : List (String × Path)}
    (hfound : Found c fs file (.ofDraft draft) (file :: started) s₁ files)
    (hall : ∀ r ∈ references draft.composes, (files.lookup r).isSome = true) :
    Search c fs started (· = file) s (finish c file draft files s₁).1 (file :: begun) ∧
      ((finish c file draft files s₁).2 = .ok () →
        Finished c fs started (finish c file draft files s₁).1 (file :: begun) ∧
        (finish c file draft files s₁).1.isTracked file = true) ∧
      ∀ fault, (finish c file draft files s₁).2 = .error fault →
        ¬ c.Compiles fs file ∧ (finish c file draft files s₁).1.isTracked file = false := by
  have hs₁ := hsearch.hasPlaces
  have hlookup := lookup_eq_target hfound hall
  have htargets : ∀ q ∈ files.map Prod.snd, q.IsPlace ∧ c.ComposesFrom fs file q := by
    intro q hq
    obtain ⟨e, he, rfl⟩ := List.mem_map.1 hq
    obtain ⟨hr, htarget, hexists, -⟩ := hfound e he
    have hcomposes : c.ComposesFrom fs file e.2 := ⟨_, hb, htarget ▸ List.mem_map.2 ⟨_, hr, rfl⟩⟩
    exact ⟨hfs.isPlace hfile hcomposes hexists, hcomposes⟩
  have hsources : ∀ y, c.ComposesFrom fs file y → y ∈ files.map Prod.snd ∧
      fs.isFile y = true ∧ (s₁.isTracked y = true ∨ y ∈ file :: started) := by
    rintro y ⟨b, hb', hy⟩
    obtain rfl := Except.ok.inj (hb.symm.trans hb')
    obtain ⟨r, hr, rfl⟩ := List.mem_map.1 hy
    have hmem := mem_of_lookup (hlookup r hr)
    exact ⟨List.mem_map.2 ⟨_, hmem, rfl⟩, (hfound _ hmem).2.2⟩
  let g := s₁.graph.addAll file (files.map Prod.snd)
  have hg : files.foldl (fun g e ↦ g.add file e.2) s₁.graph = g := by
    simp only [g, ModuleGraph.addAll, List.foldl_map]
  have hgTidy : g.IsTidy := hs₁.graph.addAll hfile fun q hq ↦ (htargets q hq).1
  have hgEdges : ∀ q : Path, q.IsPlace → q ≠ file → g.edges q = s₁.graph.edges q :=
    fun q hq hne ↦ ModuleGraph.edges_addAll_of_ne hs₁.graph hfile
      (fun q hq ↦ (htargets q hq).1) hq hne
  have hopened := hsearch.opened hfile huntracked hstarted
  obtain ⟨journal, heq⟩ := Compiler.finish_eq_assemble hc draft hlookup s₁
  rw [hg] at heq
  rw [heq]
  cases hassemble : c.assemble file (.ofDraft draft) s₁.composition? with
  | error fault =>
    refine ⟨hopened.update List.mem_cons_self ⟨hs₁.modules, hgTidy⟩ (fun _ _ _ ↦ rfl) hgEdges,
      fun h ↦ by simp at h, fun _ _ ↦ ⟨?_, ?_⟩⟩
    · rintro ⟨b, hb', -, hassembles⟩
      obtain rfl := Except.ok.inj (hb.symm.trans hb')
      obtain ⟨m, hm⟩ := hassembles s₁.composition?
      rw [hassemble] at hm
      simp at hm
    · exact hsearch.isTracked_started hfile huntracked List.mem_cons_self
  | ok m =>
    have hne : ∀ {q : Path}, q.IsPlace → q ≠ file → q.components ≠ file.components :=
      fun hq hqFile hqSame ↦ hqFile (hq.eq_of_components hfile hqSame)
    have hkept : Search c fs started (· = file) s ⟨g, s₁.modules.insert file m, journal⟩ _ :=
      hopened.update List.mem_cons_self ⟨hs₁.modules.insert hfile m, hgTidy⟩
        (fun q hq hqFile ↦ PathMap.get?_insert_of_ne (hne hq hqFile) _ _) hgEdges
    have htracked : isTracked ⟨g, s₁.modules.insert file m, journal⟩ file = true := by
      rw [isTracked_eq, hs₁.modules.get?_insert_self]
      rfl
    have hmono : ∀ q : Path, q.IsPlace → s₁.isTracked q = true →
        isTracked ⟨g, s₁.modules.insert file m, journal⟩ q = true := by
      intro q hq hqTracked
      by_cases hqFile : q = file
      · exact hqFile ▸ htracked
      · rwa [isTracked_eq, PathMap.get?_insert_of_ne (hne hq hqFile), ← isTracked_eq]
    -- a file that was being compiled is tracked by now, or it is among those begun before
    have hdone : ∀ y : Path, y.IsPlace → s₁.isTracked y = true ∨ y ∈ file :: started →
        isTracked ⟨g, s₁.modules.insert file m, journal⟩ y = true ∨ y ∈ started := by
      rintro y hy (hyTracked | hyStarted)
      · exact .inl (hmono y hy hyTracked)
      · rcases List.mem_cons.1 hyStarted with rfl | hyStarted
        · exact .inl htracked
        · exact .inr hyStarted
    have hcompiles : c.Compiles fs file := Compiler.compiles_of_assemble hb
      (fun y hy ↦ (hsources y ⟨_, hb, hy⟩).2.1) hassemble
    refine ⟨hkept, fun _ ↦ ⟨⟨?_, ?_, ?_⟩, htracked⟩, fun fault h ↦ by simp at h⟩
    · exact List.forall_mem_cons.2 ⟨htracked,
        fun q hq ↦ hmono q (hsearch.fresh q hq).1 (hfinished.tracked q hq)⟩
    · exact List.forall_mem_cons.2 ⟨hcompiles, hfinished.compiles⟩
    · refine List.forall_mem_cons.2 ⟨fun y hy ↦ ?_, fun q hq y hy ↦ ?_⟩
      · obtain ⟨hyMem, hyExists, hyDone⟩ := hsources y hy
        refine ⟨?_, hdone y (hfs.isPlace hfile hy hyExists) hyDone⟩
        exact (ModuleGraph.mem_edges_addAll hs₁.graph hfile
          (fun q hq ↦ (htargets q hq).1) hfile).2 (.inr ⟨rfl, hyMem⟩)
      · have hqPlace := (hsearch.fresh q hq).1
        obtain ⟨hedge, hyDone⟩ := hfinished.closed q hq y hy
        have hyExists : fs.isFile y = true := (hfinished.compiles q hq).isFile hy
        refine ⟨?_, hdone y (hfs.isPlace hqPlace hy hyExists) hyDone⟩
        exact (ModuleGraph.mem_edges_addAll hs₁.graph hfile
          (fun q hq ↦ (htargets q hq).1) hqPlace).2 (.inl hedge)

theorem not_compiles_of_prepare (hc : c.pipeline.IsDetermined) {journal journal' : Journal}
    {fault : Fault} (h : prepare c fs file journal = (journal', .error fault)) :
    ¬ c.Compiles fs file := by
  rintro ⟨b, hb, -⟩
  have hprepare := Compiler.prepare_eq hc fs file journal
  rw [h, hb] at hprepare
  simp [Except.map] at hprepare

/-- Tracking a file is a search from that file.  It fails only when it meets a file that cannot be
compiled: the limit is never the reason, since the files being compiled are all different. -/
theorem search_trackFrom (hc : c.pipeline.IsDetermined) (hfs : c.Pinpoints fs) {limit : Nat}
    (hfile : file.IsPlace) (hlimit : fs.chainLimit ≤ limit + started.length)
    (hplaces : ∀ q ∈ started, q.IsPlace ∧ fs.isFile q = true) (hnodup : started.Nodup)
    {s : ModuleStore} (hs : s.HasPlaces) :
    Search c fs started (· = file) s (trackFrom c fs limit started file s).1
        (begunFrom c fs limit started file s) ∧
      ((trackFrom c fs limit started file s).2 = .ok () →
        Finished c fs started (trackFrom c fs limit started file s).1
          (begunFrom c fs limit started file s) ∧
        ((trackFrom c fs limit started file s).1.isTracked file = true ∨ file ∈ started)) ∧
      ∀ fault, (trackFrom c fs limit started file s).2 = .error fault →
        (∃ x ∈ begunFrom c fs limit started file s, ¬ c.Compiles fs x) ∧
          (trackFrom c fs limit started file s).1.isTracked file = false := by
  induction limit generalizing started file s with
  | zero =>
    have hlt := FileSystem.length_lt_chainLimit (fun q hq ↦ (hplaces q hq).1)
      (fun q hq ↦ (hplaces q hq).2) hnodup
    omega
  | succ limit ih =>
    have hamong := Path.isAmong_iff_mem hfile fun q hq ↦ (hplaces q hq).1
    unfold trackFrom begunFrom
    by_cases hdone : (s.isTracked file || file.isAmong started) = true
    · simp only [hdone, if_true]
      rw [Bool.or_eq_true, hamong] at hdone
      exact ⟨Search.refl hs, fun _ ↦ ⟨Finished.nil, hdone⟩, fun fault h ↦ by simp at h⟩
    · simp only [hdone, Bool.false_eq_true, if_false]
      rw [Bool.or_eq_true, hamong, not_or, Bool.not_eq_true] at hdone
      obtain ⟨huntracked, hstarted⟩ := hdone
      have hprepare := Compiler.prepare_eq hc fs file s.journal
      rcases hprepared : prepare c fs file s.journal with ⟨journal, fault | draft⟩
      all_goals
        rw [hprepared] at hprepare
        have hs₀ : HasPlaces { s with journal := journal } := ⟨hs.modules, hs.graph⟩
        simp only
      · have hnothing : Search c fs (file :: started) (IsSource c fs file) s
            { s with journal := journal } [] :=
          ⟨hs₀, fun _ _ _ ↦ rfl, fun _ _ _ ↦ rfl, List.forall_mem_nil _, List.nodup_nil,
            fun _ _ h ↦ .inl h⟩
        exact ⟨hnothing.opened hfile huntracked hstarted, fun h ↦ by simp at h, fun _ _ ↦
          ⟨⟨file, List.mem_singleton_self file, not_compiles_of_prepare hc hprepared⟩, huntracked⟩⟩
      · have hb : c.blueprint fs file = .ok (.ofDraft draft) := hprepare.symm
        have hplaces' : ∀ q ∈ file :: started, q.IsPlace ∧ fs.isFile q = true :=
          List.forall_mem_cons.2 ⟨⟨hfile, Compiler.isFile_of_blueprint hb⟩, hplaces⟩
        have htrack : SearchesSources c fs (file :: started) file
            (trackFrom c fs limit (file :: started)) (begunFrom c fs limit (file :: started)) := by
          intro q s hq hs
          obtain ⟨hsearch, hok, herror⟩ := ih (hfs.isPlace hfile hq.1 hq.2)
            (by rw [List.length_cons]; omega) hplaces' (hnodup.cons hstarted) hs
          exact ⟨hsearch, hok, fun fault h ↦ (herror fault h).1⟩
        obtain ⟨hsearch, hok, herror⟩ := search_trackReferences hfs hfile hb htrack
          (fun r (hr : r ∈ references draft.composes) ↦ hr) hs₀
          (List.forall_mem_nil _ : Found c fs file _ _ _ [])
        -- a search does not look at what transforms write down
        have hsearch' : Search c fs (file :: started) (IsSource c fs file) s _ _ := { hsearch with }
        rcases hres : trackReferences c fs (trackFrom c fs limit (file :: started)) file
          (references draft.composes) [] { s with journal := journal } with ⟨s₁, fault | files⟩
        all_goals rw [hres] at hsearch'
        · rw [hres] at herror
          refine ⟨hsearch'.opened hfile huntracked hstarted, fun h ↦ by simp at h, fun _ _ ↦
            ⟨?_, hsearch'.isTracked_started hfile huntracked List.mem_cons_self⟩⟩
          rcases herror fault rfl with ⟨q, hq, hmissing⟩ | ⟨x, hx, hxFails⟩
          · refine ⟨file, List.mem_cons_self, fun hcompiles ↦ ?_⟩
            rw [hcompiles.isFile ⟨_, hb, hq⟩] at hmissing
            simp at hmissing
          · exact ⟨x, List.mem_cons_of_mem _ hx, hxFails⟩
        · rw [hres] at hok
          obtain ⟨hfinished, hfound, -, hall⟩ := hok files rfl
          obtain ⟨hsearch'', hok', herror'⟩ := search_finish hc hfs hfile hstarted huntracked
            hsearch' draft hb hfinished hfound hall
          refine ⟨hsearch'', fun h ↦ ?_, fun fault h ↦ ?_⟩
          · obtain ⟨hfinished', htracked⟩ := hok' h
            exact ⟨hfinished', .inl htracked⟩
          · obtain ⟨hfails, hlost⟩ := herror' fault h
            exact ⟨⟨file, List.mem_cons_self, hfails⟩, hlost⟩

/-! ## The limit does not matter -/

theorem trackReferences_congr (hb : c.blueprint fs file = .ok b)
    (track track' : Path → ModuleStore → Outcome Unit)
    (htrack : ∀ q s, IsSource c fs file q → track q s = track' q s) {rs : List String}
    (hrs : ∀ r ∈ rs, r ∈ references b.composes) (found : List (String × Path))
    (s : ModuleStore) :
    trackReferences c fs track file rs found s = trackReferences c fs track' file rs found s := by
  induction rs generalizing found s with
  | nil => rfl
  | cons r rs ih =>
    obtain ⟨hr, hrest⟩ := List.forall_mem_cons.1 hrs
    unfold trackReferences
    split
    next => exact ih hrest found s
    next =>
      cases hresolve : c.resolve fs file r with
      | error fault => rfl
      | ok target =>
        obtain ⟨rfl, hexists⟩ := Compiler.resolve_eq_ok.1 hresolve
        have hsame := htrack (c.target file r) s
          ⟨⟨b, hb, List.mem_map.2 ⟨r, hr, rfl⟩⟩, hexists⟩
        simp only [hsame]
        rcases track' (c.target file r) s with ⟨s', fault | u⟩
        · rfl
        · exact ih hrest _ s'

/-- A limit that no chain of files meets is as good as a larger one. -/
theorem trackFrom_limit (hc : c.pipeline.IsDetermined) (hfs : c.Pinpoints fs) {limit limit' : Nat}
    (hfile : file.IsPlace) (hlimit : fs.chainLimit ≤ limit + started.length)
    (hlimit' : fs.chainLimit ≤ limit' + started.length)
    (hplaces : ∀ q ∈ started, q.IsPlace ∧ fs.isFile q = true) (hnodup : started.Nodup)
    (s : ModuleStore) :
    trackFrom c fs limit started file s = trackFrom c fs limit' started file s := by
  induction limit generalizing limit' started file s with
  | zero =>
    have hlt := FileSystem.length_lt_chainLimit (fun q hq ↦ (hplaces q hq).1)
      (fun q hq ↦ (hplaces q hq).2) hnodup
    omega
  | succ limit ih =>
    cases limit' with
    | zero =>
      have hlt := FileSystem.length_lt_chainLimit (fun q hq ↦ (hplaces q hq).1)
        (fun q hq ↦ (hplaces q hq).2) hnodup
      omega
    | succ limit' =>
      have hamong := Path.isAmong_iff_mem hfile fun q hq ↦ (hplaces q hq).1
      unfold trackFrom
      split
      next => rfl
      next hnew =>
        rw [Bool.or_eq_true, hamong, not_or] at hnew
        have hprepare := Compiler.prepare_eq hc fs file s.journal
        rcases hprepared : prepare c fs file s.journal with ⟨journal, fault | draft⟩
        · rfl
        · rw [hprepared] at hprepare
          have hb : c.blueprint fs file = .ok (.ofDraft draft) := hprepare.symm
          have hplaces' : ∀ q ∈ file :: started, q.IsPlace ∧ fs.isFile q = true :=
            List.forall_mem_cons.2 ⟨⟨hfile, Compiler.isFile_of_blueprint hb⟩, hplaces⟩
          have hnested := trackReferences_congr hb
            (trackFrom c fs limit (file :: started)) (trackFrom c fs limit' (file :: started))
            (fun q s hq ↦ ih (hfs.isPlace hfile hq.1 hq.2) (by rw [List.length_cons]; omega)
              (by rw [List.length_cons]; omega) hplaces' (hnodup.cons hnew.2) s)
            (fun r (hr : r ∈ references draft.composes) ↦ hr) [] { s with journal := journal }
          simp only [hnested]

end Tracking

/-! ## The closure -/

theorem HasPlaces.exists_same {s : ModuleStore} (hs : s.HasPlaces) {q : Path}
    (hq : s.isTracked q = true) : ∃ x : Path, x.IsPlace ∧ x.components = q.components := by
  rw [isTracked_eq] at hq
  obtain ⟨m, hm⟩ := Option.isSome_iff_exists.1 hq
  obtain ⟨x, hx, hsame⟩ := hs.modules.mem_of_get? hm
  exact ⟨x, hs.modules.isPlace x (List.mem_map.2 ⟨_, hx, rfl⟩), hsame⟩

/-- Tracking a file comes to an end, begins to compile each file at most once, and changes neither
the modules nor the edges of files that were tracked before.  It succeeds exactly if every file
compiles that can be reached from it through files that were not tracked.  Then all that can be
reached is tracked with its edges, and nothing else has become tracked; otherwise the file itself is
not tracked. -/
theorem track_closure {c : Compiler} {fs : FileSystem} {s : ModuleStore}
    (hc : c.pipeline.IsDetermined) (hroot : c.root.isAbsolute = true)
    (hresolver : c.resolver.IsNamespaced) (hfs : c.Pinpoints fs) (hs : s.HasPlaces)
    (file : Path) :
    (∀ limit, fs.chainLimit ≤ limit →
      trackFrom c fs limit [] (c.absolute file) s = track c fs file s ∧
        ∀ g code sheet, g.IsPlace → fs.readText g = .ok code →
          Stylesheet.read g code = .ok sheet →
            Imports.inlineWithin ⟨fs, c.resolver⟩ limit sheet =
              Imports.inline ⟨fs, c.resolver⟩ sheet) ∧
      (begun c fs file s).Nodup ∧
      (∀ q, s.isTracked q = true →
        (track c fs file s).1.modules.get? q = s.modules.get? q ∧
          (track c fs file s).1.graph.dependencies q = s.graph.dependencies q) ∧
      ((track c fs file s).2 = .ok () ↔
        ∀ x, ReflTransGen (LeadsOn c fs s) (c.absolute file) x → s.isTracked x = false →
          c.Compiles fs x) ∧
      ((track c fs file s).2 = .ok () →
        (∀ q, q.IsPlace → ((track c fs file s).1.isTracked q = true ↔
          s.isTracked q = true ∨ ReflTransGen (LeadsOn c fs s) (c.absolute file) q)) ∧
        ∀ x y, ReflTransGen (LeadsOn c fs s) (c.absolute file) x → LeadsOn c fs s x y →
          y ∈ (track c fs file s).1.graph.dependencies x) ∧
      ((track c fs file s).2 ≠ .ok () →
        (track c fs file s).1.isTracked (c.absolute file) = false) := by
  have hplace : (c.absolute file).IsPlace := Path.isPlace_normalize (Path.isAbsolute_join hroot)
  obtain ⟨hsearch, hok, herror⟩ : _ ∧ _ ∧ _ := search_trackFrom hc hfs hplace
    (Nat.le_refl _ : fs.chainLimit ≤ fs.chainLimit + ([] : List Path).length)
    (List.forall_mem_nil _) List.nodup_nil hs
  change Search c fs [] _ s (track c fs file s).1 (begun c fs file s) at hsearch
  change (track c fs file s).2 = .ok () → Finished c fs [] (track c fs file s).1
    (begun c fs file s) ∧ ((track c fs file s).1.isTracked (c.absolute file) = true ∨ _) at hok
  change ∀ fault, (track c fs file s).2 = .error fault → (∃ x ∈ begun c fs file s, _) ∧
    (track c fs file s).1.isTracked (c.absolute file) = false at herror
  have hreached : (track c fs file s).2 = .ok () → ∀ x,
      ReflTransGen (LeadsOn c fs s) (c.absolute file) x →
        x.IsPlace ∧ (track c fs file s).1.isTracked x = true ∧
          (s.isTracked x = false → x ∈ begun c fs file s) := by
    intro h x hx
    obtain ⟨hfinished, htracked⟩ := hok h
    have hbegun : ∀ {q : Path}, q.IsPlace → (track c fs file s).1.isTracked q = true →
        s.isTracked q = false → q ∈ begun c fs file s := by
      intro q hq hqTracked hqUntracked
      refine (hsearch.new q hq hqTracked).resolve_left fun hbefore ↦ ?_
      rw [hqUntracked] at hbefore
      simp at hbefore
    induction hx with
    | refl =>
      have htracked' := htracked.resolve_right List.not_mem_nil
      exact ⟨hplace, htracked', hbegun hplace htracked'⟩
    | @tail x y _ hxy ih =>
      obtain ⟨hx, hxTracked, hxBegun⟩ := ih
      have hxMem := hxBegun hxy.1
      have hy := hfs.isPlace hx hxy.2 ((hfinished.compiles x hxMem).isFile hxy.2)
      have hyTracked := (hfinished.closed x hxMem y hxy.2).2.resolve_right List.not_mem_nil
      exact ⟨hy, hyTracked, hbegun hy hyTracked⟩
  refine ⟨fun limit hlimit ↦ ⟨?_, fun g code sheet hg hcode hsheet ↦ ?_⟩, hsearch.nodup,
    fun q hq ↦ ?_, ⟨fun h x hx hxUntracked ↦ ?_, fun hall ↦ ?_⟩,
    fun h ↦ ⟨fun q hq ↦ ⟨fun hqTracked ↦ ?_, ?_⟩, fun x y hx hxy ↦ ?_⟩, fun h ↦ ?_⟩
  · exact trackFrom_limit hc hfs hplace (by simpa using hlimit) (by simp)
      (List.forall_mem_nil _) List.nodup_nil s
  · exact Imports.inlineWithin_eq hresolver hfs.root hg hcode hsheet hlimit
  · obtain ⟨x, hx, hsame⟩ := hs.exists_same hq
    have hxTracked : s.isTracked x = true := by
      rwa [isTracked_eq, PathMap.get?_congr hsame, ← isTracked_eq]
    have hget := hsearch.get?_eq x hx hxTracked
    have hedges := hsearch.edges_eq x hx (.inl hxTracked)
    rw [PathMap.get?_congr hsame, PathMap.get?_congr hsame s.modules] at hget
    rw [ModuleGraph.edges, ModuleGraph.edges, PathMap.get?_congr hsame,
      PathMap.get?_congr hsame s.graph.targets] at hedges
    exact ⟨hget, congrArg Path.sort hedges⟩
  · exact (hok h).1.compiles x ((hreached h x hx).2.2 hxUntracked)
  · rcases hout : (track c fs file s).2 with fault | u
    · obtain ⟨⟨x, hx, hxFails⟩, -⟩ := herror fault hout
      obtain ⟨-, hxUntracked, -, r, rfl, hpath⟩ := hsearch.fresh x hx
      exact absurd (hall x hpath hxUntracked) hxFails
    · rfl
  · refine (hsearch.new q hq hqTracked).imp_right fun hqBegun ↦ ?_
    obtain ⟨-, -, -, r, rfl, hpath⟩ := hsearch.fresh q hqBegun
    exact hpath
  · rintro (hqTracked | hqReached)
    · exact hsearch.isTracked hq hqTracked
    · exact (hreached h q hqReached).2.1
  · obtain ⟨hxPlace, -, hxBegun⟩ := hreached h x hx
    rw [ModuleGraph.dependencies_eq, Path.mem_sort]
    exact ((hok h).1.closed x (hxBegun hxy.1) y hxy.2).1
  · rcases hout : (track c fs file s).2 with fault | u
    · exact (herror fault hout).2
    · exact absurd hout h

end ModuleStore

namespace Session.Sample

/-- Two files compose from each other, and one of them imports the other. -/
def circle : FileSystem := disk [("/a.mcss", rule ".a" "composes: b from './b'"),
  ("/b.mcss", "@import 'a';" ++ rule ".b" "composes: a from './a'")]

theorem suits_circle : start.compiler.Suits circle :=
  Compiler.suits_of_files (isKeyed_disk _) (by decide +kernel) (by decide +kernel)

end Session.Sample

namespace ModuleStore

open Session

/-- Both files of the circle are compiled, each once. -/
theorem track_closure_sample :
    (track Sample.start.compiler Sample.circle ⟨"a.mcss"⟩ .empty).2 = .ok () ∧
      begun Sample.start.compiler Sample.circle ⟨"a.mcss"⟩ .empty = [⟨"/a.mcss"⟩, ⟨"/b.mcss"⟩] ∧
      (begun Sample.start.compiler Sample.circle ⟨"a.mcss"⟩ .empty).Nodup ∧
      ReflTransGen (LeadsOn Sample.start.compiler Sample.circle .empty) ⟨"/a.mcss"⟩
        ⟨"/b.mcss"⟩ := by
  have hc := Sample.starts.isRegular
  obtain ⟨-, hnodup, -, -, htracked, -⟩ := track_closure hc.isDetermined hc.root hc.resolver
    (Sample.suits_circle.pinpoints hc) hasPlaces_empty ⟨"a.mcss"⟩
  have hrun : (track Sample.start.compiler Sample.circle ⟨"a.mcss"⟩ .empty).2 = .ok () ∧
      begun Sample.start.compiler Sample.circle ⟨"a.mcss"⟩ .empty =
        [⟨"/a.mcss"⟩, ⟨"/b.mcss"⟩] ∧
      (track Sample.start.compiler Sample.circle ⟨"a.mcss"⟩ .empty).1.isTracked ⟨"/b.mcss"⟩ =
        true := by decide +kernel
  obtain ⟨hok, hbegun, hlast⟩ := hrun
  refine ⟨hok, hbegun, hnodup, ?_⟩
  have hreached := ((htracked hok).1 ⟨"/b.mcss"⟩ (by decide)).1 hlast
  have hplace : Sample.start.compiler.absolute ⟨"a.mcss"⟩ = ⟨"/a.mcss"⟩ := by decide +kernel
  rw [hplace] at hreached
  exact hreached.resolve_left (by decide)

end ModuleStore

end StyleModules
