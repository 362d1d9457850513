import StyleModules.Proofs.Imports

/-!
# The graph of imports

The references of a chunk name other files, and so do the references in these.  Inlining is a
depth-first walk over this graph that leaves chunks when it comes back: what a file imports has its
chunk in front of that of the file, except where the walk has not come back yet because the
imported file is one that it came from.
-/

namespace StyleModules.Imports

open Relation Traversal

variable {s : Sources} {root file f g : Path} {c source : StyleChunk} {met new : List Path}
  {refs : List String} {chunks : List StyleChunk} {messages : List ImportMessage}

/-- The chunk of a file: the one at hand for the file that is compiled, what is read for others. -/
def chunkOf (s : Sources) (root : Path) (c : StyleChunk) (file : Path) : Except Fault StyleChunk :=
  if file = root then .ok c else readChunk s file

/-- An import of a local stylesheet that is in no layer and under no condition. -/
structure IsLocal (i : Css.Import) : Prop where
  layer : i.layer = none
  supports : i.supports = none
  media : i.media = []
  reference : Reference.isExternal i.address = false

/-- One file has a local import of another one, whether or not that exists. -/
def Imported (s : Sources) (root : Path) (c : StyleChunk) (file g : Path) : Prop :=
  ∃ source i, chunkOf s root c file = .ok source ∧
    Css.Rule.statement (.imported i) ∈ source.sheet.rules ∧ IsLocal i ∧
      target s.resolver file i.address = g

def Leads (s : Sources) (root : Path) (c : StyleChunk) : Path → Path → Prop :=
  ReflTransGen (Imported s root c)

/-- A file exists and has a chunk. -/
structure Loads (s : Sources) (root : Path) (c : StyleChunk) (file : Path) : Prop where
  isFile : s.files.isFile file = true
  chunk : ∃ source, chunkOf s root c file = .ok source

theorem chunkOf_root (s : Sources) (root : Path) (c : StyleChunk) :
    chunkOf s root c root = .ok c := if_pos rfl

theorem chunkOf_of_ne (h : file ≠ root) : chunkOf s root c file = readChunk s file := if_neg h

theorem chunkOf_of_fresh (hroot : root ∈ met) (fresh : g.isAmong met = false) :
    chunkOf s root c g = readChunk s g := by
  refine chunkOf_of_ne ?_
  rintro rfl
  exact Bool.eq_false_iff.1 fresh (Path.isAmong_of_mem hroot)

theorem reference?_eq_some_iff {r : Css.Rule} {reference : String} :
    reference? r = some reference ↔
      ∃ i, r = .statement (.imported i) ∧ IsLocal i ∧ i.address = reference := by
  unfold reference?
  split
  next i =>
    have hlocal : (i.isPlain && !Reference.isExternal i.address) = true ↔ IsLocal i := by
      simp only [Css.Import.isPlain, Bool.and_eq_true, Option.isNone_iff_eq_none,
        List.isEmpty_iff, Bool.not_eq_true']
      constructor
      · rintro ⟨⟨⟨hlayer, hsupports⟩, hmedia⟩, href⟩
        exact ⟨hlayer, hsupports, hmedia, href⟩
      · exact fun h ↦ ⟨⟨⟨h.layer, h.supports⟩, h.media⟩, h.reference⟩
    simp [hlocal]
  next hother => simpa using fun i hi ↦ absurd hi (hother i)

/-- The local imports of a file are what its references name. -/
theorem imported_iff (h : chunkOf s root c file = .ok source) :
    Imported s root c file g ↔ ∃ r ∈ references source, target s.resolver file r = g := by
  simp only [Imported, h, Except.ok.injEq, references, List.mem_filterMap, reference?_eq_some_iff]
  constructor
  · rintro ⟨_, i, rfl, hi, hlocal, htarget⟩
    exact ⟨i.address, ⟨_, hi, i, rfl, hlocal, rfl⟩, htarget⟩
  · rintro ⟨_, ⟨_, hi, i, rfl, hlocal, rfl⟩, htarget⟩
    exact ⟨source, i, rfl, hi, hlocal, htarget⟩

theorem imported_of_mem (h : chunkOf s root c file = .ok source) :
    ∀ r ∈ references source, Imported s root c file (target s.resolver file r) :=
  fun r hr ↦ (imported_iff h).2 ⟨r, hr, rfl⟩

def importsOf (s : Sources) (root : Path) (c : StyleChunk) (file : Path) : List Path :=
  match chunkOf s root c file with
  | .ok source => (references source).map (target s.resolver file)
  | .error _ => []

theorem importsOf_eq (h : chunkOf s root c file = .ok source) :
    importsOf s root c file = (references source).map (target s.resolver file) := by
  rw [importsOf, h]

theorem mem_importsOf : g ∈ importsOf s root c file ↔ Imported s root c file g := by
  cases hchunk : chunkOf s root c file with
  | error fault => simp [importsOf, Imported, hchunk]
  | ok source => rw [importsOf_eq hchunk, List.mem_map, imported_iff hchunk]

/-- The files that were met from the one that is compiled on: it is one of them, all others exist,
and none was met twice. -/
structure Met (s : Sources) (root : Path) (met : List Path) : Prop where
  start : root ∈ met
  places : ∀ g ∈ met, g.IsPlace ∧ g ≠ ⟨"/"⟩
  exist : ∀ g ∈ met, g ≠ root → s.files.isFile g = true
  distinct : Path.AreDistinct met

theorem Met.singleton (hroot : root.IsPlace) (hne : root ≠ ⟨"/"⟩) : Met s root [root] where
  start := List.mem_singleton_self root
  places := by simpa using ⟨hroot, hne⟩
  exist g hg hgne := absurd (List.mem_singleton.1 hg) hgne
  distinct := List.nodup_singleton _

theorem Met.nodup (h : Met s root met) : met.Nodup := List.Nodup.of_map _ h.distinct

/-- All but the file that is compiled are files on disk. -/
theorem Met.length_le (h : Met s root met) : met.length ≤ s.files.chainLimit := by
  have hlt : (met.erase root).length < s.files.chainLimit :=
    FileSystem.length_lt_chainLimit (fun g hg ↦ (h.places g (List.mem_of_mem_erase hg)).1)
      (fun g hg ↦ h.exist g (List.mem_of_mem_erase hg) (h.nodup.mem_erase_iff.1 hg).1)
      (h.nodup.erase root)
  rw [List.length_erase_of_mem h.start] at hlt
  omega

section Places

variable (hr : s.resolver.IsNamespaced) (hdir : s.files.isFile ⟨"/"⟩ = false)
include hr hdir

theorem Met.of_resolve (h : Met s root met) (hfile : file ∈ met) {reference : String}
    (resolved : resolve s file reference = .ok g) : g.IsPlace ∧ g ≠ ⟨"/"⟩ := by
  obtain ⟨rfl, hg⟩ := resolve_eq_ok resolved
  obtain ⟨hplace, hne⟩ := h.places file hfile
  refine ⟨isPlace_target hr hplace hne reference, fun heq ↦ ?_⟩
  rw [heq, hdir] at hg
  exact Bool.false_ne_true hg

theorem Met.append_singleton (h : Met s root met) (hfile : file ∈ met) {reference : String}
    (resolved : resolve s file reference = .ok g) (fresh : g.isAmong met = false) :
    Met s root (met ++ [g]) where
  start := List.mem_append_left _ h.start
  places := by
    refine List.forall_mem_append.2 ⟨h.places, List.forall_mem_singleton.2 ?_⟩
    exact h.of_resolve hr hdir hfile resolved
  exist := by
    refine List.forall_mem_append.2 ⟨h.exist, List.forall_mem_singleton.2 fun _ ↦ ?_⟩
    exact (resolve_eq_ok resolved).2
  distinct := h.distinct.append_singleton (Bool.eq_false_iff.1 fresh)

theorem Met.append (h : Met s root met) (hfile : file ∈ met)
    (hinlines : Inlines s file met refs new chunks messages) : Met s root (met ++ new) := by
  induction hinlines with
  | nil => simpa using h
  | known _ _ _ ih => exact ih h hfile
  | pull resolved fresh _ _ _ ihInside ihRest =>
    have hinner := ihInside (h.append_singleton hr hdir hfile resolved fresh) (by simp)
    simpa using ihRest (by simpa using hinner) (List.mem_append_left _ hfile)

end Places

/-- The files that are inlined are those that a depth-first walk over the imports finds. -/
theorem Inlines.preorder (h : Inlines s file met refs new chunks messages) (hroot : root ∈ met) :
    Preorder (importsOf s root c) met (refs.map (target s.resolver file)) new := by
  induction h with
  | nil => exact .nil _
  | known resolved known _ ih =>
    rw [List.map_cons, ← (resolve_eq_ok resolved).1]
    exact .skip known (ih hroot)
  | pull resolved fresh read _ _ ihInside ihRest =>
    have hinside := ihInside (List.mem_append_left _ hroot)
    rw [← importsOf_eq ((chunkOf_of_fresh hroot fresh).trans read)] at hinside
    rw [List.map_cons, ← (resolve_eq_ok resolved).1]
    exact .visit fresh hinside (ihRest (List.mem_append_left _ hroot))

/-- Every import of a file that is inlined names a file that exists. -/
theorem Inlines.isFile_of_imported (h : Inlines s file met refs new chunks messages)
    (hroot : root ∈ met) :
    (∀ r ∈ refs, s.files.isFile (target s.resolver file r) = true) ∧
      ∀ f ∈ new, ∀ g, Imported s root c f g → s.files.isFile g = true := by
  induction h with
  | nil => exact ⟨List.forall_mem_nil _, List.forall_mem_nil _⟩
  | known resolved _ _ ih =>
    obtain ⟨rfl, hg⟩ := resolve_eq_ok resolved
    exact ⟨List.forall_mem_cons.2 ⟨hg, (ih hroot).1⟩, (ih hroot).2⟩
  | @pull _ g _ _ _ _ _ imported _ _ _ _ resolved fresh read _ _ ihInside ihRest =>
    have hinside := ihInside (List.mem_append_left _ hroot)
    have hrest := ihRest (List.mem_append_left _ hroot)
    have himports : ∀ x, Imported s root c g x → s.files.isFile x = true := by
      intro x hx
      obtain ⟨r, hr, rfl⟩ := (imported_iff ((chunkOf_of_fresh hroot fresh).trans read)).1 hx
      exact hinside.1 r hr
    obtain ⟨rfl, hg⟩ := resolve_eq_ok resolved
    exact ⟨List.forall_mem_cons.2 ⟨hg, hrest.1⟩, List.forall_mem_append.2
      ⟨List.forall_mem_cons.2 ⟨himports, hinside.2⟩, hrest.2⟩⟩

/-- Every message tells an import that is there. -/
theorem Inlines.imported (h : Inlines s file met refs new chunks messages) (hroot : root ∈ met)
    (hrefs : ∀ r ∈ refs, Imported s root c file (target s.resolver file r)) :
    ∀ m ∈ messages, Imported s root c m.parent m.file := by
  induction h with
  | nil => exact List.forall_mem_nil _
  | known _ _ _ ih => exact ih hroot (List.forall_mem_cons.1 hrefs).2
  | pull resolved fresh read _ _ ihInside ihRest =>
    obtain ⟨hg, hrest⟩ := List.forall_mem_cons.1 hrefs
    rw [← (resolve_eq_ok resolved).1] at hg
    have himports := imported_of_mem ((chunkOf_of_fresh (c := c) hroot fresh).trans read)
    exact List.forall_mem_append.2 ⟨ihInside (List.mem_append_left _ hroot) himports,
      List.forall_mem_cons.2 ⟨hg, ihRest (List.mem_append_left _ hroot) hrest⟩⟩

/-- While the walk is at a file, each file that was met is done, so that its chunk comes before all
that follow, or leads to the file that the walk is at.  Then each import of a file that is inlined
is done, or its chunk comes before that of the file, or it leads to the file. -/
theorem Inlines.precedes (hr : s.resolver.IsNamespaced) (hdir : s.files.isFile ⟨"/"⟩ = false)
    (h : Inlines s file met refs new chunks messages) (hmet : Met s root met) (hfile : file ∈ met)
    (hrefs : ∀ r ∈ refs, Imported s root c file (target s.resolver file r))
    (done : List Path) (hdone : ∀ g ∈ met, g ∈ done ∨ Leads s root c g file) :
    (∀ r ∈ refs, target s.resolver file r ∈ done ∨ target s.resolver file r ∈ filesOf chunks ∨
        Leads s root c (target s.resolver file r) file) ∧
      ∀ f ∈ new, ∀ g, Imported s root c f g →
        g ∈ done ∨ g.Precedes f (filesOf chunks) ∨ Leads s root c g f := by
  induction h generalizing done with
  | nil => exact ⟨List.forall_mem_nil _, List.forall_mem_nil _⟩
  | known resolved known _ ih =>
    obtain ⟨-, hrest⟩ := List.forall_mem_cons.1 hrefs
    obtain ⟨hplace, -⟩ := hmet.of_resolve hr hdir hfile resolved
    rw [Path.isAmong_iff_mem hplace fun x hx ↦ (hmet.places x hx).1] at known
    obtain ⟨hothers, hnew⟩ := ih hmet hfile hrest done hdone
    rw [(resolve_eq_ok resolved).1] at known
    exact ⟨List.forall_mem_cons.2 ⟨(hdone _ known).imp_right .inr, hothers⟩, hnew⟩
  | @pull file g met inner new reference refs imported before chunks _ _ resolved fresh read inside
      rest ihInside ihRest =>
    obtain ⟨hg, hrest⟩ := List.forall_mem_cons.1 hrefs
    have hchunk := (chunkOf_of_fresh (c := c) hmet.start fresh).trans read
    have hopened := hmet.append_singleton hr hdir hfile resolved fresh
    have hclosed : Met s root (met ++ g :: inner) := by
      simpa using hopened.append hr hdir (by simp) inside
    rw [← (resolve_eq_ok resolved).1] at hg
    -- whatever leads to the file leads on to the imported one
    have hopen : ∀ x ∈ met ++ [g], x ∈ done ∨ Leads s root c x g := by
      refine List.forall_mem_append.2 ⟨fun x hx ↦ ?_, List.forall_mem_singleton.2 ?_⟩
      · exact (hdone x hx).imp_right fun hlead ↦ hlead.tail hg
      · exact .inr ReflTransGen.refl
    obtain ⟨hgImports, hinner⟩ := ihInside hopened (by simp) (imported_of_mem hchunk) done hopen
    -- when the walk comes back from there, that file and all behind it have left their chunks
    have hback : ∀ x ∈ met ++ g :: inner,
        x ∈ done ++ (filesOf before ++ [g]) ∨ Leads s root c x file := by
      refine List.forall_mem_append.2 ⟨fun x hx ↦ ?_, List.forall_mem_cons.2 ⟨?_, fun x hx ↦ ?_⟩⟩
      · exact (hdone x hx).imp_left (List.mem_append_left _)
      · exact .inl (by simp)
      · exact .inl (by simp [inside.perm.mem_iff.2 hx])
    obtain ⟨hothers, hnew⟩ := ihRest hclosed (List.mem_append_left _ hfile) hrest _ hback
    rw [filesOf_withoutReferences (file_of_readChunk read)]
    refine ⟨List.forall_mem_cons.2 ⟨.inr (.inl ?_), fun r hr ↦ ?_⟩, List.forall_mem_append.2
      ⟨List.forall_mem_cons.2 ⟨fun y hy ↦ ?_, fun f hf y hy ↦ ?_⟩, fun f hf y hy ↦ ?_⟩⟩
    · simp [← (resolve_eq_ok resolved).1]
    · rcases hothers r hr with hdone | hchunk | hlead
      · exact (List.mem_append.1 hdone).imp_right fun h ↦ .inl (by grind)
      · exact .inr (.inl (by simp [hchunk]))
      · exact .inr (.inr hlead)
    · obtain ⟨r, hr, rfl⟩ := (imported_iff hchunk).1 hy
      refine (hgImports r hr).imp_right (Or.imp_left fun hchunk ↦ ?_)
      exact Path.precedes_append (Path.isAmong_of_mem hchunk)
        (Path.isAmong_of_mem List.mem_cons_self)
    · exact (hinner f hf y hy).imp_right (Or.imp_left fun h ↦ h.append _)
    · rw [List.append_cons]
      rcases hnew f hf y hy with hdone | hprecedes | hlead
      · refine (List.mem_append.1 hdone).imp_right fun hchunk ↦ .inl ?_
        exact Path.precedes_append (Path.isAmong_of_mem hchunk)
          (Path.isAmong_of_mem (rest.perm.mem_iff.2 hf))
      · exact .inr (.inl (hprecedes.prepend _))
      · exact .inr (.inr hlead)

end StyleModules.Imports
