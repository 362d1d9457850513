import StyleModules.Proofs.Listing
import StyleModules.Proofs.Memory

/-!
# What the maps refer to

The output maps refer to each other and to files: a source to its bundle, a bundle to the file it
was written to.  A bundle is stored before it is recorded, its name is made from what is stored, and
sources are recorded together with their bundle.  So nothing is missing that the maps refer to, as
long as others keep away from the output directory and no map is written over a bundle.
-/

namespace StyleModules

open FileTree

theorem Sha1.hexDigit_ne_slash {n : Nat} (h : n < 16) : hexDigit n ≠ '/' := by
  have hall : ∀ n : Fin 16, hexDigit n ≠ '/' := by decide
  exact hall ⟨n, h⟩

theorem Sha1.State.slash_not_mem_hex (s : Sha1.State) : '/' ∉ s.hex := by
  intro h
  obtain ⟨i, -, hi⟩ := List.mem_map.1 h
  exact Sha1.hexDigit_ne_slash (Nat.mod_lt _ (by decide)) hi

/-- A bundle can be stored under its name. -/
theorem isName_hashedBundleName (css : String) : Path.IsName (hashedBundleName css) := by
  have hextension : ".css".toList = ['.', 'c', 's', 's'] := rfl
  have htext : (hashedBundleName css).toList =
      (Sha1.digest css.toUTF8.toList).hex.take contentDigestLength ++ ['.', 'c', 's', 's'] := by
    rw [hashedBundleName, contentDigest, String.toList_append, String.toList_ofList, hextension]
  have hlong : 4 ≤ (hashedBundleName css).toList.length := by
    rw [htext, List.length_append]
    exact Nat.le_add_left _ _
  refine ⟨fun h ↦ ?_, fun h ↦ ?_, fun h ↦ ?_, ?_⟩
  · simp [h] at hlong
  · simp [h] at hlong
  · simp [h] at hlong
  · rw [htext, List.mem_append, not_or]
    exact ⟨fun h ↦ Sha1.State.slash_not_mem_hex _ (List.mem_of_mem_take h), by decide⟩

namespace OutputMaps

variable {m : OutputMaps}

theorem IsPaired.recordSource (h : m.IsPaired) (source : String) (composition : Composition) :
    (m.recordSource source composition).IsPaired := by
  refine ⟨h.resources.insert _ _, h.selectors.insert _ _, fun key ↦ ?_⟩
  change (m.resources.insert (Path.mk source).resourceKey bundleName).get? key =
    ((m.selectors.insert (Path.mk source).resourceKey composition).get? key).map _
  by_cases hkey : key = (Path.mk source).resourceKey
  · rw [hkey, h.resources.get?_insert_self, h.selectors.get?_insert_self, Option.map_some]
  · rw [Table.get?_insert_of_ne hkey, Table.get?_insert_of_ne hkey, h.same]

theorem IsPaired.recordBundle (h : m.IsPaired) (name : String) (bundle : Bundle) :
    (m.recordBundle name bundle).IsPaired := by
  have hfold : ∀ (entries : List (String × Composition)) (m : OutputMaps), m.IsPaired →
      (entries.foldl (fun m e ↦ m.recordSource e.1 e.2) m).IsPaired := by
    intro entries
    induction entries with
    | nil => exact fun _ h ↦ h
    | cons e entries ih => exact fun m h ↦ ih _ (h.recordSource e.1 e.2)
  exact hfold _ _ ⟨h.resources, h.selectors, h.same⟩

theorem bundles_recordBundle (m : OutputMaps) (name : String) (bundle : Bundle) :
    (m.recordBundle name bundle).bundles = m.bundles.insert bundleName name := by
  have hfold : ∀ (entries : List (String × Composition)) (m : OutputMaps),
      (entries.foldl (fun m e ↦ m.recordSource e.1 e.2) m).bundles = m.bundles := by
    intro entries
    induction entries with
    | nil => exact fun _ ↦ rfl
    | cons e entries ih => exact fun m ↦ ih _
  exact hfold _ _

theorem bundles_removeAll (keys : List String) (m : OutputMaps) :
    (keys.foldl removeSource m).bundles = m.bundles := by
  induction keys generalizing m with
  | nil => rfl
  | cons key keys ih => exact ih _

end OutputMaps

namespace Session

variable {s s' : Session}

def bundleFile (s : Session) (name : String) : Path := s.outputDirectory.join ⟨name⟩

def mapFiles (s : Session) : List Path :=
  [s.options.mapPaths.resources, s.options.mapPaths.bundles,
    s.options.mapPaths.selectors].filterMap fun p ↦ p.map s.root.join

/-- No map goes to a file of a bundle on record or below it. -/
def HasMapsApart (s : Session) : Prop :=
  ∀ e ∈ s.maps.bundles.entries, ∀ p ∈ s.mapFiles, ¬ p.normalize.IsBelow (s.bundleFile e.2)

instance (s : Session) : Decidable s.HasMapsApart :=
  inferInstanceAs (Decidable (∀ e ∈ s.maps.bundles.entries, ∀ p ∈ s.mapFiles,
    ¬ p.normalize.IsBelow (s.bundleFile e.2)))

/-- Writing a bundle either leaves maps and files as they were, or stores the bundle and records
it. -/
theorem writeBundle_memory {t : FileTree} (hfs : s.fs = .memory t) :
    (s.writeBundle.1.maps = s.maps ∧ s.writeBundle.1.fs = s.fs) ∨ ∃ bundle : Bundle,
      t.hasDirectory (t.place (s.bundleFile (hashedBundleName bundle.css))) = false ∧
        s.writeBundle.1.maps = s.maps.recordBundle (hashedBundleName bundle.css) bundle ∧
        s.writeBundle.1.fs = .memory ((Memory.Access.write
          (s.bundleFile (hashedBundleName bundle.css)) bundle.css.toUTF8).perform t) := by
  unfold writeBundle OutputMaps.writeBundle
  rcases s.store.output s.compiler (s.outputDirectory.join ⟨bundleName⟩)
    with ⟨store, fault | bundle⟩
  · exact .inl ⟨rfl, rfl⟩
  · simp only
    split
    next => exact .inl ⟨rfl, rfl⟩
    next =>
      rw [hfs, FileSystem.writeText, FileSystem.write_memory]
      cases hdirectory : t.hasDirectory (t.place (s.bundleFile (hashedBundleName bundle.css))) with
      | false =>
        refine .inr ⟨bundle, hdirectory, ?_⟩
        rw [bundleFile] at hdirectory
        simp [hdirectory, bundleFile]
      | true =>
        rw [bundleFile] at hdirectory
        simp [hdirectory, Memory.perform_write]

theorem outputDirectory_writeBundle (s : Session) :
    s.writeBundle.1.outputDirectory = s.outputDirectory := by
  obtain ⟨fs, maps, journal, hwritten⟩ := fst_writeBundle s
  rw [hwritten]

theorem bundleFile_writeBundle (s : Session) (name : String) :
    s.writeBundle.1.bundleFile name = s.bundleFile name := by
  rw [bundleFile, outputDirectory_writeBundle, bundleFile]

/-- Writing files in order is a sequence of accesses to some of them. -/
theorem fst_writeAll_memory (files : List (Option Path × Json)) (t : FileTree) :
    ∃ accesses, (writeAll files (.memory t)).1 = .memory (Memory.afterAll t accesses) ∧
      ∀ a ∈ accesses, ∀ p, a.target? = some p → some p ∈ files.map Prod.fst := by
  induction files generalizing t with
  | nil => exact ⟨[], rfl, List.forall_mem_nil _⟩
  | cons file files ih =>
    obtain ⟨_ | p, value⟩ := file
    · obtain ⟨accesses, hwritten, htargets⟩ := ih t
      exact ⟨accesses, hwritten, fun a ha p hp ↦ List.mem_cons_of_mem _ (htargets a ha p hp)⟩
    · let access := Memory.Access.write p value.pretty.toUTF8
      rw [writeAll, FileSystem.writeJson, FileSystem.writeText, FileSystem.write_memory]
      cases hdirectory : t.hasDirectory (t.place p) with
      | true =>
        refine ⟨[access], rfl, List.forall_mem_singleton.2 fun q hq ↦ ?_⟩
        exact hq ▸ List.mem_cons_self
      | false =>
        obtain ⟨accesses, hwritten, htargets⟩ := ih (access.perform t)
        refine ⟨access :: accesses, hwritten, List.forall_mem_cons.2 ⟨fun q hq ↦ ?_, ?_⟩⟩
        · exact hq ▸ List.mem_cons_self
        · exact fun a ha q hq ↦ List.mem_cons_of_mem _ (htargets a ha q hq)

/-! ## The invariant -/

/-- All that the maps refer to is there. -/
structure IsBacked (s : Session) : Prop where
  fs : ∃ t, s.fs = .memory t ∧ t.IsSound
  root : s.root.isAbsolute = true
  outputDirectory : s.outputDirectory.IsPlace
  maps : s.maps.IsPaired
  bundles : s.maps.bundles.IsSorted
  known : ∀ name, (s.maps.bundles.get? name).isSome = true → name = bundleName
  listed : ∀ key, (s.maps.selectors.get? key).isSome = true →
    (s.maps.bundles.get? bundleName).isSome = true
  stored : ∀ name file, s.maps.bundles.get? name = some file → ∃ css,
    file = hashedBundleName css ∧ s.fs.tree.entry? (s.bundleFile file) = some (.file css.toUTF8)

/-- Where bundles are stored is below the output directory. -/
theorem IsBacked.isBelow (h : s.IsBacked) (css : String) :
    (s.bundleFile (hashedBundleName css)).IsPlace ∧
      (s.bundleFile (hashedBundleName css)).IsBelow s.outputDirectory :=
  h.outputDirectory.join_isBelow (isName_hashedBundleName css)

/-- Files can change as long as the bundles on record stay. -/
theorem IsBacked.of_fs (h : s.IsBacked) {t : FileTree} (ht : t.IsSound)
    (hstays : ∀ e ∈ s.maps.bundles.entries, ∀ css, e.2 = hashedBundleName css →
      t.entry? (s.bundleFile e.2) = s.fs.tree.entry? (s.bundleFile e.2)) :
    ({ s with fs := .memory t } : Session).IsBacked where
  fs := ⟨t, rfl, ht⟩
  root := h.root
  outputDirectory := h.outputDirectory
  maps := h.maps
  bundles := h.bundles
  known := h.known
  listed := h.listed
  stored name file hfile := by
    obtain ⟨css, hname, hentry⟩ := h.stored name file hfile
    exact ⟨css, hname, (hstays (name, file) (Table.lookup_mem hfile) css hname).trans hentry⟩

/-- Sources can be taken off the lists. -/
theorem IsBacked.removeAll (h : s.IsBacked) (hsetup : s.SameSetup s') (keys : List String)
    (hmaps : s'.maps = keys.foldl OutputMaps.removeSource s.maps) : s'.IsBacked := by
  have hbundles : s'.maps.bundles = s.maps.bundles := by
    rw [hmaps, OutputMaps.bundles_removeAll]
  refine ⟨hsetup.fs ▸ h.fs, ?_, hsetup.outputDirectory ▸ h.outputDirectory,
    hmaps ▸ h.maps.removeAll keys, hbundles ▸ h.bundles, hbundles ▸ h.known, fun key hkey ↦ ?_, ?_⟩
  · rw [Session.root, hsetup.compiler]
    exact h.root
  · rw [hmaps, OutputMaps.get?_removeAll] at hkey
    rw [hbundles]
    split at hkey
    next => simp at hkey
    next => exact h.listed key hkey
  · rw [hbundles, hsetup.fs]
    unfold bundleFile
    rw [hsetup.outputDirectory]
    exact h.stored

theorem IsBacked.handle (h : s.IsBacked) (e : FileEvent) : (s.handle e).1.IsBacked :=
  h.removeAll (sameSetup_handle s e) _ (maps_handle s e)

theorem IsBacked.evicting (h : s.IsBacked) (file : Path) : (s.evicting file).IsBacked :=
  h.removeAll (sameSetup_evicting s file) [] (maps_evicting s file)

theorem IsBacked.foldl_handleInBatch (events : List FileEvent) (state : Session × BatchReport)
    (h : state.1.IsBacked) : (events.foldl handleInBatch state).1.IsBacked := by
  rw [fst_foldl_handleInBatch]
  exact heard_preserves (P := Session.IsBacked) (fun _ e _ h ↦ h.handle e) events h

/-- A bundle is stored before it is recorded. -/
theorem IsBacked.writeBundle (h : s.IsBacked) : s.writeBundle.1.IsBacked := by
  obtain ⟨t, hfs, ht⟩ := h.fs
  have hroot : s.writeBundle.1.root = s.root := by
    rw [Session.root, compiler_writeBundle]
    rfl
  have hdirectory := outputDirectory_writeBundle s
  rcases writeBundle_memory hfs with ⟨hmaps, hsame⟩ | ⟨bundle, hfree, hmaps, hwritten⟩
  · refine ⟨hsame ▸ h.fs, hroot ▸ h.root, hdirectory ▸ h.outputDirectory, hmaps ▸ h.maps,
      hmaps ▸ h.bundles, hmaps ▸ h.known, hmaps ▸ h.listed, fun name file hfile ↦ ?_⟩
    rw [hsame, bundleFile_writeBundle]
    exact h.stored name file (hmaps ▸ hfile)
  · have hbundles := OutputMaps.bundles_recordBundle s.maps (hashedBundleName bundle.css) bundle
    refine ⟨⟨_, hwritten, Memory.isSound_perform ht _⟩, hroot ▸ h.root,
      hdirectory ▸ h.outputDirectory, hmaps ▸ h.maps.recordBundle _ _, ?_, fun name hname ↦ ?_,
      fun key hkey ↦ ?_, fun name file hfile ↦ ?_⟩
    · rw [hmaps, hbundles]
      exact h.bundles.insert _ _
    · rw [hmaps, hbundles] at hname
      by_contra hne
      rw [Table.get?_insert_of_ne hne] at hname
      exact hne (h.known name hname)
    · rw [hmaps, hbundles, h.bundles.get?_insert_self, Option.isSome_some]
    · rw [hmaps, hbundles] at hfile
      by_cases hname : name = bundleName
      · rw [hname, h.bundles.get?_insert_self] at hfile
        obtain rfl := Option.some.inj hfile
        have hplace := place_of_isPlace (h.isBelow bundle.css).1 t
        refine ⟨bundle.css, rfl, ?_⟩
        have hentry := Memory.entry?_write ht bundle.css.toUTF8 hfree
        rw [hplace] at hentry
        rw [hwritten, bundleFile_writeBundle]
        exact hentry
      · rw [Table.get?_insert_of_ne hname] at hfile
        exact absurd (h.known name (hfile ▸ rfl)) hname

/-- Maps that go elsewhere leave the bundle as it is. -/
theorem IsBacked.writeMaps (h : s.IsBacked) (hapart : s.HasMapsApart) :
    s.writeMaps.1.IsBacked := by
  obtain ⟨t, hfs, ht⟩ := h.fs
  obtain ⟨accesses, hwritten, htargets⟩ := fst_writeAll_memory [
    (s.options.mapPaths.resources.map s.root.join, s.maps.resourcesJson),
    (s.options.mapPaths.bundles.map s.root.join, s.maps.bundlesJson),
    (s.options.mapPaths.selectors.map s.root.join, s.maps.selectorsJson)] t
  have hsession : s.writeMaps.1 = { s with fs := .memory (Memory.afterAll t accesses) } := by
    rw [← hwritten, ← hfs]
    rfl
  rw [hsession]
  refine h.of_fs (Memory.isSound_afterAll ht accesses) fun e he css hcss ↦ ?_
  rw [hfs]
  refine Memory.entry?_afterAll ht fun a ha p hp ↦ ?_
  have hmap : p ∈ s.mapFiles := by
    have htarget := htargets a ha p hp
    simp only [List.map_cons, List.map_nil, List.mem_cons, List.not_mem_nil, or_false] at htarget
    simp only [mapFiles, List.mem_filterMap, List.mem_cons, List.not_mem_nil, or_false,
      exists_eq_or_imp, exists_eq_left]
    tauto
  refine ⟨?_, hapart e he p hmap⟩
  obtain ⟨q, -, hq⟩ := List.mem_filterMap.1 hmap
  obtain ⟨d, -, rfl⟩ := Option.map_eq_some_iff.1 hq
  exact Path.isAbsolute_join h.root

/-- Others can do what they want outside the output directory. -/
theorem IsBacked.access (h : s.IsBacked) {t : FileTree} (hfs : s.fs = .memory t)
    {a : Memory.Access} (hspares : a.Spares t s.outputDirectory) :
    ({ s with fs := .memory (a.perform t) } : Session).IsBacked := by
  obtain ⟨t', hfs', ht⟩ := h.fs
  obtain rfl : t = t' := FileSystem.memory.inj (hfs.symm.trans hfs')
  refine h.of_fs (Memory.isSound_perform ht a) fun e he css hcss ↦ ?_
  rw [hfs]
  refine Memory.entry?_perform ht fun p hp hbelow ↦ hspares p hp (hbelow.trans ?_)
  rw [hcss]
  exact (h.isBelow css).2

theorem IsBacked.ofStart {t : FileTree} (ht : t.IsSound) {o : Options} {extras : Extras}
    {start : Session} (hstart : Session.start (.memory t) o extras = .ok start) :
    start.IsBacked := by
  have hroot := isAbsolute_root_of_start hstart fun d hd ↦ by
    obtain rfl := Except.ok.inj hd
    exact ht.workingDirectory
  obtain ⟨d, out, -, hout, rfl⟩ := start_eq_ok hstart
  refine ⟨⟨t, rfl, ht⟩, hroot, ?_, OutputMaps.isPaired_empty, Table.isSorted_empty,
    fun name hname ↦ ?_, fun key hkey ↦ ?_, fun name file hfile ↦ ?_⟩
  · unfold outputDirectoryOf at hout
    split at hout
    next directory _ =>
      split at hout
      next => simp at hout
      next => exact Except.ok.inj hout ▸ Path.isPlace_normalize (Path.isAbsolute_join hroot)
    next => simp at hout
  · simp [OutputMaps.empty] at hname
  · simp [OutputMaps.empty] at hkey
  · simp [OutputMaps.empty] at hfile

/-! ## Runs -/

/-- What can be asked of a session. -/
inductive Call where
  | process (events : List FileEvent)
  | output
  | writeMaps
  | invalidate (file : Path)
  | event (e : FileEvent)

/-- The session after a call, whether or not it fails. -/
def Call.perform (s : Session) : Call → Session
  | process events => (s.process events).1
  | output => s.writeBundle.1
  | writeMaps => s.writeMaps.1
  | invalidate file => (s.evict file).2
  | event e => (s.handle e).1

/-- A session is used for a while.  Others use its files beside it, but keep away from the output
directory, and no map goes to a bundle or below it. -/
inductive Undisturbed (start : Session) : Session → Prop
  | start : Undisturbed start start
  | call {s : Session} (h : Undisturbed start s) (call : Call)
      (apart : (call.perform s).HasMapsApart) : Undisturbed start (call.perform s)
  | access {s : Session} {t : FileTree} (h : Undisturbed start s) (fs : s.fs = .memory t)
      (a : Memory.Access) (spares : a.Spares t s.outputDirectory) :
      Undisturbed start { s with fs := .memory (a.perform t) }

theorem IsBacked.perform (h : s.IsBacked) (call : Call)
    (hapart : (call.perform s).HasMapsApart) : (call.perform s).IsBacked := by
  cases call with
  | process events =>
    have hwritten := (h.foldl_handleInBatch events (s, .empty)).writeBundle
    change (s.process events).1.IsBacked
    change (s.process events).1.HasMapsApart at hapart
    rcases fst_process s events with heq | heq
    · exact heq ▸ hwritten
    · rw [heq] at hapart ⊢
      exact hwritten.writeMaps hapart
  | output => exact h.writeBundle
  | writeMaps => exact h.writeMaps hapart
  | invalidate file => exact h.evicting file
  | event e => exact h.handle e

theorem Undisturbed.isBacked {start : Session} (h : Undisturbed start s)
    (hstart : start.IsBacked) : s.IsBacked := by
  induction h with
  | start => exact hstart
  | call _ call hapart ih => exact ih.perform call hapart
  | access _ hfs a hspares ih => exact ih.access hfs hspares

theorem maps_process_of_not_ships (s : Session) (events : List FileEvent)
    (h : ¬ (events.foldl handleInBatch (s, .empty)).1.Ships) :
    (s.process events).1.maps = (events.foldl handleInBatch (s, .empty)).1.maps := by
  have hmaps := maps_writeBundle_of_not_ships h
  rcases fst_process s events with heq | heq
  · exact heq ▸ hmaps
  · exact heq ▸ hmaps

/-- Whatever was done to a session in memory, all that its maps refer to is there; and a bundle
that is empty or cannot be written changes none of them. -/
theorem maps_refer_to_output {accesses : List Memory.Access} {o : Options} {extras : Extras}
    {start : Session}
    (hstart : Session.start (.memory (Memory.afterAll .empty accesses)) o extras = .ok start)
    (h : Undisturbed start s) :
    (∀ key, s.maps.resources.contains key = s.maps.selectors.contains key) ∧
    (∀ key name, s.maps.resources.get? key = some name → s.maps.bundles.contains name = true) ∧
    (∀ name file, s.maps.bundles.get? name = some file →
      s.fs.isFile (s.outputDirectory.join ⟨file⟩) = true ∧
      ∃ contents, s.fs.read (s.outputDirectory.join ⟨file⟩) = .ok contents ∧
        file = String.ofList ((Sha1.digest contents.toList).hex.take 12) ++ ".css") ∧
    (¬ s.Ships → s.writeBundle.1.maps = s.maps) ∧
    ∀ events, ¬ (events.foldl handleInBatch (s, .empty)).1.Ships →
      (s.process events).1.maps = (events.foldl handleInBatch (s, .empty)).1.maps := by
  have hbacked := h.isBacked
    (.ofStart (Memory.isSound_afterAll isSound_empty accesses) hstart)
  refine ⟨fun key ↦ ?_, fun key name hname ↦ ?_, fun name file hfile ↦ ?_,
    maps_writeBundle_of_not_ships, maps_process_of_not_ships s⟩
  · rw [Table.contains, Table.contains, hbacked.maps.same, Option.isSome_map]
  · rw [hbacked.maps.same] at hname
    obtain ⟨composition, hcomposition, rfl⟩ := Option.map_eq_some_iff.1 hname
    exact hbacked.listed key (hcomposition ▸ rfl)
  · obtain ⟨css, rfl, hentry⟩ := hbacked.stored name file hfile
    obtain ⟨t, hfs, -⟩ := hbacked.fs
    have hplace : t.place (s.bundleFile (hashedBundleName css)) = _ :=
      place_of_isPlace (hbacked.isBelow css).1 t
    rw [hfs] at hentry ⊢
    rw [FileSystem.tree, ← hplace] at hentry
    refine ⟨?_, _, FileSystem.read_memory t _ hentry, rfl⟩
    rw [bundleFile] at hentry
    rw [FileSystem.isFile, Memory.isFile, contents?, hentry]
    rfl

namespace Sample

/-- A project of one file, whose maps are written beside the bundle. -/
def written : FileTree :=
  Memory.afterAll .empty [.write ⟨"/a.mcss"⟩ ".a\x7btop:0\x7d".toUTF8]

def mapped : Options :=
  { options with mapPaths := ⟨some ⟨"out/resources.json"⟩, none, some ⟨"out/selectors.json"⟩⟩ }

theorem isSome_startMapped :
    (Session.start (.memory written) mapped .none).toOption.isSome = true := by
  decide +kernel

def startMapped : Session :=
  (Session.start (.memory written) mapped .none).toOption.get isSome_startMapped

/-- The session once the file was compiled. -/
def compiled : Session := (Call.process [⟨.init, ⟨"a.mcss"⟩⟩]).perform startMapped

/-- The session once the file was written anew. -/
def rewritten : Session :=
  { compiled with fs := .memory ((Memory.Access.write ⟨"/a.mcss"⟩
    ".b\x7btop:0\x7d".toUTF8).perform compiled.fs.tree) }

/-- The bundle was written, away from the maps and from the file, and stays known. -/
theorem written_compiled : compiled.HasMapsApart ∧
    ¬ (Path.normalize ⟨"/a.mcss"⟩).IsBelow compiled.outputDirectory ∧
    (rewritten.maps.bundles.get? bundleName).isSome = true := by
  decide +kernel

theorem undisturbed_rewritten : Undisturbed startMapped rewritten := by
  have hcompiled : Undisturbed startMapped compiled :=
    .call .start (.process [⟨.init, ⟨"a.mcss"⟩⟩]) written_compiled.1
  have hmemory : compiled.fs = .memory compiled.fs.tree := by
    obtain ⟨t, ht, -⟩ := (hcompiled.isBacked (.ofStart (Memory.isSound_afterAll isSound_empty _)
      (eq_ok_get isSome_startMapped))).fs
    rw [ht]
    rfl
  refine hcompiled.access hmemory _ fun p hp ↦ ?_
  obtain rfl := Option.some.inj hp
  rw [place_of_isAbsolute rfl]
  exact written_compiled.2.1

end Sample

theorem maps_refer_to_output_sample : Undisturbed Sample.startMapped Sample.rewritten ∧
    ∃ file, Sample.rewritten.maps.bundles.get? bundleName = some file ∧
      Sample.rewritten.fs.isFile (Sample.rewritten.outputDirectory.join ⟨file⟩) = true ∧
      ∃ contents, Sample.rewritten.fs.read
          (Sample.rewritten.outputDirectory.join ⟨file⟩) = .ok contents ∧
        file = String.ofList ((Sha1.digest contents.toList).hex.take 12) ++ ".css" := by
  obtain ⟨-, -, hstored, -⟩ := maps_refer_to_output (Sample.eq_ok_get Sample.isSome_startMapped)
    Sample.undisturbed_rewritten
  obtain ⟨file, hfile⟩ := Option.isSome_iff_exists.1 Sample.written_compiled.2.2
  exact ⟨Sample.undisturbed_rewritten, file, hfile, hstored bundleName file hfile⟩

end Session

end StyleModules
