import Mathlib.Data.List.Induction
import StyleModules.Proofs.Provenance
import StyleModules.Proofs.RelativePath

/-!
# What the output maps list

A source is listed once it went into a bundle, and from then on until an unlinked file takes it
along for good.  Other events never take a source off the lists, also when they end with a file
that is no longer tracked, so the maps can list more than the bundle holds.
-/

namespace StyleModules

open ModuleStore

namespace Table

variable {α : Type} {entries : List (String × α)} {key : String}

theorem isSorted_ofList (entries : List (String × α)) : (ofList entries).IsSorted := by
  have hfold : ∀ (l : List (String × α)) (t : Table String α), t.IsSorted →
      (l.foldl (fun t e ↦ t.insert e.1 e.2) t).IsSorted := by
    intro l
    induction l with
    | nil => exact fun t h ↦ h
    | cons e l ih => exact fun t h ↦ ih _ (h.insert e.1 e.2)
  exact hfold entries empty isSorted_empty

/-- A table made from a list has the keys of the list, each with one of the values the list has for
it. -/
theorem get?_ofList (entries : List (String × α)) (key : String) :
    match (ofList entries).get? key with
    | some v => (key, v) ∈ entries
    | none => ∀ e ∈ entries, e.1 ≠ key := by
  induction entries using List.reverseRecOn with
  | nil => exact List.forall_mem_nil _
  | append_singleton l e ih =>
    obtain ⟨k, v⟩ := e
    have hlast : ofList (l ++ [(k, v)]) = (ofList l).insert k v := by
      rw [ofList, List.foldl_append]
      rfl
    rw [hlast]
    by_cases hk : key = k
    · subst hk
      rw [(isSorted_ofList l).get?_insert_self]
      simp
    · rw [get?_insert_of_ne hk]
      cases hget : (ofList l).get? key with
      | none =>
        rw [hget] at ih
        intro e he
        rcases List.mem_append.1 he with he | he
        · exact ih e he
        · obtain rfl := List.mem_singleton.1 he
          exact Ne.symm hk
      | some w =>
        rw [hget] at ih
        exact List.mem_append_left _ ih

theorem get?_ofList_isSome_iff :
    ((ofList entries).get? key).isSome = true ↔ ∃ e ∈ entries, e.1 = key := by
  have hget := get?_ofList entries key
  cases h : (ofList entries).get? key with
  | none =>
    rw [h] at hget
    simpa using fun v hmem ↦ hget (key, v) hmem rfl
  | some v =>
    rw [h] at hget
    simpa using ⟨v, hget⟩

end Table

namespace Compiler

variable {c : Compiler} {p q : Path}

theorem sourceKey_eq (c : Compiler) (h : p.Same q) : c.sourceKey p = c.sourceKey q :=
  h.resourceKey_projectPath_eq c.root

/-- The name of a place in output maps is the way to it from the root. -/
theorem sourceKey_place {base target : List Path.Component} (hbase : ∀ c ∈ base, c.IsNamed)
    (htarget : ∀ c ∈ target, c.IsNamed) (hroot : c.root = .ofComponents (.root :: base)) :
    ∃ way, Path.climb [] target base = some way ∧ Path.AreFolded way ∧
      c.sourceKey (.ofComponents (.root :: target)) = (Path.ofFolded way).text := by
  obtain ⟨n, rest, -, hclimb, heq⟩ := Path.climb_named target hbase
  have hfolded : Path.AreFolded (List.replicate n .parent ++ rest) :=
    .relative n fun c hc ↦ htarget c (by simp [heq, hc])
  refine ⟨_, hclimb, hfolded, ?_⟩
  rw [sourceKey, Path.projectPath, if_pos (Path.isPlace_ofComponents htarget).isAbsolute,
    Path.relativeTo?, hroot, (Path.isPlace_ofComponents htarget).isAbsolute,
    (Path.isPlace_ofComponents hbase).isAbsolute, if_neg (by simp),
    Path.components_ofComponents htarget, Path.components_ofComponents hbase, Path.climb_root,
    hclimb, Option.map_some, Option.getD_some, Path.resourceKey, Path.normalize,
    hfolded.areComponents.components_ofComponents, hfolded.fold_eq]

/-- Places have different names in output maps. -/
theorem eq_of_sourceKey (hroot : c.root.IsPlace) (hp : p.IsPlace) (hq : q.IsPlace)
    (h : c.sourceKey p = c.sourceKey q) : p = q := by
  obtain ⟨base, hbase, hroot⟩ := hroot
  obtain ⟨target, htarget, rfl⟩ := hp
  obtain ⟨target', htarget', rfl⟩ := hq
  obtain ⟨way, hclimb, hfolded, hkey⟩ := sourceKey_place hbase htarget hroot
  obtain ⟨way', hclimb', hfolded', hkey'⟩ := sourceKey_place hbase htarget' hroot
  have htext : Path.ofFolded way = Path.ofFolded way' := by
    rw [hkey, hkey'] at h
    exact congrArg Path.mk h
  have hway : way = way' := by
    rw [← hfolded.fold_components, htext, hfolded'.fold_components]
  subst hway
  rw [Path.eq_of_climb hbase htarget htarget' (hclimb.trans hclimb'.symm)]

end Compiler

/-! ## Changing the maps -/

namespace OutputMaps

/-- Both maps list the same sources. -/
structure IsPaired (m : OutputMaps) : Prop where
  resources : m.resources.IsSorted
  selectors : m.selectors.IsSorted
  same : ∀ key, m.resources.get? key = (m.selectors.get? key).map fun _ ↦ bundleName

variable {m : OutputMaps} {key : String}

theorem isPaired_empty : empty.IsPaired :=
  ⟨Table.isSorted_empty, Table.isSorted_empty, fun _ ↦ rfl⟩

/-- Dropping some sources takes them out of both maps, and the bundles stay. -/
theorem foldl_removeSource (keys : List String) (m : OutputMaps) :
    keys.foldl removeSource m =
      ⟨keys.foldl Table.erase m.resources, m.bundles, keys.foldl Table.erase m.selectors⟩ := by
  induction keys generalizing m with
  | nil => rfl
  | cons k keys ih => rw [List.foldl_cons, ih, removeSource, List.foldl_cons, List.foldl_cons]

theorem get?_removeAll (keys : List String) (m : OutputMaps) (key : String) :
    (keys.foldl removeSource m).selectors.get? key =
      if key ∈ keys then none else m.selectors.get? key := by
  rw [foldl_removeSource]
  exact Table.get?_foldl_erase keys m.selectors key

theorem IsPaired.removeAll (h : m.IsPaired) (keys : List String) :
    (keys.foldl removeSource m).IsPaired := by
  induction keys generalizing m with
  | nil => exact h
  | cons k keys ih =>
    refine ih ⟨h.resources.erase k, h.selectors.erase k, fun key ↦ ?_⟩
    change (m.resources.erase k).get? key = ((m.selectors.erase k).get? key).map _
    by_cases hk : key = k
    · subst hk
      rw [Table.get?_erase_self, Table.get?_erase_self, Option.map_none]
    · rw [Table.get?_erase_of_ne hk, Table.get?_erase_of_ne hk, h.same]

/-- The bundle lists its sources under the names that the maps know them by. -/
def IsNamed (compositions : Table String Composition) : Prop :=
  compositions.IsSorted ∧ ∀ e ∈ compositions.entries, (Path.mk e.1).resourceKey = e.1

theorem IsPaired.recordAll (h : m.IsPaired) {compositions : Table String Composition}
    (hcompositions : IsNamed compositions) :
    let recorded := compositions.entries.foldl (fun m e ↦ m.recordSource e.1 e.2) m
    recorded.IsPaired ∧ ∀ key, recorded.selectors.get? key =
      (compositions.get? key).or (m.selectors.get? key) := by
  obtain ⟨entries⟩ := compositions
  obtain ⟨hsorted, hnamed⟩ := hcompositions
  change ∀ e ∈ entries, _ at hnamed
  induction entries generalizing m with
  | nil => exact ⟨h, fun _ ↦ rfl⟩
  | cons e entries ih =>
    obtain ⟨k, v⟩ := e
    obtain ⟨hk, hrest⟩ := List.forall_mem_cons.1 hnamed
    obtain ⟨hfirst, hlater⟩ := List.pairwise_cons.1 hsorted
    have hstep : m.recordSource k v = { m with
        resources := m.resources.insert k bundleName
        selectors := m.selectors.insert k v } := by
      rw [recordSource, hk]
    have hpaired : (m.recordSource k v).IsPaired := by
      rw [hstep]
      refine ⟨h.resources.insert k _, h.selectors.insert k v, fun key ↦ ?_⟩
      change (m.resources.insert k bundleName).get? key = ((m.selectors.insert k v).get? key).map _
      by_cases hkey : key = k
      · subst hkey
        rw [h.resources.get?_insert_self, h.selectors.get?_insert_self, Option.map_some]
      · rw [Table.get?_insert_of_ne hkey, Table.get?_insert_of_ne hkey, h.same]
    obtain ⟨hall, hget⟩ := ih hpaired hlater hrest
    refine ⟨hall, fun key ↦ (hget key).trans ?_⟩
    have hselectors : (m.recordSource k v).selectors = m.selectors.insert k v := by rw [hstep]
    rw [hselectors]
    change (Table.lookup key entries).or _ = (Table.lookup key ((k, v) :: entries)).or _
    by_cases hkey : key = k
    · subst hkey
      have hnone : Table.lookup key entries = none := Table.lookup_eq_none_of_lt hfirst
      rw [hnone, h.selectors.get?_insert_self, Table.lookup, if_pos Std.ReflOrd.compare_self]
      rfl
    · have hne : compare key k ≠ .eq := fun heq ↦ hkey (Std.LawfulEqOrd.eq_of_compare heq)
      rw [Table.get?_insert_of_ne hkey, Table.lookup, if_neg hne]

end OutputMaps

namespace ModuleStore

variable {c : Compiler} {fs : FileSystem} {P : PathMap Module → Prop}

theorem modules_finish (hP : ∀ modules p m, P modules → P (modules.insert p m)) (file : Path)
    (draft : Draft) (files : List (String × Path)) {s : ModuleStore} (h : P s.modules) :
    P (finish c file draft files s).1.modules := by
  unfold finish
  simp only
  split
  next => exact h
  next =>
    split
    next => exact h
    next => exact hP _ _ _ h

/-- What holds of the modules as files are added one by one holds after tracking a file. -/
theorem modules_trackFrom (hP : ∀ modules p m, P modules → P (modules.insert p m)) (limit : Nat)
    (started : List Path) (file : Path) {s : ModuleStore} (h : P s.modules) :
    P (trackFrom c fs limit started file s).1.modules :=
  trackFrom_preserves (P := fun s ↦ P s.modules) (hands_true c fs) (fun _ _ _ hs ↦ hs)
    (fun file draft files _ _ hs ↦ modules_finish hP file draft files hs) limit trivial h

/-- The bundle has the composition of each tracked file under the name of that file. -/
theorem compositions_output {place : Path} {s : ModuleStore} {bundle : Bundle}
    (h : (s.output c place).2 = .ok bundle) : bundle.compositions =
      .ofList (s.modules.toList.map fun e ↦ (c.sourceKey e.1, e.2.composition)) := by
  unfold output at h
  split at h
  next => simp at h
  next => exact (Except.ok.inj h) ▸ rfl

section Compositions

variable {place p : Path} {s : ModuleStore} {bundle : Bundle}

/-- The bundle has compositions under the names of the tracked files. -/
theorem isSome_compositions_iff (hs : s.modules.IsOrdered)
    (h : (s.output c place).2 = .ok bundle) (key : String) :
    (bundle.compositions.get? key).isSome = true ↔
      ∃ p, s.isTracked p = true ∧ c.sourceKey p = key := by
  rw [compositions_output h, Table.get?_ofList_isSome_iff]
  constructor
  · rintro ⟨e, he, rfl⟩
    obtain ⟨d, hd, rfl⟩ := List.mem_map.1 he
    exact ⟨d.1, isTracked_iff.2 ⟨d.2, hs.get?_of_mem hd⟩, rfl⟩
  · rintro ⟨p, hp, rfl⟩
    obtain ⟨m, hm⟩ := isTracked_iff.1 hp
    obtain ⟨q, hq, hsame⟩ := hs.mem_of_get? hm
    exact ⟨_, List.mem_map.2 ⟨(q, m), hq, rfl⟩, c.sourceKey_eq hsame⟩

/-- A tracked file that has its name for itself is there with its own composition. -/
theorem get?_compositions (hs : s.modules.IsOrdered) (h : (s.output c place).2 = .ok bundle)
    {m : Module} (hm : s.modules.get? p = some m)
    (hown : ∀ q, s.isTracked q = true → c.sourceKey q = c.sourceKey p → q.Same p) :
    bundle.compositions.get? (c.sourceKey p) = some m.composition := by
  have hsome := (isSome_compositions_iff hs h _).2 ⟨p, isTracked_iff.2 ⟨m, hm⟩, rfl⟩
  obtain ⟨v, hv⟩ := Option.isSome_iff_exists.1 hsome
  have hmem := Table.get?_ofList (s.modules.toList.map fun e ↦ (c.sourceKey e.1, e.2.composition))
    (c.sourceKey p)
  rw [← compositions_output h, hv] at hmem
  obtain ⟨⟨x, n⟩, hx, heq⟩ := List.mem_map.1 hmem
  obtain ⟨hkey, rfl⟩ := Prod.mk.inj heq
  have hn := hs.get?_of_mem hx
  have hxp := hown x (isTracked_iff.2 ⟨n, hn⟩) hkey
  rw [PathMap.get?_congr hxp, hm] at hn
  rw [hv, Option.some.inj hn]

end Compositions

end ModuleStore

namespace Session

/-! ## What events do to the maps -/

variable {s : Session} {P : PathMap Module → Prop}

/-- What holds of the modules as files are dropped one by one holds after an eviction. -/
theorem modules_evicting (herase : ∀ modules p, P modules → P (modules.erase p)) (file : Path)
    (h : P s.store.modules) : P (s.evicting file).store.modules := by
  have hwithout : ∀ (files : List Path) (store : ModuleStore), P store.modules →
      P (files.foldl (without s.compiler) store).modules := by
    intro files
    induction files with
    | nil => exact fun store hs ↦ hs
    | cons file files ih =>
      intro store hs
      refine ih _ ?_
      change P ((store.remove s.compiler file).toOption.getD store).modules
      rw [remove_eq]
      split
      next => exact herase _ _ hs
      next => exact hs
  rw [evicting_eq]
  exact hwithout _ _ h

theorem modules_handle (hinsert : ∀ modules p m, P modules → P (modules.insert p m))
    (herase : ∀ modules p, P modules → P (modules.erase p)) (e : FileEvent)
    (h : P s.store.modules) : P (s.handle e).1.store.modules := by
  have hkept : P (s.kept e).store.modules :=
    kept_preserves (P := fun s ↦ P s.store.modules) h (modules_evicting herase e.file h)
  have htrack : ∀ (file : Path) (s : Session), P s.store.modules →
      P (s.track file).1.store.modules := fun file s hs ↦
    show P (trackFrom s.compiler s.fs s.fs.chainLimit [] (s.absolute file) s.store).1.modules from
      modules_trackFrom hinsert _ _ _ hs
  exact handle_preserves (P := fun s ↦ P s.store.modules) hkept (htrack e.file)
    (fun d _ ↦ htrack d) fun _ _ hs ↦ hs

/-- The sources that are taken off the lists when an event is handled: those that an unlinked file
takes along and that are not tracked again. -/
def dropped (s : Session) (e : FileEvent) : List String :=
  match e.change with
  | .unlink =>
    ((s.evictedWith e.file).filter fun p ↦ !(s.handle e).1.isTracked p).map s.compiler.sourceKey
  | .init | .add | .change => []

theorem maps_foldl_retracked (files : List Path) (s : Session) :
    (files.foldl retracked s).maps = s.maps := by
  induction files generalizing s with
  | nil => rfl
  | cons file files ih =>
    rw [List.foldl_cons, ih, retracked]
    split <;> rfl

theorem maps_evicting (s : Session) (file : Path) : (s.evicting file).maps = s.maps := by
  rw [evicting_eq]

theorem maps_forgetUntracked (s : Session) (files : List Path) :
    (s.forgetUntracked files).maps = ((files.filter fun p ↦ !s.isTracked p).map
      s.compiler.sourceKey).foldl OutputMaps.removeSource s.maps := by
  rw [List.foldl_map]
  rfl

theorem maps_handle (s : Session) (e : FileEvent) :
    (s.handle e).1.maps = (s.dropped e).foldl OutputMaps.removeSource s.maps := by
  unfold dropped handle
  cases e.change with
  | init => rfl
  | add => rfl
  | change =>
    change (s.change e.file).1.maps = s.maps
    cases hres : ((s.evicting e.file).track e.file).2 with
    | error fault =>
      rw [fst_change_error hres]
      exact maps_evicting s e.file
    | ok u =>
      rw [fst_change_ok hres, maps_foldl_retracked]
      exact maps_evicting s e.file
  | unlink =>
    have hsetup := (sameSetup_evicting s e.file).trans
      (sameSetup_foldl_retracked (s.evictedWith e.file).tail (s.evicting e.file))
    have hmaps : ((s.evictedWith e.file).tail.foldl retracked (s.evicting e.file)).maps = s.maps :=
      (maps_foldl_retracked _ _).trans (maps_evicting s e.file)
    simp only [fst_unlink]
    rw [maps_forgetUntracked, hmaps, hsetup.compiler]
    rfl

/-- The sources that are taken off the lists when some events are handled in order. -/
def droppedBy : List FileEvent → Session → List String
  | [], _ => []
  | e :: events, s =>
    if s.options.handles e.file then s.dropped e ++ droppedBy events (s.handle e).1
    else droppedBy events s

theorem maps_foldl_handleInBatch (events : List FileEvent) (state : Session × BatchReport) :
    (events.foldl handleInBatch state).1.maps =
      (droppedBy events state.1).foldl OutputMaps.removeSource state.1.maps := by
  induction events generalizing state with
  | nil => rfl
  | cons e events ih =>
    rw [List.foldl_cons, ih, fst_handleInBatch, droppedBy]
    split
    next => rw [maps_handle, List.foldl_append]
    next => rfl

/-! ## What a bundle adds -/

theorem compiler_writeBundle (s : Session) : s.writeBundle.1.compiler = s.compiler := by
  obtain ⟨fs, maps, journal, hwritten⟩ := fst_writeBundle s
  rw [hwritten]

theorem modules_writeBundle (s : Session) :
    s.writeBundle.1.store.modules = s.store.modules := by
  obtain ⟨fs, maps, journal, hwritten⟩ := fst_writeBundle s
  rw [hwritten]

/-- A session has a bundle to write, and writing it does not fail. -/
def Ships (s : Session) : Prop := ∃ written, s.writeBundle.2 = .ok (some written)

/-- A bundle that is not written is not recorded. -/
theorem maps_writeBundle_of_not_ships (h : ¬ s.Ships) : s.writeBundle.1.maps = s.maps := by
  revert h
  unfold Ships writeBundle OutputMaps.writeBundle
  rcases s.store.output s.compiler (s.outputDirectory.join ⟨bundleName⟩)
    with ⟨store, fault | bundle⟩
  · exact fun _ ↦ rfl
  · simp only
    split
    next => exact fun _ ↦ rfl
    next =>
      split
      next => exact fun _ ↦ rfl
      next => exact fun h ↦ absurd ⟨_, rfl⟩ h

/-- A bundle that is written is recorded with the compositions of all tracked files. -/
theorem maps_writeBundle_of_ships (h : s.Ships) : ∃ name bundle,
    (s.store.output s.compiler (s.outputDirectory.join ⟨bundleName⟩)).2 = .ok bundle ∧
      s.writeBundle.1.maps = s.maps.recordBundle name bundle := by
  revert h
  unfold Ships writeBundle OutputMaps.writeBundle
  rcases s.store.output s.compiler (s.outputDirectory.join ⟨bundleName⟩)
    with ⟨store, fault | bundle⟩
  · rintro ⟨w, hw⟩
    simp at hw
  · simp only
    split
    next =>
      rintro ⟨w, hw⟩
      simp at hw
    next =>
      split
      next =>
        rintro ⟨w, hw⟩
        simp at hw
      next => exact fun _ ↦ ⟨_, bundle, rfl, rfl⟩

/-- No other tracked file has the name of this one in output maps. -/
def HasOwnName (s : Session) (p : Path) : Prop :=
  ∀ q, s.store.isTracked q = true → s.compiler.sourceKey q = s.compiler.sourceKey p → q.Same p

/-- What holds of the modules and the maps all along: files are in order, and both maps list the
same sources. -/
structure Keeps (s : Session) : Prop where
  modules : s.store.modules.IsOrdered
  maps : s.maps.IsPaired

/-- What is listed once a bundle was written: the tracked files, and what was listed before. -/
theorem Keeps.writeBundle (hs : s.Keeps) (hships : s.Ships) : s.writeBundle.1.maps.IsPaired ∧
    (∀ key, (s.writeBundle.1.maps.selectors.get? key).isSome = true ↔
      (∃ p, s.store.isTracked p = true ∧ s.compiler.sourceKey p = key) ∨
        (s.maps.selectors.get? key).isSome = true) ∧
    ∀ p m, s.store.modules.get? p = some m → s.HasOwnName p →
      s.writeBundle.1.maps.selectors.get? (s.compiler.sourceKey p) = some m.composition := by
  obtain ⟨name, bundle, hbundle, hmaps⟩ := maps_writeBundle_of_ships hships
  have hcompositions := compositions_output hbundle
  have hnamed : OutputMaps.IsNamed bundle.compositions := by
    rw [hcompositions]
    refine ⟨Table.isSorted_ofList _, fun e he ↦ ?_⟩
    have hmem := Table.get?_ofList
      (s.store.modules.toList.map fun e ↦ (s.compiler.sourceKey e.1, e.2.composition)) e.1
    rw [(Table.isSorted_ofList _).get?_eq_some_iff.2 he] at hmem
    obtain ⟨d, -, hd⟩ := List.mem_map.1 hmem
    rw [← congrArg Prod.fst hd]
    exact Path.resourceKey_mk_resourceKey _
  have hrecord : ({ s.maps with bundles := s.maps.bundles.insert bundleName name } :
      OutputMaps).IsPaired := ⟨hs.maps.resources, hs.maps.selectors, hs.maps.same⟩
  obtain ⟨hpaired, hget⟩ := hrecord.recordAll hnamed
  rw [hmaps]
  refine ⟨hpaired, fun key ↦ ?_, fun p m hm hunique ↦ ?_⟩
  · rw [OutputMaps.recordBundle, hget, Option.isSome_or, Bool.or_eq_true,
      isSome_compositions_iff hs.modules hbundle]
  · rw [OutputMaps.recordBundle, hget, get?_compositions hs.modules hbundle hm hunique]
    rfl

end Session

/-! ## Rounds -/

/-- What is on disk when a batch is handled, and the events of the batch. -/
structure Round where
  disk : FileSystem
  events : List FileEvent

namespace Session

def meeting (s : Session) (r : Round) : Session := { s with fs := r.disk }

/-- The session when all events of a round are handled and no bundle is written yet. -/
def handling (s : Session) (r : Round) : Session :=
  (r.events.foldl handleInBatch (s.meeting r, .empty)).1

def round (s : Session) (r : Round) : Outcome BatchReport := (s.meeting r).process r.events

/-- The session after some rounds. -/
def afterRounds (s : Session) (rounds : List Round) : Session :=
  rounds.foldl (fun s r ↦ (s.round r).1) s

/-- A source is listed after some rounds: it went into the bundle of one of them, and no event
dropped it since. -/
inductive Listed (start : Session) (key : String) : List Round → Prop
  | shipped {rounds : List Round} {r : Round} {p : Path}
      (ships : ((start.afterRounds rounds).handling r).Ships)
      (tracked : (start.afterRounds (rounds ++ [r])).store.isTracked p = true)
      (named : start.compiler.sourceKey p = key) : Listed start key (rounds ++ [r])
  | kept {rounds : List Round} {r : Round} (listed : Listed start key rounds)
      (stays : key ∉ droppedBy r.events ((start.afterRounds rounds).meeting r)) :
      Listed start key (rounds ++ [r])

variable {s start : Session} {rounds : List Round} {r : Round}

theorem afterRounds_append (s : Session) (rounds : List Round) (r : Round) :
    s.afterRounds (rounds ++ [r]) = ((s.afterRounds rounds).round r).1 := by
  rw [afterRounds, List.foldl_append]
  rfl

/-- A batch ends as its events left the session and its bundle left the maps. -/
theorem process_heard (s : Session) (events : List FileEvent) :
    (s.process events).1.maps = (s.heard events).writeBundle.1.maps ∧
      (s.process events).1.compiler = (s.heard events).compiler ∧
      (s.process events).1.store.modules = (s.heard events).store.modules := by
  rw [← compiler_writeBundle (s.heard events), ← modules_writeBundle (s.heard events),
    ← fst_foldl_handleInBatch events (s, .empty)]
  rcases fst_process s events with heq | heq
  · rw [heq]
    exact ⟨rfl, rfl, rfl⟩
  · obtain ⟨-, hcompiler, hstore⟩ :=
      writeMaps_spec (events.foldl handleInBatch (s, .empty)).1.writeBundle.1
    rw [heq, hcompiler, hstore]
    exact ⟨rfl, rfl, rfl⟩

theorem fst_round (s : Session) (r : Round) :
    (s.round r).1.maps = (s.handling r).writeBundle.1.maps ∧
      (s.round r).1.compiler = (s.handling r).compiler ∧
      (s.round r).1.store.modules = (s.handling r).store.modules := by
  rw [handling, fst_foldl_handleInBatch]
  exact process_heard (s.meeting r) r.events

theorem compiler_foldl_handleInBatch (events : List FileEvent) (state : Session × BatchReport) :
    (events.foldl handleInBatch state).1.compiler = state.1.compiler := by
  rw [fst_foldl_handleInBatch]
  exact (sameSetup_heard state.1 events).compiler

theorem Keeps.handling (hs : s.Keeps) (r : Round) : (s.handling r).Keeps := by
  have hordered : (s.handling r).store.modules.IsOrdered := by
    rw [Session.handling, fst_foldl_handleInBatch]
    exact heard_preserves (P := fun s ↦ s.store.modules.IsOrdered)
      (fun _ e _ h ↦ modules_handle (fun _ p m h ↦ h.insert p m) (fun _ p h ↦ h.erase p) e h)
      r.events hs.modules
  refine ⟨hordered, ?_⟩
  rw [Session.handling, maps_foldl_handleInBatch]
  exact hs.maps.removeAll _

/-- What is listed after a round. -/
theorem Keeps.round (hs : s.Keeps) (r : Round) : (s.round r).1.Keeps ∧
    ∀ key, ((s.round r).1.maps.selectors.get? key).isSome = true ↔
      ((s.handling r).Ships ∧ ∃ p, (s.round r).1.store.isTracked p = true ∧
        s.compiler.sourceKey p = key) ∨
      ((s.maps.selectors.get? key).isSome = true ∧ key ∉ droppedBy r.events (s.meeting r)) := by
  have hhandled := hs.handling r
  obtain ⟨hmaps, -, hmodules⟩ := fst_round s r
  have hcompiler : (s.handling r).compiler = s.compiler := compiler_foldl_handleInBatch _ _
  have hbefore : ∀ key, ((s.handling r).maps.selectors.get? key).isSome = true ↔
      (s.maps.selectors.get? key).isSome = true ∧ key ∉ droppedBy r.events (s.meeting r) := by
    intro key
    rw [Session.handling, maps_foldl_handleInBatch, OutputMaps.get?_removeAll]
    split
    next h => simp [h]
    next h =>
      simp only [h, not_false_eq_true, and_true]
      exact Iff.rfl
  have htracked : ∀ p, (s.round r).1.store.isTracked p = (s.handling r).store.isTracked p := by
    intro p
    rw [isTracked_eq, isTracked_eq, hmodules]
  by_cases hships : (s.handling r).Ships
  · obtain ⟨hpaired, hlisted, -⟩ := hhandled.writeBundle hships
    refine ⟨⟨hmodules ▸ hhandled.modules, hmaps ▸ hpaired⟩, fun key ↦ ?_⟩
    rw [hmaps, hlisted, hbefore, hcompiler]
    simp only [htracked, hships, true_and]
  · have hsame := maps_writeBundle_of_not_ships hships
    refine ⟨⟨hmodules ▸ hhandled.modules, ?_⟩, fun key ↦ ?_⟩
    · rw [hmaps, hsame]
      exact hhandled.maps
    · rw [hmaps, hsame, hbefore]
      simp only [hships, false_and, false_or]

theorem compiler_afterRounds (s : Session) (rounds : List Round) :
    (s.afterRounds rounds).compiler = s.compiler := by
  induction rounds using List.reverseRecOn with
  | nil => rfl
  | append_singleton rounds r ih =>
    rw [afterRounds_append, (fst_round _ r).2.1, handling, compiler_foldl_handleInBatch]
    exact ih

/-- After any rounds the maps list what went into a bundle and was not dropped since. -/
theorem Keeps.afterRounds (hs : start.Keeps) (hempty : start.maps = .empty) (rounds : List Round) :
    (start.afterRounds rounds).Keeps ∧ ∀ key,
      ((start.afterRounds rounds).maps.selectors.get? key).isSome = true ↔
        start.Listed key rounds := by
  induction rounds using List.reverseRecOn with
  | nil =>
    refine ⟨hs, fun key ↦ ?_⟩
    have hnone : (start.maps.selectors.get? key).isSome = false := by
      rw [hempty]
      rfl
    rw [Session.afterRounds, List.foldl_nil, hnone]
    refine ⟨fun h ↦ by simp at h, fun h ↦ ?_⟩
    generalize hnil : ([] : List Round) = rounds at h
    cases h <;> simp at hnil
  | append_singleton rounds r ih =>
    obtain ⟨hkeeps, hlisted⟩ := ih
    obtain ⟨hkeeps', hlisted'⟩ := hkeeps.round r
    rw [afterRounds_append]
    refine ⟨hkeeps', fun key ↦ (hlisted' key).trans ?_⟩
    rw [hlisted, compiler_afterRounds, ← afterRounds_append]
    constructor
    · rintro (⟨hships, p, htracked, hnamed⟩ | ⟨hkept, hstays⟩)
      · exact .shipped hships htracked hnamed
      · exact .kept hkept hstays
    · intro h
      generalize hrounds : rounds ++ [r] = all at h
      cases h with
      | shipped ships tracked named =>
        obtain ⟨rfl, hr⟩ := List.append_inj' hrounds rfl
        obtain rfl := List.singleton_inj.1 hr
        exact .inl ⟨ships, _, tracked, named⟩
      | kept listed stays =>
        obtain ⟨rfl, hr⟩ := List.append_inj' hrounds rfl
        obtain rfl := List.singleton_inj.1 hr
        exact .inr ⟨listed, stays⟩

theorem Keeps.ofStart {o : Options} {extras : Extras} {fs : FileSystem}
    (h : Session.start fs o extras = .ok start) : start.Keeps ∧ start.maps = .empty := by
  obtain ⟨d, out, -, -, rfl⟩ := start_eq_ok h
  exact ⟨⟨PathMap.isOrdered_empty, OutputMaps.isPaired_empty⟩, rfl⟩

theorem ships_of_round {report : BatchReport} (h : s.round r = (start, .ok report))
    (hbundle : report.bundle.isSome = true) : (s.handling r).Ships := by
  unfold Session.round process at h
  simp only at h
  unfold Ships handling
  rcases hwrite : ((r.events.foldl handleInBatch (s.meeting r, .empty)).1).writeBundle
    with ⟨s', fault | written⟩
  · simp [hwrite] at h
  · rw [hwrite] at h
    simp only at h
    rcases hwriteMaps : s'.writeMaps with ⟨s'', _ | fault⟩
    all_goals
      rw [hwriteMaps] at h
      obtain ⟨-, hreport⟩ := Prod.mk.inj h
    · obtain rfl := Except.ok.inj hreport
      obtain ⟨w, rfl⟩ := Option.isSome_iff_exists.1 hbundle
      exact ⟨w, rfl⟩
    · simp at hreport

/-- Whenever a round ends well and with a bundle, both maps list the same sources, and each tracked
file with its composition.  What they list beyond the tracked files is exactly what went into an
earlier bundle and was dropped by no event since. -/
theorem listed_of_shipped {o : Options} {extras : Extras} {fs : FileSystem}
    (hstart : Session.start fs o extras = .ok start) (rounds : List Round) (r : Round)
    {report : BatchReport} (hround : (start.afterRounds rounds).round r = (s, .ok report))
    (hbundle : report.bundle.isSome = true) :
    (∀ key, s.maps.resources.get? key = (s.maps.selectors.get? key).map fun _ ↦ bundleName) ∧
      (∀ key, s.maps.selectors.contains key = true ↔
        (∃ p, s.store.isTracked p = true ∧ s.compiler.sourceKey p = key) ∨
          (start.Listed key rounds ∧
            key ∉ droppedBy r.events ((start.afterRounds rounds).meeting r))) ∧
      ∀ p m, s.store.modules.get? p = some m → s.HasOwnName p →
        s.maps.selectors.get? (s.compiler.sourceKey p) = some m.composition := by
  obtain ⟨hkeeps, hempty⟩ := Keeps.ofStart hstart
  obtain ⟨hbefore, hlisted⟩ := hkeeps.afterRounds hempty rounds
  have hships := ships_of_round hround hbundle
  obtain ⟨hafter, hstep⟩ := hbefore.round r
  obtain ⟨-, -, hcompositions⟩ := (hbefore.handling r).writeBundle hships
  obtain ⟨hmaps, hcompiler, hmodules⟩ := fst_round (start.afterRounds rounds) r
  have hsame : ((start.afterRounds rounds).handling r).compiler =
      (start.afterRounds rounds).compiler := compiler_foldl_handleInBatch _ _
  rw [hround] at hafter hstep hmaps hcompiler hmodules
  refine ⟨hafter.maps.same, fun key ↦ ?_, fun p m hm hunique ↦ ?_⟩
  · rw [Table.contains, hstep, hlisted, hcompiler, hsame]
    simp only [hships, true_and]
  · have hget : ((start.afterRounds rounds).handling r).store.modules.get? p = some m :=
      (congrArg (·.get? p) hmodules.symm).trans hm
    have htracked : ∀ q, ((start.afterRounds rounds).handling r).store.isTracked q = true →
        s.store.isTracked q = true := fun q hq ↦ (congrArg (·.contains q) hmodules).trans hq
    rw [hmaps, hcompiler]
    unfold HasOwnName at hunique
    rw [hcompiler] at hunique
    exact hcompositions p m hget fun q hq hkey ↦ hunique q (htracked q hq) hkey

namespace Sample

/-- Two files are compiled for the first time. -/
def whole : Round :=
  ⟨disk [("/a.mcss", ".a{top:0}"), ("/b.mcss", ".b{top:0}")],
    [⟨.init, ⟨"a.mcss"⟩⟩, ⟨.init, ⟨"b.mcss"⟩⟩]⟩

/-- One of them breaks. -/
def brokenRound : Round :=
  ⟨disk [("/a.mcss", "@import 'missing'"), ("/b.mcss", ".b{top:0}")], [⟨.change, ⟨"a.mcss"⟩⟩]⟩

end Sample

/-- A file that breaks is no longer tracked and stays listed. -/
theorem listed_of_shipped_sample : ∃ s report,
    (Sample.start.afterRounds [Sample.whole]).round Sample.brokenRound = (s, .ok report) ∧
      report.bundle.isSome = true ∧ s.isTracked ⟨"a.mcss"⟩ = false ∧
      s.maps.selectors.contains "a.mcss" = true ∧
      s.maps.resources.get? "a.mcss" = some bundleName := by
  have hrun : ((Sample.start.afterRounds [Sample.whole]).round
        Sample.brokenRound).2.toOption.any (·.bundle.isSome) = true ∧
      ((Sample.start.afterRounds [Sample.whole]).round
        Sample.brokenRound).1.isTracked ⟨"a.mcss"⟩ = false ∧
      ((Sample.start.afterRounds [Sample.whole]).round
        Sample.brokenRound).1.maps.selectors.contains "a.mcss" = true := by decide +kernel
  generalize hround : (Sample.start.afterRounds [Sample.whole]).round Sample.brokenRound = outcome
    at hrun
  obtain ⟨hok, hlost, hlisted⟩ := hrun
  obtain ⟨s, fault | report⟩ := outcome
  · simp [Except.toOption] at hok
  · have hbundle : report.bundle.isSome = true := by simpa [Except.toOption] using hok
    obtain ⟨hsame, -, -⟩ := listed_of_shipped Sample.starts.start [Sample.whole] Sample.brokenRound
      hround hbundle
    obtain ⟨k, hk⟩ := Option.isSome_iff_exists.1 hlisted
    exact ⟨s, report, rfl, hbundle, hlost, hlisted, by rw [hsame, hk]; rfl⟩

end Session

end StyleModules
