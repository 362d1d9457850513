import StyleModules.Proofs.Batches
import StyleModules.Proofs.Freshness

/-!
# What an unlinked file takes off the maps

An unlinked file is evicted with all that was made from it, and what of that still exists is
compiled again.  Some of it comes back, as a file of its own or because another one composes from
it, and some does not compile any more.  Whichever it is, and whether or not the event is reported
as failed, the maps lose the entries of exactly those evicted files that are not tracked in the end.
Files at different places have different names in the maps, so no other file loses its entry.
-/

namespace StyleModules

open Relation ModuleStore

namespace OutputMaps

variable {keys : List String} {key : String}

/-- No map has an entry for a source. -/
structure Omits (m : OutputMaps) (key : String) : Prop where
  resources : m.resources.get? key = none
  selectors : m.selectors.get? key = none

/-- Two versions of the maps have the same entries for a source. -/
structure AgreeAt (m m' : OutputMaps) (key : String) : Prop where
  resources : m'.resources.get? key = m.resources.get? key
  selectors : m'.selectors.get? key = m.selectors.get? key

theorem omits_foldl_removeSource (h : key ∈ keys) (m : OutputMaps) :
    (keys.foldl removeSource m).Omits key := by
  rw [foldl_removeSource]
  constructor <;> simp only [Table.get?_foldl_erase, if_pos h]

theorem agreeAt_foldl_removeSource (h : key ∉ keys) (m : OutputMaps) :
    m.AgreeAt (keys.foldl removeSource m) key := by
  rw [foldl_removeSource]
  constructor <;> simp only [Table.get?_foldl_erase, if_neg h]

end OutputMaps

namespace Session

variable {s : Session} {f p : Path}

/-- A module that was compiled on a disk has a file there. -/
theorem isFile_of_isMadeOn {c : Compiler} {fs : FileSystem} {m : Module} (hp : p.IsPlace)
    (h : IsMadeOn c fs p m) : fs.isFile p = true := by
  obtain ⟨_, k, hends, hsame, -⟩ := h
  have hplain : p.IsPlain := hp.normalize_eq ▸ Path.isPlain_normalize p
  exact FileSystem.isFile_of_isPlain hplain hsame hends.drafted.isFile

/-- No event makes a missing file tracked, as long as its old module is gone. -/
theorem isTracked_handle_of_missing (hs : s.store.IsOrdered) (e : FileEvent) (hp : p.IsPlace)
    (hmissing : s.fs.isFile p = false) (hgone : (s.kept e).store.isTracked p = false) :
    (s.handle e).1.isTracked p = false := by
  -- a module that is there now was compiled on this disk, and so has a file
  have hcurrent : (s.handle e).1.store.IsCurrent s.compiler s.fs p := by
    refine isCurrent_handle hs e fun m hm ↦ ?_
    rw [isTracked_iff.2 ⟨m, hm⟩] at hgone
    simp at hgone
  rw [isTracked_eq_of_sameSetup (sameSetup_handle s e), absolute_eq hp]
  refine Bool.eq_false_iff.2 fun htracked ↦ ?_
  obtain ⟨m, hm⟩ := isTracked_iff.1 htracked
  rw [isFile_of_isMadeOn hp (hcurrent m hm)] at hmissing
  simp at hmissing

/-- A file that was unlinked and is missing is not tracked, whatever else was compiled again. -/
theorem isTracked_unlink_of_missing (hroot : s.compiler.root.isAbsolute = true)
    (hs : s.store.IsOrdered) (hmissing : s.fs.isFile (s.absolute f) = false) :
    (s.unlink f).1.isTracked f = false := by
  have hplace := isPlace_absolute hroot f
  have huntracked := isTracked_handle_of_missing hs ⟨.unlink, f⟩ hplace hmissing
    (isTracked_evicting_self hroot f)
  have hsetup : s.SameSetup (s.unlink f).1 := sameSetup_handle s ⟨.unlink, f⟩
  rw [isTracked_eq_of_sameSetup hsetup, ← absolute_eq hplace s, ← isTracked_eq_of_sameSetup hsetup]
  exact huntracked

theorem mem_dropped_unlink {key : String} : key ∈ s.dropped ⟨.unlink, f⟩ ↔
    ∃ p ∈ (s.evict f).1, (s.unlink f).1.isTracked p = false ∧ s.compiler.sourceKey p = key := by
  have hdropped : s.dropped ⟨.unlink, f⟩ =
      ((s.evict f).1.filter fun p ↦ !(s.unlink f).1.isTracked p).map s.compiler.sourceKey := rfl
  simp [hdropped, and_assoc]

theorem maps_unlink (s : Session) (f : Path) :
    (s.unlink f).1.maps = (s.dropped ⟨.unlink, f⟩).foldl OutputMaps.removeSource s.maps :=
  maps_handle s ⟨.unlink, f⟩

/-- However an unlinked file is handled: of the files that were evicted with it, those that are not
tracked afterwards have no entries, all other entries and all bundles stay, and so do the entries of
every other place.  If the file is missing then it is not tracked and has no entries. -/
theorem maps_after_unlink (hroot : s.compiler.root.IsPlace) (hs : s.store.IsTidy) (f : Path) :
    (∀ p ∈ (s.evict f).1, (s.unlink f).1.isTracked p = false →
      (s.unlink f).1.maps.Omits (s.compiler.sourceKey p)) ∧
    (∀ key, (∀ p ∈ (s.evict f).1, (s.unlink f).1.isTracked p = false →
        s.compiler.sourceKey p ≠ key) → s.maps.AgreeAt (s.unlink f).1.maps key) ∧
    (∀ q : Path, q.IsPlace → (q ∈ (s.evict f).1 → (s.unlink f).1.isTracked q = true) →
      s.maps.AgreeAt (s.unlink f).1.maps (s.compiler.sourceKey q)) ∧
    (s.unlink f).1.maps.bundles = s.maps.bundles ∧
    (s.fs.isFile (s.absolute f) = false → (s.unlink f).1.isTracked f = false ∧
      (s.unlink f).1.maps.Omits (s.compiler.sourceKey (s.absolute f))) := by
  have homits : ∀ p ∈ (s.evict f).1, (s.unlink f).1.isTracked p = false →
      (s.unlink f).1.maps.Omits (s.compiler.sourceKey p) := by
    intro p hp huntracked
    rw [maps_unlink]
    exact OutputMaps.omits_foldl_removeSource (mem_dropped_unlink.2 ⟨p, hp, huntracked, rfl⟩) _
  have hagree : ∀ key, (∀ p ∈ (s.evict f).1, (s.unlink f).1.isTracked p = false →
      s.compiler.sourceKey p ≠ key) → s.maps.AgreeAt (s.unlink f).1.maps key := by
    intro key hother
    rw [maps_unlink]
    refine OutputMaps.agreeAt_foldl_removeSource (fun hmem ↦ ?_) _
    obtain ⟨p, hp, huntracked, hkey⟩ := mem_dropped_unlink.1 hmem
    exact hother p hp huntracked hkey
  refine ⟨homits, hagree, fun q hq htracked ↦ hagree _ fun p hp huntracked hkey ↦ ?_, ?_,
    fun hmissing ↦ ?_⟩
  · -- Both files are places, so the one that loses its entry would be this one.
    have hpPlace : p.IsPlace := ((evictedWith_spec hroot.isAbsolute hs f).2 p hp).1
    obtain rfl := Compiler.eq_of_sourceKey hroot hpPlace hq hkey
    rw [htracked hp] at huntracked
    simp at huntracked
  · rw [maps_unlink, OutputMaps.foldl_removeSource]
  · have huntracked := isTracked_unlink_of_missing hroot.isAbsolute hs.isOrdered hmissing
    have hself : (s.unlink f).1.isTracked (s.absolute f) = (s.unlink f).1.isTracked f := by
      have hsetup : s.SameSetup (s.unlink f).1 := sameSetup_handle s ⟨.unlink, f⟩
      rw [isTracked_eq_of_sameSetup hsetup, isTracked_eq_of_sameSetup hsetup,
        absolute_eq (isPlace_absolute hroot.isAbsolute f)]
    exact ⟨huntracked, homits _ (self_mem_evictedWith s f) (hself.trans huntracked)⟩

namespace Sample

/-- One file imports another one, and a third one stands alone. -/
def styled : FileSystem :=
  disk [("/a.mcss", "@import 'b'"), ("/b.mcss", rule ".b" "top:0"), ("/c.mcss", rule ".c" "top:0")]

/-- The imported file is gone. -/
def bereft : FileSystem := disk [("/a.mcss", "@import 'b'"), ("/c.mcss", rule ".c" "top:0")]

theorem suits_styled : start.compiler.Suits styled :=
  Compiler.suits_of_files (isKeyed_disk _) (by decide +kernel) (by decide +kernel)

/-- All three files are shipped. -/
def shipped : Session :=
  ({ start with fs := styled }.process
    [⟨.init, ⟨"a.mcss"⟩⟩, ⟨.init, ⟨"b.mcss"⟩⟩, ⟨.init, ⟨"c.mcss"⟩⟩]).1

theorem reached_shipped : ∃ origin, Reached start.compiler.Suits start shipped origin :=
  Reached.told .start suits_styled
    [⟨.init, ⟨"a.mcss"⟩⟩, ⟨.init, ⟨"b.mcss"⟩⟩, ⟨.init, ⟨"c.mcss"⟩⟩]

/-- The session that has not heard yet that a file is gone. -/
def orphaned : Session := { shipped with fs := bereft }

theorem reached_orphaned : ∃ origin, Reached start.compiler.Suits start orphaned origin :=
  reached_shipped.imp fun _ h ↦ h.edit bereft

end Sample

/-- The event fails, because a file imports the missing one.  Both lose their entries, and the third
file keeps its own. -/
theorem maps_after_unlink_sample :
    Sample.orphaned.compiler.root.IsPlace ∧ Sample.orphaned.store.IsTidy ∧
      Sample.orphaned.maps.selectors.keys = ["a.mcss", "b.mcss", "c.mcss"] ∧
      (Sample.orphaned.unlink ⟨"b.mcss"⟩).2 ≠ .ok () ∧
      (Sample.orphaned.evict ⟨"b.mcss"⟩).1 = [⟨"/b.mcss"⟩, ⟨"/a.mcss"⟩] ∧
      (Sample.orphaned.unlink ⟨"b.mcss"⟩).1.maps.Omits "a.mcss" ∧
      (Sample.orphaned.unlink ⟨"b.mcss"⟩).1.maps.Omits "b.mcss" ∧
      Sample.orphaned.maps.AgreeAt (Sample.orphaned.unlink ⟨"b.mcss"⟩).1.maps "c.mcss" := by
  obtain ⟨origin, hreached⟩ := Sample.reached_orphaned
  have hcompiler := hreached.compiler_eq
  have hs := (hreached.isTidy Sample.starts.isRegular (Sample.starts.store_eq ▸ isTidy_empty)).2
  obtain ⟨hkeys, hfailed, hevicted, huntracked, hmissing⟩ :
      Sample.orphaned.maps.selectors.keys = ["a.mcss", "b.mcss", "c.mcss"] ∧
      (Sample.orphaned.unlink ⟨"b.mcss"⟩).2 ≠ .ok () ∧
      (Sample.orphaned.evict ⟨"b.mcss"⟩).1 = [⟨"/b.mcss"⟩, ⟨"/a.mcss"⟩] ∧
      (Sample.orphaned.unlink ⟨"b.mcss"⟩).1.isTracked ⟨"/a.mcss"⟩ = false ∧
      Sample.bereft.isFile ⟨"/b.mcss"⟩ = false := by
    decide +kernel
  have hroot : Sample.orphaned.compiler.root.IsPlace := by
    rw [hcompiler]
    decide +kernel
  have hkey : Sample.orphaned.compiler.sourceKey ⟨"/a.mcss"⟩ = "a.mcss" ∧
      Sample.orphaned.compiler.sourceKey ⟨"/b.mcss"⟩ = "b.mcss" ∧
      Sample.orphaned.compiler.sourceKey ⟨"/c.mcss"⟩ = "c.mcss" := by
    rw [hcompiler]
    decide +kernel
  have hplace : Sample.orphaned.absolute ⟨"b.mcss"⟩ = ⟨"/b.mcss"⟩ := by
    rw [absolute, hcompiler]
    decide +kernel
  obtain ⟨hlost, -, hothers, -, hself⟩ := maps_after_unlink hroot hs ⟨"b.mcss"⟩
  refine ⟨hroot, hs, hkeys, hfailed, hevicted, ?_, ?_, ?_⟩
  · exact hkey.1 ▸ hlost ⟨"/a.mcss"⟩ (by rw [hevicted]; simp) huntracked
  · rw [hplace, hkey.2.1] at hself
    exact (hself hmissing).2
  · exact hkey.2.2 ▸ hothers ⟨"/c.mcss"⟩ (by decide +kernel) (by rw [hevicted]; decide)

end Session

end StyleModules
