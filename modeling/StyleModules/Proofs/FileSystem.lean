import Mathlib.Data.List.Nodup
import Mathlib.Data.List.Perm.Subperm
import StyleModules.FileSystem
import StyleModules.Proofs.PathMap
import StyleModules.Proofs.Place

/-!
# Reading files

What is read at a place is what the tree stores under that place, in memory as on a disk.  So a
file system has fewer readable places than its chain limit says, and a chain of different readable
places never reaches that limit.
-/

open Std

namespace StyleModules

open StyleModules.Path

namespace FileTree

theorem place_of_isPlace {p : Path} (h : p.IsPlace) (t : FileTree) : t.place p = p := by
  rw [place, join_of_isAbsolute h.isAbsolute, h.normalize_eq]

namespace Disk

theorem step_name {t : FileTree} {cs : List Component} (h : ∀ c ∈ cs, c.IsNamed) {n : String}
    (hn : IsName n) {q : Path} (hstep : step t (ofComponents (.root :: cs)) n.toList = .ok q) :
    q = ofComponents (.root :: (cs ++ [.normal n])) := by
  unfold step at hstep
  split at hstep
  · simp at hstep
  · simp at hstep
  · rw [if_neg (by simp [hn.ne_empty, hn.ne_current]), if_neg hn.ne_parent,
      String.ofList_toList, IsPlace.join_name h hn] at hstep
    exact (Except.ok.inj hstep).symm

theorem step_empty {t : FileTree} {here q : Path} (h : step t here [] = .ok q) : q = here := by
  unfold step at h
  split at h <;> simp_all

theorem foldlM_step_names {t : FileTree} {cs done : List Component} (hcs : ∀ c ∈ cs, c.IsNamed)
    (hdone : ∀ c ∈ done, c.IsNamed) {q : Path}
    (h : (cs.map (fun c ↦ c.text.toList)).foldlM (step t) (ofComponents (.root :: done)) = .ok q) :
    q = ofComponents (.root :: (done ++ cs)) := by
  induction cs generalizing done with
  | nil =>
    rw [List.append_nil]
    exact (Except.ok.inj h).symm
  | cons c cs ih =>
    obtain ⟨⟨n, rfl, hn⟩, hrest⟩ := List.forall_mem_cons.1 hcs
    rw [List.map_cons, List.foldlM_cons, Component.text_normal] at h
    cases hstep : step t (ofComponents (.root :: done)) n.toList with
    | error problem => rw [hstep] at h; simp [bind, Except.bind] at h
    | ok next =>
      rw [hstep, step_name hdone hn hstep] at h
      have hnext : ∀ c ∈ done ++ [Component.normal n], c.IsNamed := by
        intro c hc
        rcases List.mem_append.1 hc with hc | hc
        · exact hdone c hc
        · exact ⟨n, List.mem_singleton.1 hc, hn⟩
      simpa using ih hrest hnext h

/-- A place leads to itself or nowhere. -/
theorem locate_of_isPlace {t : FileTree} {p q : Path} (hp : p.IsPlace) (h : locate t p = .ok q) :
    q = p := by
  have habs := hp.isAbsolute
  obtain ⟨cs, hcs, rfl⟩ := hp
  unfold locate at h
  simp only [habs, ↓reduceIte] at h
  split at h
  · simp at h
  · split at h
    · simp at h
    · have hsegments : segments ('/' :: (joinNames cs).toList) =
          [] :: segments (joinNames cs).toList := by rw [segments, if_pos rfl]
      simp only [toList_ofComponents_root, hsegments, List.foldlM_cons] at h
      cases hroot : step t ⟨"/"⟩ [] with
      | error problem => rw [hroot] at h; simp [bind, Except.bind] at h
      | ok here =>
        obtain rfl := step_empty hroot
        rw [hroot] at h
        cases cs with
        | nil =>
          change (step t ⟨"/"⟩ [] >>= pure) = .ok q at h
          rw [hroot] at h
          exact (Except.ok.inj h).symm
        | cons c cs =>
          rw [segments_joinNames (fun c hc ↦ (hcs c hc).no_slash) (by simp)] at h
          exact foldlM_step_names hcs (List.forall_mem_nil _) h

end Disk

end FileTree

namespace FileSystem

open FileTree

/-- Only files can be read. -/
theorem isFile_of_readText {fs : FileSystem} {p : Path} {text : String}
    (h : fs.readText p = .ok text) : fs.isFile p = true := by
  cases fs with
  | memory t =>
    change Memory.readText t p = _ at h
    change Memory.isFile t p = true
    unfold Memory.readText Memory.read at h
    unfold Memory.isFile contents?
    split at h <;> simp_all [bind, Except.bind]
  | disk t =>
    change Disk.readText t p = _ at h
    change Disk.isFile t p = true
    unfold Disk.readText Disk.read at h
    unfold Disk.isFile Disk.find?
    split at h
    · simp [bind, Except.bind] at h
    · split at h <;> simp_all [bind, Except.bind]
  | refusing reason => simp [readText] at h

/-- A file at a place is stored under that place. -/
theorem entry?_of_isFile {fs : FileSystem} {p : Path} (hp : p.IsPlace) (h : fs.isFile p = true) :
    ∃ contents, fs.tree.entry? p = some (.file contents) := by
  cases fs with
  | memory t =>
    change Memory.isFile t p = true at h
    unfold Memory.isFile contents? at h
    rw [place_of_isPlace hp] at h
    split at h
    next contents heq => exact ⟨contents, heq⟩
    next => simp at h
  | disk t =>
    change Disk.isFile t p = true at h
    unfold Disk.isFile Disk.find? at h
    split at h
    next contents heq =>
      split at heq
      next q hq =>
        obtain rfl := Disk.locate_of_isPlace hp hq
        exact ⟨contents, heq⟩
      next => simp at heq
    next => simp at h
  | refusing reason => simp [isFile] at h

/-- All that is stored stands under the place it is called by. -/
def IsKeyed (fs : FileSystem) : Prop :=
  ∀ e ∈ fs.tree.entries.table.entries, e.2.1.components = e.1 ∧ e.2.1.IsPlace

instance (fs : FileSystem) : Decidable fs.IsKeyed :=
  inferInstanceAs (Decidable (∀ e ∈ fs.tree.entries.table.entries,
    e.2.1.components = e.1 ∧ e.2.1.IsPlace))

theorem mem_files {fs : FileSystem} (hkeyed : fs.IsKeyed) {p : Path} (hp : p.IsPlace)
    (h : fs.isFile p = true) : p ∈ fs.files := by
  obtain ⟨contents, hentry⟩ := entry?_of_isFile hp h
  obtain ⟨⟨q, e⟩, hq, rfl⟩ := Option.map_eq_some_iff.1 hentry
  have hlookup := Table.lookup_mem hq
  obtain ⟨hcomponents, hqPlace⟩ := hkeyed _ hlookup
  have heq : q = p := hqPlace.eq_of_components hp hcomponents
  subst heq
  exact List.mem_map.2 ⟨(q, contents), List.mem_filterMap.2
    ⟨(q, .file contents), List.mem_map.2 ⟨_, hlookup, rfl⟩, rfl⟩, rfl⟩

/-- Different files are fewer than the chain limit. -/
theorem length_lt_chainLimit_of_stored {fs : FileSystem} {keys : List (List Component)}
    (hstored : ∀ k ∈ keys, ∃ p contents,
      fs.tree.entries.table.get? k = some (p, .file contents)) (hnodup : keys.Nodup) :
    keys.length < fs.chainLimit := by
  let isFileEntry : List Component × (Path × Entry) → Bool := fun e ↦
    match e.2.2 with
    | .file _ => true
    | .directory => false
  let stored := fs.tree.entries.table.entries.filter isFileEntry
  have hle : keys.length ≤ (stored.map Prod.fst).length :=
    (hnodup.subperm fun k hk ↦ by
      obtain ⟨p, contents, hentry⟩ := hstored k hk
      exact List.mem_map.2 ⟨_, List.mem_filter.2 ⟨Table.lookup_mem hentry, rfl⟩, rfl⟩).length_le
  have hcontents : stored.length = fs.tree.contents.length := by
    unfold FileTree.contents PathMap.toList Table.values stored
    generalize fs.tree.entries.table.entries = l
    induction l with
    | nil => rfl
    | cons e l ih =>
      obtain ⟨cs, q, e⟩ := e
      cases e with
      | file contents =>
        rw [List.filter_cons_of_pos (by rfl), List.map_cons, List.filterMap_cons_some (by rfl),
          List.length_cons, List.length_cons, ih]
      | directory =>
        rw [List.filter_cons_of_neg (by simp [isFileEntry]), List.map_cons,
          List.filterMap_cons_none (by rfl), ih]
  have hsum : ∀ l : List (Path × ByteArray),
      l.length ≤ (l.map (fun f ↦ f.2.size + 1)).foldr (· + ·) 0 := by
    intro l
    induction l with
    | nil => simp
    | cons f l ih =>
      simp only [List.length_cons, List.map_cons, List.foldr_cons]
      omega
  have hlimit := hsum fs.tree.contents
  rw [List.length_map, hcontents] at hle
  unfold chainLimit
  omega

/-- Different readable places are fewer than the chain limit. -/
theorem length_lt_chainLimit {fs : FileSystem} {ps : List Path}
    (hplace : ∀ p ∈ ps, p.IsPlace) (hfile : ∀ p ∈ ps, fs.isFile p = true) (hnodup : ps.Nodup) :
    ps.length < fs.chainLimit := by
  have hinj : (ps.map Path.components).Nodup :=
    List.Nodup.map_on
      (fun p hp q hq heq ↦ (hplace p hp).eq_of_components (hplace q hq) heq) hnodup
  have hlt : (ps.map Path.components).length < fs.chainLimit :=
      length_lt_chainLimit_of_stored (fun k hk ↦ by
    obtain ⟨p, hp, rfl⟩ := List.mem_map.1 hk
    obtain ⟨contents, hentry⟩ := entry?_of_isFile (hplace p hp) (hfile p hp)
    obtain ⟨⟨q, e⟩, hq, rfl⟩ := Option.map_eq_some_iff.1 hentry
    exact ⟨q, contents, hq⟩) hinj
  rwa [List.length_map] at hlt

/-- Two file systems have the same at a path: the same file, or no file. -/
structure SameAt (a b : FileSystem) (p : Path) : Prop where
  isFile_eq : a.isFile p = b.isFile p
  readText_eq : a.isFile p = true → a.readText p = b.readText p

instance (a b : FileSystem) (p : Path) : Decidable (a.SameAt b p) :=
  decidable_of_iff (a.isFile p = b.isFile p ∧ (a.isFile p = true → a.readText p = b.readText p))
    ⟨fun h ↦ ⟨h.1, h.2⟩, fun h ↦ ⟨h.isFile_eq, h.readText_eq⟩⟩

theorem SameAt.refl (fs : FileSystem) (p : Path) : fs.SameAt fs p := ⟨rfl, fun _ ↦ rfl⟩

theorem SameAt.symm {a b : FileSystem} {p : Path} (h : a.SameAt b p) : b.SameAt a p :=
  ⟨h.isFile_eq.symm, fun hb ↦ (h.readText_eq (h.isFile_eq ▸ hb)).symm⟩

/-- Where two file systems differ can be seen from their files. -/
theorem sameAt_or_of_files {a b : FileSystem} (ha : a.IsKeyed) (hb : b.IsKeyed) {P : Path → Prop}
    (h : ∀ p ∈ a.files ++ b.files, a.SameAt b p ∨ P p) {p : Path} (hp : p.IsPlace) :
    a.SameAt b p ∨ P p := by
  cases hold : a.isFile p with
  | true => exact h p (List.mem_append_left _ (mem_files ha hp hold))
  | false =>
    cases hnew : b.isFile p with
    | true => exact h p (List.mem_append_right _ (mem_files hb hp hnew))
    | false => exact .inl ⟨hold.trans hnew.symm, fun hfile ↦ by simp [hold] at hfile⟩

end FileSystem

end StyleModules
