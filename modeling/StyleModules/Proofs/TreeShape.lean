import StyleModules.Proofs.StoredFiles

/-!
# The shape of a file tree in memory

Files and directories are kept in one flat table, and each access sees to it by itself that what it
stores has its directories.  A removal takes any single entry away, and tells that there was one,
be it a file or a directory.  So the table is a tree until a directory is removed from above
something that is stored.
-/

namespace StyleModules.FileTree

open StyleModules.Path

variable {t : FileTree} {p q d : Path}

/-- All that is above an entry is a directory. -/
def IsTree (t : FileTree) : Prop :=
  ∀ e ∈ t.entries.toList, ∀ d ∈ e.1.ancestors, t.hasDirectory d = true

instance (t : FileTree) : Decidable t.IsTree :=
  inferInstanceAs (Decidable (∀ e ∈ t.entries.toList, ∀ d ∈ e.1.ancestors, t.hasDirectory d = true))

def StoresBelow (t : FileTree) (d : Path) : Prop := ∃ e ∈ t.entries.toList, d ∈ e.1.ancestors

instance (t : FileTree) (d : Path) : Decidable (t.StoresBelow d) :=
  inferInstanceAs (Decidable (∃ e ∈ t.entries.toList, d ∈ e.1.ancestors))

/-- The entries are sorted places, and the working directory is absolute. -/
structure IsTidy (t : FileTree) : Prop where
  entries : t.entries.IsTidy
  workingDirectory : t.workingDirectory.isAbsolute = true

theorem isTidy_empty : empty.IsTidy := ⟨PathMap.isTidy_empty, rfl⟩

theorem IsTidy.isSound (h : t.IsTidy) : t.IsSound := ⟨h.entries.toIsOrdered, h.workingDirectory⟩

theorem IsTidy.put (h : t.IsTidy) (hp : p.IsPlace) (e : Entry) : (t.put p e).IsTidy :=
  ⟨h.entries.insert hp e, h.workingDirectory⟩

theorem IsTidy.isPlace_of_mem (h : t.IsTidy) {e : Path × Entry} (he : e ∈ t.entries.toList) :
    e.1.IsPlace :=
  h.entries.isPlace _ (List.mem_map.2 ⟨e, he, rfl⟩)

theorem IsTidy.mem_toList_iff (h : t.IsTidy) (hp : p.IsPlace) {e : Entry} :
    (p, e) ∈ t.entries.toList ↔ t.entry? p = some e :=
  h.entries.mem_toList_iff hp

/-- A tidy tree stores everything under the place it is called by. -/
theorem IsTidy.isKeyed (h : t.IsTidy) : (FileSystem.memory t).IsKeyed := fun e he ↦
  ⟨h.entries.keyed e he, h.isPlace_of_mem (List.mem_map.2 ⟨e, he, rfl⟩)⟩

theorem hasDirectory_iff : t.hasDirectory p = true ↔ t.entry? p = some .directory := by
  unfold hasDirectory
  split <;> simp_all

theorem IsTidy.isTree_iff (h : t.IsTidy) : t.IsTree ↔
    ∀ p : Path, p.IsPlace → t.entry? p ≠ none →
      ∀ d ∈ p.ancestors, t.entry? d = some .directory := by
  constructor
  · intro htree p hp hstored d hd
    obtain ⟨e, he⟩ := Option.ne_none_iff_exists'.1 hstored
    exact hasDirectory_iff.1 (htree (p, e) ((h.mem_toList_iff hp).2 he) d hd)
  · rintro htree ⟨p, e⟩ he d hd
    have hp := h.isPlace_of_mem he
    exact hasDirectory_iff.2 (htree p hp (by simp [(h.mem_toList_iff hp).1 he]) d hd)

/-- A tree that grows by a place and the directories above it is a tree. -/
theorem IsTidy.isTree_of_grown (h : t.IsTidy) (htree : t.IsTree) {t' : FileTree} (h' : t'.IsTidy)
    (p : Path)
    (hnew : ∀ q : Path, q.IsPlace → t'.entry? q ≠ none → t.entry? q ≠ none ∨ p.IsBelow q)
    (habove : ∀ d : Path, d.IsPlace → p.IsBelow d → d ≠ p → t'.entry? d = some .directory)
    (hkept : ∀ d : Path, d.IsPlace → t.entry? d = some .directory →
      t'.entry? d = some .directory) : t'.IsTree := by
  rw [h'.isTree_iff]
  intro q hq hstored d hd
  have hdPlace := hq.isPlace_of_mem_ancestors hd
  rcases hnew q hq hstored with hold | hbelow
  · exact hkept d hdPlace (h.isTree_iff.1 htree q hq hold d hd)
  · -- `d` is above `q`, which is `p` or above it, so `d` cannot be `p`
    obtain ⟨hqd, hne⟩ := (hq.mem_ancestors_iff hdPlace).1 hd
    refine habove d hdPlace (hbelow.trans hqd) fun heq ↦ hne ?_
    exact hdPlace.eq_of_isBelow hq (heq ▸ hbelow) hqd

namespace Memory

theorem isTidy_putDirectories (h : t.IsTidy) {places : List Path}
    (hplaces : ∀ p ∈ places, p.IsPlace) : (putDirectories t places).IsTidy := by
  unfold putDirectories
  induction places generalizing t with
  | nil => exact h
  | cons p places ih =>
    obtain ⟨hp, hrest⟩ := List.forall_mem_cons.1 hplaces
    exact ih (h.put hp .directory) hrest

theorem isTidy_perform (h : t.IsTidy) (a : Access) : (a.perform t).IsTidy := by
  cases a with
  | write p contents =>
    have hp := h.isSound.isPlace_place p
    rw [perform_write]
    split
    · exact h
    · exact isTidy_putDirectories (h.put hp _) fun d hd ↦ hp.isPlace_of_mem_ancestors hd
  | createDirectory p =>
    have hp := h.isSound.isPlace_place p
    rw [perform_createDirectory]
    exact isTidy_putDirectories h
      (List.forall_mem_cons.2 ⟨hp, fun d hd ↦ hp.isPlace_of_mem_ancestors hd⟩)
  | remove p => exact ⟨h.entries.erase _, h.workingDirectory⟩
  | setWorkingDirectory p => exact ⟨h.entries, (h.isSound.isPlace_place p).isAbsolute⟩

/-- The access removes a place that something is stored below. -/
def Access.Uproots (t : FileTree) : Access → Prop
  | remove p => t.StoresBelow (t.place p)
  | _ => False

theorem isTree_perform_write (h : t.IsTidy) (htree : t.IsTree) (p : Path) (contents : ByteArray) :
    ((Access.write p contents).perform t).IsTree := by
  cases hoccupied : t.hasDirectory (t.place p) with
  | true =>
    rw [perform_write, if_pos hoccupied]
    exact htree
  | false =>
    have hentry {q : Path} (hq : q.IsPlace) :=
      entry?_perform_write (p := p) h.isSound hq contents hoccupied
    refine h.isTree_of_grown htree (isTidy_perform h _) (t.place p)
      (fun q hq hstored ↦ ?_) (fun d hd hbelow hne ↦ ?_) fun d hd hdirectory ↦ ?_
    · rw [hentry hq] at hstored
      split_ifs at hstored with hself hbelow
      · exact .inr (hself ▸ isBelow_of_same rfl)
      · exact .inr hbelow
      · exact .inl hstored
    · rw [hentry hd, if_neg hne, if_pos hbelow]
    · -- the write succeeds, so the one place that becomes a file was no directory
      have hne : d ≠ t.place p := by
        rintro rfl
        simp [hasDirectory_iff.2 hdirectory] at hoccupied
      rw [hentry hd, if_neg hne, hdirectory, ite_self]

theorem isTree_perform_createDirectory (h : t.IsTidy) (htree : t.IsTree) (p : Path) :
    ((Access.createDirectory p).perform t).IsTree := by
  have hentry {q : Path} (hq : q.IsPlace) := entry?_perform_createDirectory h.isSound hq p
  refine h.isTree_of_grown htree (isTidy_perform h _) (t.place p)
    (fun q hq hstored ↦ ?_) (fun d hd hbelow _ ↦ ?_) fun d hd hdirectory ↦ ?_
  · rw [hentry hq] at hstored
    split_ifs at hstored with hbelow
    · exact .inr hbelow
    · exact .inl hstored
  · rw [hentry hd, if_pos hbelow]
  · rw [hentry hd, hdirectory, ite_self]

theorem isTree_perform_remove (h : t.IsTidy) (htree : t.IsTree) (p : Path) :
    ((Access.remove p).perform t).IsTree ↔ ¬ t.StoresBelow (t.place p) := by
  have hentry {q : Path} (hq : q.IsPlace) := entry?_perform_remove h.isSound hq p
  rw [(isTidy_perform h _).isTree_iff]
  constructor
  · rintro hafter ⟨⟨q, e⟩, he, habove⟩
    have hq := h.isPlace_of_mem he
    have hp := h.isSound.isPlace_place p
    have hstored := (h.mem_toList_iff hq).1 he
    have hne := ((hq.mem_ancestors_iff hp).1 habove).2
    have hgone := hafter q hq (by simp [hentry hq, hne.symm, hstored]) _ habove
    simp [hentry hp] at hgone
  · intro hnone q hq hstored d hd
    have hd' := hq.isPlace_of_mem_ancestors hd
    rw [hentry hq] at hstored
    split_ifs at hstored with hself
    · exact absurd rfl hstored
    · obtain ⟨e, he⟩ := Option.ne_none_iff_exists'.1 hstored
      have hne : d ≠ t.place p := by
        rintro rfl
        exact hnone ⟨(q, e), (h.mem_toList_iff hq).2 he, hd⟩
      rw [hentry hd', if_neg hne]
      exact h.isTree_iff.1 htree q hq hstored d hd

/-- What an access makes of a tree is a tree again, unless it removes a place from above
something. -/
theorem isTree_perform_iff (h : t.IsTidy) (htree : t.IsTree) (a : Access) :
    (a.perform t).IsTree ↔ ¬ a.Uproots t := by
  cases a with
  | write p contents => simpa [Access.Uproots] using isTree_perform_write h htree p contents
  | createDirectory p => simpa [Access.Uproots] using isTree_perform_createDirectory h htree p
  | remove p => exact isTree_perform_remove h htree p
  | setWorkingDirectory p => exact iff_of_true htree id

/-- A removal tells that there was something, a file or a directory. -/
theorem remove_snd_iff (t : FileTree) (p : Path) :
    (remove t p).2 = true ↔ isFile t p = true ∨ isDirectory t p = true := by
  have hstored : (remove t p).2 = (t.entry? (t.place p)).isSome := PathMap.contains_eq _ _
  rw [hstored, isFile, isDirectory, contents?, hasDirectory]
  cases t.entry? (t.place p) with
  | none => simp
  | some e => cases e <;> simp

theorem isTidy_afterAll (h : t.IsTidy) (accesses : List Access) : (afterAll t accesses).IsTidy := by
  unfold afterAll
  induction accesses generalizing t with
  | nil => exact h
  | cons a accesses ih => exact ih (isTidy_perform h a)

theorem isTidy_ofFiles (workingDirectory : Option Path) (files : List (Path × ByteArray)) :
    (ofFiles workingDirectory files).IsTidy := by
  have hrun : ∀ start : FileTree, start.IsTidy →
      (files.foldl (fun t f ↦ (write t f.1 f.2).toOption.getD t) start).IsTidy := by
    intro start hstart
    have hwritten := isTidy_afterAll hstart (files.map fun f ↦ .write f.1 f.2)
    rwa [afterAll, List.foldl_map] at hwritten
  cases workingDirectory with
  | none => exact hrun _ isTidy_empty
  | some d => exact hrun _ (isTidy_perform isTidy_empty (.setWorkingDirectory d))

/-- A tree stays a tree until an access uproots something. -/
theorem isTree_or_uproots (h : t.IsTidy) (htree : t.IsTree) (accesses : List Access) :
    (afterAll t accesses).IsTree ∨ ∃ before a after, accesses = before ++ a :: after ∧
      (afterAll t before).IsTree ∧ a.Uproots (afterAll t before) := by
  induction accesses generalizing t with
  | nil => exact .inl htree
  | cons a accesses ih =>
    by_cases huproots : a.Uproots t
    · exact .inr ⟨[], a, accesses, rfl, htree, huproots⟩
    · rcases ih (isTidy_perform h a) ((isTree_perform_iff h htree a).2 huproots) with
        hafter | ⟨before, b, after, rfl, hbefore⟩
      · exact .inl hafter
      · exact .inr ⟨a :: before, b, after, rfl, hbefore⟩

/-- However an empty tree was used, it is still a tree, or a directory was removed from above
something; and a removal tells of files and directories alike. -/
theorem isTree_afterAll (accesses : List Access) :
    ((afterAll .empty accesses).IsTree ∨
      ∃ before p after, accesses = before ++ .remove p :: after ∧
        (afterAll .empty before).IsTree ∧ isDirectory (afterAll .empty before) p = true ∧
        ¬ (afterAll .empty (before ++ [.remove p])).IsTree) ∧
    ∀ p, (remove (afterAll .empty accesses) p).2 = true ↔
      isFile (afterAll .empty accesses) p = true ∨
        isDirectory (afterAll .empty accesses) p = true := by
  refine ⟨?_, remove_snd_iff _⟩
  rcases isTree_or_uproots isTidy_empty (by decide) accesses with
    htree | ⟨before, a, after, rfl, htree, huproots⟩
  · exact .inl htree
  · have hbroken : ¬ (afterAll .empty (before ++ [a])).IsTree := by
      have hstep : afterAll .empty (before ++ [a]) = a.perform (afterAll .empty before) := by
        simp [afterAll]
      rw [hstep, isTree_perform_iff (isTidy_afterAll isTidy_empty before) htree]
      exact not_not_intro huproots
    cases a with
    | remove p =>
      obtain ⟨e, he, habove⟩ := huproots
      exact .inr ⟨before, p, after, rfl, htree, htree e he _ habove, hbroken⟩
    | write | createDirectory | setWorkingDirectory => exact huproots.elim

/-- A directory is removed from above a file, and that is told like the removal of a file. -/
theorem removed_above_file :
    let t := afterAll .empty [.write ⟨"/a/b"⟩ "".toUTF8]
    t.IsTree ∧ isFile t ⟨"/a"⟩ = false ∧ (remove t ⟨"/a"⟩).2 = true ∧
      isFile (remove t ⟨"/a"⟩).1 ⟨"/a/b"⟩ = true ∧ ¬ (remove t ⟨"/a"⟩).1.IsTree := by
  decide +kernel

end Memory

end StyleModules.FileTree
