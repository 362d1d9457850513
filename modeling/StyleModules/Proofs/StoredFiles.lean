import StyleModules.Proofs.Memory

/-!
# What is stored in memory

What an access to a file tree in memory leaves at every place, and so what can be read afterwards.
A file that is written can be read under every path of its place, and a write that fails changes
nothing.  Nobody checks what is above, though: a file that is in the way of a directory is replaced
by it.  All other files stay.
-/

namespace StyleModules

namespace Path

variable {p q : Path}

/-- All that is above a place is a place, too. -/
theorem IsPlace.isPlace_of_mem_ancestors (hp : p.IsPlace) (h : q ∈ p.ancestors) : q.IsPlace := by
  obtain ⟨cs, hcs, rfl⟩ := hp
  obtain ⟨n, hn, rfl⟩ := List.mem_map.1 h
  obtain ⟨k, rfl⟩ := Nat.exists_eq_succ_of_ne_zero
    (Nat.ne_of_gt (decide_eq_true_iff.1 (List.mem_filter.1 hn).2))
  rw [components_ofComponents hcs, List.take_succ_cons]
  exact isPlace_ofComponents fun c hc ↦ hcs c (List.mem_of_mem_take hc)

/-- Only one place is below a place and above it. -/
theorem IsPlace.eq_of_isBelow (hp : p.IsPlace) (hq : q.IsPlace) (hpq : p.IsBelow q)
    (hqp : q.IsBelow p) : p = q :=
  hp.eq_of_components hq (hqp.eq_of_length_le hpq.length_le)

/-- The places above a place are those that lead to it. -/
theorem IsPlace.mem_ancestors_iff (hp : p.IsPlace) (hq : q.IsPlace) :
    q ∈ p.ancestors ↔ p.IsBelow q ∧ q ≠ p := by
  constructor
  · intro h
    obtain ⟨hbelow, hother⟩ := hp.isBelow_of_mem_ancestors h
    exact ⟨hbelow, fun heq ↦ hother (congrArg components heq)⟩
  · rintro ⟨hbelow, hother⟩
    obtain ⟨cs, hcs, rfl⟩ := hq
    rw [IsBelow, components_ofComponents hcs] at hbelow
    have hlength : cs.length + 1 < p.components.length := by
      refine Nat.lt_of_le_of_ne hbelow.length_le fun heq ↦ hother ?_
      refine (isPlace_ofComponents hcs).eq_of_components hp ?_
      rw [components_ofComponents hcs]
      exact hbelow.eq_of_length heq
    refine List.mem_map.2 ⟨cs.length + 1, List.mem_filter.2 ⟨?_, by simp⟩, ?_⟩
    · rwa [List.mem_reverse, List.mem_range]
    · rw [List.prefix_iff_eq_take.1 hbelow, List.length_cons]

end Path

open StyleModules.Path

namespace FileTree.Memory

variable {t : FileTree} {p q : Path}

theorem entry?_putDirectories_eq (h : t.IsSound) (hq : q.IsPlace) {places : List Path}
    (hplaces : ∀ p ∈ places, p.IsPlace) : entry? (putDirectories t places) q =
      if q ∈ places then some .directory else t.entry? q := by
  unfold putDirectories
  induction places generalizing t with
  | nil => rfl
  | cons p places ih =>
    obtain ⟨hp, hrest⟩ := List.forall_mem_cons.1 hplaces
    rw [List.foldl_cons, ih (h.put p .directory) hrest]
    by_cases heq : q = p
    · -- the later directories may hold `q` once more, which changes nothing
      subst heq
      rw [h.entry?_put_self, if_pos List.mem_cons_self, ite_self]
    · rw [entry?_put_of_ne fun hsame ↦ heq (hq.eq_of_components hp hsame)]
      simp only [List.mem_cons, heq, false_or]

/-- A write that succeeds stores the file and makes directories of all places above it. -/
theorem entry?_perform_write (h : t.IsSound) (hq : q.IsPlace) (contents : ByteArray)
    (hfree : t.hasDirectory (t.place p) = false) :
    entry? ((Access.write p contents).perform t) q =
      if q = t.place p then some (.file contents)
      else if (t.place p).IsBelow q then some .directory else t.entry? q := by
  have hp := h.isPlace_place p
  by_cases heq : q = t.place p
  · rw [heq, entry?_write h contents hfree, if_pos rfl]
  · have hput : entry? (t.put (t.place p) (.file contents)) q = t.entry? q :=
      entry?_put_of_ne (fun hsame ↦ heq (hq.eq_of_components hp hsame)) t _
    rw [perform_write, hfree, if_neg Bool.false_ne_true,
      entry?_putDirectories_eq (h.put _ _) hq fun d hd ↦ hp.isPlace_of_mem_ancestors hd, hput]
    simp only [hp.mem_ancestors_iff hq, heq, ne_eq, not_false_eq_true, and_true, if_false]

/-- A directory is made of a place and of all places above it, whatever was there. -/
theorem entry?_perform_createDirectory (h : t.IsSound) (hq : q.IsPlace) (p : Path) :
    entry? ((Access.createDirectory p).perform t) q =
      if (t.place p).IsBelow q then some .directory else t.entry? q := by
  have hp := h.isPlace_place p
  have hmem : q ∈ t.place p :: (t.place p).ancestors ↔ (t.place p).IsBelow q := by
    rw [List.mem_cons, hp.mem_ancestors_iff hq]
    by_cases heq : q = t.place p
    · simp [heq, isBelow_of_same (rfl : (t.place p).Same (t.place p))]
    · simp [heq]
  rw [perform_createDirectory, entry?_putDirectories_eq h hq
    (List.forall_mem_cons.2 ⟨hp, fun d hd ↦ hp.isPlace_of_mem_ancestors hd⟩)]
  simp only [hmem]

/-- A removal takes away whatever is stored at a place. -/
theorem entry?_perform_remove (h : t.IsSound) (hq : q.IsPlace) (p : Path) :
    entry? ((Access.remove p).perform t) q = if q = t.place p then none else t.entry? q := by
  by_cases heq : q = t.place p
  · rw [if_pos heq, heq]
    exact PathMap.get?_erase_self t.entries _
  · rw [if_neg heq]
    exact PathMap.get?_erase_of_ne
      (fun hsame ↦ heq (hq.eq_of_components (h.isPlace_place p) hsame)) t.entries

/-- Writing and making directories leave the working directory alone. -/
theorem place_putDirectories (t : FileTree) (places : List Path) :
    (putDirectories t places).place = t.place := by
  unfold putDirectories
  induction places generalizing t with
  | nil => rfl
  | cons p places ih => exact ih (t.put p .directory)

theorem place_perform_write (t : FileTree) (p : Path) (contents : ByteArray) :
    ((Access.write p contents).perform t).place = t.place := by
  rw [perform_write]
  split
  · rfl
  · exact place_putDirectories _ _

theorem place_perform_createDirectory (t : FileTree) (p : Path) :
    ((Access.createDirectory p).perform t).place = t.place :=
  place_putDirectories t _

end FileTree.Memory

namespace FileSystem

open FileTree

variable {t : FileTree}

/-- What is read depends only on what is stored at the place. -/
theorem read_memory_congr {t' : FileTree} {p : Path}
    (h : t'.entry? (t'.place p) = t.entry? (t.place p)) :
    (memory t').read p = (memory t).read p := by
  simp only [read, Memory.read, h]

theorem read_memory_directory {p : Path} (h : t.entry? (t.place p) = some .directory) :
    (memory t).read p = .error Memory.directoryFault := by
  rw [read, Memory.read, h]

/-- The bytes of a text are read as that text. -/
theorem readText_memory {p : Path} {text : String} (h : (memory t).read p = .ok text.toUTF8) :
    (memory t).readText p = .ok text := by
  have hread : Memory.read t p = .ok text.toUTF8 := h
  have hvalid : String.fromUTF8? text.toUTF8 = some text := dif_pos text.isValidUTF8
  rw [readText, Memory.readText, hread]
  simp only [bind, Except.bind, hvalid]

theorem read_written (h : t.IsSound) {p : Path} (contents : ByteArray)
    (hfree : t.hasDirectory (t.place p) = false) (q : Path) :
    (memory ((Memory.Access.write p contents).perform t)).read q =
      if t.place q = t.place p then .ok contents
      else if (t.place p).IsBelow (t.place q) then .error Memory.directoryFault
      else (memory t).read q := by
  have hplace := Memory.place_perform_write t p contents
  have hentry := Memory.entry?_perform_write (p := p) h (h.isPlace_place q) contents hfree
  generalize (Memory.Access.write p contents).perform t = written at hplace hentry ⊢
  rw [← congrFun hplace q] at hentry
  by_cases hself : t.place q = t.place p
  · rw [if_pos hself]
    exact read_memory _ _ (by rw [hentry, hplace, if_pos hself])
  · by_cases habove : (t.place p).IsBelow (t.place q)
    · rw [if_neg hself, if_pos habove]
      exact read_memory_directory (by rw [hentry, hplace, if_neg hself, if_pos habove])
    · rw [if_neg hself, if_neg habove]
      exact read_memory_congr (by rw [hentry, hplace, if_neg hself, if_neg habove])

theorem read_made (h : t.IsSound) (p q : Path) :
    (memory ((Memory.Access.createDirectory p).perform t)).read q =
      if (t.place p).IsBelow (t.place q) then .error Memory.directoryFault
      else (memory t).read q := by
  have hplace := Memory.place_perform_createDirectory t p
  have hentry := Memory.entry?_perform_createDirectory h (h.isPlace_place q) p
  generalize (Memory.Access.createDirectory p).perform t = made at hplace hentry ⊢
  rw [← congrFun hplace q] at hentry
  by_cases habove : (t.place p).IsBelow (t.place q)
  · rw [if_pos habove]
    exact read_memory_directory (by rw [hentry, hplace, if_pos habove])
  · rw [if_neg habove]
    exact read_memory_congr (by rw [hentry, hplace, if_neg habove])

/-- A write fails on a directory only, and then nothing changes.  After one that succeeds the file
can be read under each path of its place, a file above that place is gone for a directory, and all
else reads as before.  Making a directory never fails, takes the file at its place and those above
it away in the same manner, and leaves all else to be read as before. -/
theorem read_memory_after_change (h : t.IsSound) (p : Path) (contents : ByteArray) :
    (((memory t).write p contents).2 = none ↔ (memory t).isDirectory p = false) ∧
    (((memory t).write p contents).2 ≠ none →
      (memory t).write p contents = (memory t, some Memory.directoryFault)) ∧
    (((memory t).write p contents).2 = none → ∀ q : Path,
      ((memory t).write p contents).1.read q =
        if t.place q = t.place p then .ok contents
        else if (t.place p).IsBelow (t.place q) then .error Memory.directoryFault
        else (memory t).read q) ∧
    ((memory t).createDirectory p).2 = none ∧
    ∀ q : Path, ((memory t).createDirectory p).1.read q =
      if (t.place p).IsBelow (t.place q) then .error Memory.directoryFault
      else (memory t).read q := by
  have hdirectory : (memory t).isDirectory p = t.hasDirectory (t.place p) := rfl
  rw [hdirectory, write_memory]
  refine ⟨by simp, fun hfault ↦ ?_, fun hfault q ↦ ?_, rfl, read_made h p⟩
  · have hoccupied : t.hasDirectory (t.place p) = true := by simpa using hfault
    rw [Memory.perform_write, if_pos hoccupied, if_pos hoccupied]
  · exact read_written h contents (by simpa using hfault) q

/-- In a directory that is not there yet a file is written, and another path of its place reads it.
The file beside it stays, and nothing is written over the directory. -/
theorem read_memory_after_change_sample :
    let t := Memory.afterAll .empty [.setWorkingDirectory ⟨"/a"⟩, .write ⟨"b"⟩ "old".toUTF8]
    let written := (memory t).write ⟨"x/../c/d"⟩ "new".toUTF8
    t.IsSound ∧ written.2 = none ∧ written.1.read ⟨"/a/./c/d"⟩ = .ok "new".toUTF8 ∧
      written.1.read ⟨"b"⟩ = .ok "old".toUTF8 ∧
      (memory t).write ⟨""⟩ "new".toUTF8 = (memory t, some Memory.directoryFault) := by
  intro t written
  have ht : t.IsSound := Memory.isSound_afterAll isSound_empty _
  obtain ⟨-, -, hreads, -⟩ := read_memory_after_change ht ⟨"x/../c/d"⟩ "new".toUTF8
  obtain ⟨-, hfails, -⟩ := read_memory_after_change ht ⟨""⟩ "new".toUTF8
  have hdone : written.2 = none := by decide +kernel
  refine ⟨ht, hdone, ?_, ?_, hfails (by decide +kernel)⟩
  · rw [hreads hdone, if_pos (by decide +kernel)]
  · rw [hreads hdone, if_neg (by decide +kernel), if_neg (by decide +kernel)]
    decide +kernel

/-- A file is lost when a file is written below it, or when a directory is made there. -/
theorem file_above_is_lost :
    let t := Memory.afterAll .empty [.write ⟨"/a"⟩ "old".toUTF8]
    let written := (memory t).write ⟨"/a/b"⟩ "new".toUTF8
    let made := (memory t).createDirectory ⟨"/a/b"⟩
    (memory t).read ⟨"/a"⟩ = .ok "old".toUTF8 ∧
      written.2 = none ∧ written.1.read ⟨"/a"⟩ = .error Memory.directoryFault ∧
      made.2 = none ∧ made.1.read ⟨"/a"⟩ = .error Memory.directoryFault := by
  decide +kernel

end FileSystem

end StyleModules
