import StyleModules.Proofs.FileSystem

/-!
# File trees in memory

A file tree in memory changes by a few kinds of accesses.  Each one goes to a single place, and all
that it changes is at that place or a directory above it.  So a file stays as it is as long as
nobody goes to its place or below it.
-/

namespace StyleModules

namespace Path

variable {p q r : Path}

/-- A path is in a directory, at any depth, or is that directory. -/
def IsBelow (p q : Path) : Prop := q.components <+: p.components

instance (p q : Path) : Decidable (p.IsBelow q) :=
  inferInstanceAs (Decidable (q.components <+: p.components))

theorem IsBelow.trans (h : p.IsBelow q) (h' : q.IsBelow r) : p.IsBelow r := List.IsPrefix.trans h' h

theorem isBelow_of_same (h : p.Same q) : p.IsBelow q := ⟨[], by
  rw [List.append_nil]
  exact h.symm⟩

/-- Whatever is above a place leads to it, and is another place. -/
theorem IsPlace.isBelow_of_mem_ancestors (hp : p.IsPlace) (h : q ∈ p.ancestors) :
    p.IsBelow q ∧ ¬ q.Same p := by
  obtain ⟨cs, hcs, rfl⟩ := hp
  obtain ⟨n, hn, rfl⟩ := List.mem_map.1 h
  obtain ⟨hrange, hpos⟩ := List.mem_filter.1 hn
  rw [List.mem_reverse, List.mem_range, components_ofComponents hcs, List.length_cons] at hrange
  rw [decide_eq_true_iff] at hpos
  obtain ⟨k, rfl⟩ := Nat.exists_eq_succ_of_ne_zero (Nat.ne_of_gt hpos)
  have htake := components_ofComponents fun c hc ↦ hcs c (List.mem_of_mem_take hc (i := k))
  rw [IsBelow, Same, components_ofComponents hcs, List.take_succ_cons, htake]
  refine ⟨(List.prefix_cons_inj _).2 (List.take_prefix k cs), fun heq ↦ ?_⟩
  have hlength := congrArg List.length heq
  rw [List.length_cons, List.length_cons, List.length_take] at hlength
  omega

/-- A file of a directory is below it. -/
theorem IsPlace.join_isBelow (hp : p.IsPlace) {n : String} (hn : IsName n) :
    (p.join ⟨n⟩).IsPlace ∧ (p.join ⟨n⟩).IsBelow p := by
  obtain ⟨cs, hcs, rfl⟩ := hp
  have hnamed : ∀ c ∈ cs ++ [.normal n], c.IsNamed := fun c hc ↦ (List.mem_append.1 hc).elim
    (hcs c) fun hc ↦ ⟨n, List.mem_singleton.1 hc, hn⟩
  rw [join_name hcs hn]
  refine ⟨isPlace_ofComponents hnamed, ?_⟩
  rw [IsBelow, components_ofComponents hcs, components_ofComponents hnamed]
  exact ⟨[.normal n], rfl⟩

end Path

namespace FileTree

variable {t : FileTree} {p q : Path}

/-- The entries are sorted, and the working directory is absolute. -/
structure IsSound (t : FileTree) : Prop where
  entries : t.entries.IsOrdered
  workingDirectory : t.workingDirectory.isAbsolute = true

theorem isSound_empty : empty.IsSound := ⟨PathMap.isOrdered_empty, rfl⟩

theorem IsSound.isPlace_place (h : t.IsSound) (p : Path) : (t.place p).IsPlace :=
  Path.isPlace_normalize (Path.isAbsolute_join h.workingDirectory)

theorem place_of_isAbsolute (hp : p.isAbsolute = true) (t : FileTree) :
    t.place p = p.normalize := by
  rw [place, Path.join_of_isAbsolute hp]

theorem IsSound.put (h : t.IsSound) (p : Path) (e : Entry) : (t.put p e).IsSound :=
  ⟨h.entries.insert p e, h.workingDirectory⟩

theorem IsSound.entry?_put_self (h : t.IsSound) (p : Path) (e : Entry) :
    entry? (t.put p e) p = some e :=
  h.entries.get?_insert_self e

theorem entry?_put_of_ne (h : ¬ q.Same p) (t : FileTree) (e : Entry) :
    entry? (t.put p e) q = t.entry? q :=
  PathMap.get?_insert_of_ne h t.entries e

namespace Memory

theorem IsSound.putDirectories (h : t.IsSound) (places : List Path) :
    (putDirectories t places).IsSound := by
  unfold Memory.putDirectories
  induction places generalizing t with
  | nil => exact h
  | cons p places ih => exact ih (h.put p .directory)

theorem entry?_putDirectories {places : List Path} (h : ∀ p ∈ places, ¬ q.Same p)
    (t : FileTree) : entry? (putDirectories t places) q = t.entry? q := by
  unfold putDirectories
  induction places generalizing t with
  | nil => rfl
  | cons p places ih =>
    obtain ⟨hp, hplaces⟩ := List.forall_mem_cons.1 h
    exact (ih hplaces _).trans (entry?_put_of_ne hp t .directory)

/-- What can be done to a file tree in memory. -/
inductive Access where
  | write (p : Path) (contents : ByteArray)
  | createDirectory (p : Path)
  | remove (p : Path)
  | setWorkingDirectory (p : Path)

/-- The tree after an access; a write that fails changes nothing. -/
def Access.perform (t : FileTree) : Access → FileTree
  | write p contents => (Memory.write t p contents).toOption.getD t
  | createDirectory p => Memory.createDirectory t p
  | remove p => (Memory.remove t p).1
  | setWorkingDirectory p => Memory.setWorkingDirectory t p

/-- The path that an access writes or removes. -/
def Access.target? : Access → Option Path
  | write p _ => some p
  | createDirectory p => some p
  | remove p => some p
  | setWorkingDirectory _ => none

def afterAll (t : FileTree) (accesses : List Access) : FileTree :=
  accesses.foldl (fun t a ↦ a.perform t) t

/-- No access goes to a path or below it. -/
def Access.Spares (a : Access) (t : FileTree) (q : Path) : Prop :=
  ∀ p, a.target? = some p → ¬ (t.place p).IsBelow q

theorem perform_write (t : FileTree) (p : Path) (contents : ByteArray) :
    (Access.write p contents).perform t =
      if t.hasDirectory (t.place p) then t
      else putDirectories (t.put (t.place p) (.file contents)) (t.place p).ancestors := by
  simp only [Access.perform, write]
  cases t.hasDirectory (t.place p) <;> simp [Except.toOption]

theorem perform_createDirectory (t : FileTree) (p : Path) :
    (Access.createDirectory p).perform t =
      putDirectories t (t.place p :: (t.place p).ancestors) := rfl

theorem isSound_perform (h : t.IsSound) (a : Access) : (a.perform t).IsSound := by
  cases a with
  | write p contents =>
    rw [perform_write]
    split
    · exact h
    · exact IsSound.putDirectories (h.put _ _) _
  | createDirectory p =>
    rw [perform_createDirectory]
    exact IsSound.putDirectories h _
  | remove p => exact ⟨h.entries.erase _, h.workingDirectory⟩
  | setWorkingDirectory p => exact ⟨h.entries, (h.isPlace_place p).isAbsolute⟩

theorem isSound_afterAll (h : t.IsSound) (accesses : List Access) :
    (afterAll t accesses).IsSound := by
  unfold afterAll
  induction accesses generalizing t with
  | nil => exact h
  | cons a accesses ih => exact ih (isSound_perform h a)

/-- What nobody goes to or below stays as it is. -/
theorem entry?_perform (h : t.IsSound) {a : Access} (hspares : a.Spares t q) :
    entry? (a.perform t) q = t.entry? q := by
  have hself : ∀ p, a.target? = some p → ¬ q.Same (t.place p) := fun p hp hsame ↦
    hspares p hp (Path.isBelow_of_same hsame.symm)
  have habove : ∀ p, a.target? = some p → ∀ d ∈ (t.place p).ancestors, ¬ q.Same d := by
    intro p hp d hd hsame
    refine hspares p hp (Path.IsBelow.trans ?_ (Path.isBelow_of_same hsame.symm))
    exact ((h.isPlace_place p).isBelow_of_mem_ancestors hd).1
  cases a with
  | write p contents =>
    rw [perform_write]
    split
    · rfl
    · exact (entry?_putDirectories (habove p rfl) _).trans (entry?_put_of_ne (hself p rfl) t _)
  | createDirectory p =>
    rw [perform_createDirectory]
    exact entry?_putDirectories (List.forall_mem_cons.2 ⟨hself p rfl, habove p rfl⟩) t
  | remove p => exact PathMap.get?_erase_of_ne (hself p rfl) t.entries
  | setWorkingDirectory p => rfl

/-- What nobody goes to or below by an absolute path stays as it is, however the working directory
changes. -/
theorem entry?_afterAll (h : t.IsSound) {accesses : List Access}
    (hspares : ∀ a ∈ accesses, ∀ p, a.target? = some p →
      p.isAbsolute = true ∧ ¬ p.normalize.IsBelow q) :
    entry? (afterAll t accesses) q = t.entry? q := by
  unfold afterAll
  induction accesses generalizing t with
  | nil => rfl
  | cons a accesses ih =>
    obtain ⟨ha, haccesses⟩ := List.forall_mem_cons.1 hspares
    refine (ih (isSound_perform h a) haccesses).trans (entry?_perform h fun p hp ↦ ?_)
    rw [place_of_isAbsolute (ha p hp).1]
    exact (ha p hp).2

/-- What is written can be found under its place. -/
theorem entry?_write (h : t.IsSound) (contents : ByteArray)
    (hdirectory : t.hasDirectory (t.place p) = false) :
    entry? ((Access.write p contents).perform t) (t.place p) = some (.file contents) := by
  rw [perform_write, hdirectory, if_neg Bool.false_ne_true, entry?_putDirectories,
    h.entry?_put_self]
  exact fun d hd hsame ↦ ((h.isPlace_place p).isBelow_of_mem_ancestors hd).2 hsame.symm

end Memory

end FileTree

namespace FileSystem

open FileTree

variable {t : FileTree} {p q : Path}

/-- Writing to a tree in memory is an access.  It fails only on a directory. -/
theorem write_memory (t : FileTree) (p : Path) (contents : ByteArray) :
    (memory t).write p contents = (memory ((Memory.Access.write p contents).perform t),
      if t.hasDirectory (t.place p) then some Memory.directoryFault else none) := by
  rw [Memory.perform_write, write, Memory.write]
  cases t.hasDirectory (t.place p) <;> rfl

theorem read_memory (t : FileTree) (p : Path) {contents : ByteArray}
    (h : t.entry? (t.place p) = some (.file contents)) : (memory t).read p = .ok contents := by
  rw [read, Memory.read, h]

end FileSystem

end StyleModules
