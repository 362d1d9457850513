import StyleModules.Proofs.Spelling

/-!
# Locations

A readable path leads to one entry of the tree, its location, and what is read depends on the
location only.  Readable paths that denote the same lead to the same location, and the plainest way
to write a readable path is readable too.
-/

namespace StyleModules

open StyleModules.Path

namespace Path

/-- The components of a path without those that take no step. -/
def steps (p : Path) : List Component := (segments p.text.toList).filterMap component?

theorem steps_eq (p : Path) :
    p.steps = p.components.filter fun c ↦ c != .root && c != .current := by
  have hkept : ∀ ss ⊆ segments p.text.toList, (ss.filterMap component?).filter
      (fun c ↦ c != .root && c != .current) = ss.filterMap component? := by
    refine fun ss hss ↦ List.filter_eq_self.2 fun c hc ↦ ?_
    obtain ⟨s, hs, hsc⟩ := List.mem_filterMap.1 hc
    rcases isStep_of_mem_segments (List.mem_filterMap.2 ⟨s, hss hs, hsc⟩) with rfl | ⟨n, rfl, -⟩
    all_goals simp
  unfold steps components componentsOfText
  split
  next rest heq =>
    have hsegments : segments p.text.toList = [] :: segments rest := by
      rw [heq, segments, if_pos rfl]
    rw [hsegments, List.filterMap_cons_none (by rfl), List.filter_cons_of_neg (by simp),
      hkept _ (hsegments ▸ List.subset_cons_self _ _)]
  next =>
    split
    next rest heq =>
      rw [heq, List.filterMap_cons_none (by rfl), List.filter_cons_of_neg (by simp),
        hkept _ (heq ▸ List.subset_cons_self _ _)]
    next => rw [hkept _ (List.Subset.refl _)]

theorem Same.steps_eq {p q : Path} (h : p.Same q) : p.steps = q.steps := by
  rw [Path.steps_eq, Path.steps_eq, h]

/-- Following paths that denote the same leads to paths that denote the same. -/
theorem Same.join {p q : Path} (h : p.Same q) (d : Path) : (d.join p).Same (d.join q) := by
  by_cases hempty : d.text.isEmpty = true
  · rwa [Path.join, Path.join, hempty, Bool.or_true, Bool.or_true]
  · rw [Bool.not_eq_true] at hempty
    cases hp : p.isAbsolute with
    | true => rwa [join_of_isAbsolute hp, join_of_isAbsolute (h.isAbsolute_eq ▸ hp)]
    | false =>
      obtain ⟨above, habove⟩ := components_join hempty
      have hsteps : (segments p.text.toList).filterMap component? =
          (segments q.text.toList).filterMap component? := h.steps_eq
      rw [Same, habove p hp, habove q (h.isAbsolute_eq ▸ hp), hsteps]

theorem text_of_component? {s : List Char} {c : Component} (h : component? s = some c) :
    c.text.toList = s := by
  unfold component? at h
  split at h
  next => simp at h
  next =>
    split at h
    next heq =>
      obtain rfl := Option.some.inj h
      exact heq.symm
    next =>
      obtain rfl := Option.some.inj h
      exact String.toList_ofList

theorem isEmpty_of_components_eq_nil {p : Path} (h : p.components = []) :
    p.text.isEmpty = true := by
  cases htext : p.text.toList with
  | nil => simpa using htext
  | cons c cs =>
    have hsteps : p.steps = [] := by rw [p.steps_eq, h, List.filter_nil]
    have habs : p.isAbsolute = false := by rw [p.isAbsolute_eq, h]; rfl
    have hc : c ≠ '/' := by simpa [isAbsolute, htext] using habs
    obtain ⟨s, ss, hs⟩ := List.exists_cons_of_ne_nil (segments_ne_nil cs)
    rw [steps, htext, segments_cons_of_ne hc hs] at hsteps
    rw [components, htext, componentsOfText_relative (by simpa using hc),
      segments_cons_of_ne hc hs] at h
    split at h
    next => simp at h
    next hdot =>
      rw [List.filterMap_eq_nil_iff] at h
      have hnone := h _ List.mem_cons_self
      unfold component? at hnone
      split at hnone
      next hidle => exact absurd (hidle.resolve_left (by simp)) fun heq ↦ hdot ss (by rw [heq])
      next => split at hnone <;> simp at hnone

theorem mem_of_mem_segments {cs s : List Char} (h : s ∈ segments cs) {x : Char} (hx : x ∈ s) :
    x ∈ cs := by
  induction cs generalizing s with
  | nil => simp_all [segments]
  | cons c cs ih =>
    by_cases hc : c = '/'
    · rw [segments, if_pos hc] at h
      rcases List.mem_cons.1 h with rfl | h
      · simp at hx
      · exact List.mem_cons_of_mem c (ih h hx)
    · obtain ⟨t, ts, ht⟩ := List.exists_cons_of_ne_nil (segments_ne_nil cs)
      rw [segments_cons_of_ne hc ht] at h
      rcases List.mem_cons.1 h with rfl | h
      · rcases List.mem_cons.1 hx with rfl | hx
        · exact List.mem_cons_self
        · exact List.mem_cons_of_mem c (ih (ht ▸ List.mem_cons_self) hx)
      · exact List.mem_cons_of_mem c (ih (ht ▸ List.mem_cons_of_mem t h) hx)

theorem mem_joinNames {cs : List Component} {x : Char} (h : x ∈ (joinNames cs).toList) :
    x = '/' ∨ ∃ c ∈ cs, x ∈ c.text.toList := by
  induction cs with
  | nil => simp [joinNames] at h
  | cons c cs ih =>
    cases cs with
    | nil => exact .inr ⟨c, List.mem_cons_self, h⟩
    | cons d cs =>
      have htext : joinNames (c :: d :: cs) = c.text ++ "/" ++ joinNames (d :: cs) := rfl
      rw [htext, String.toList_append, String.toList_append, List.append_assoc, List.mem_append,
        List.mem_append] at h
      rcases h with h | h | h
      · exact .inr ⟨c, List.mem_cons_self, h⟩
      · exact .inl (by simpa using h)
      · refine (ih h).imp_right ?_
        rintro ⟨e, he, hx⟩
        exact ⟨e, List.mem_cons_of_mem c he, hx⟩

/-- The plainest way to write a path makes do with the characters of the path and the separators. -/
theorem mem_ofComponents {p : Path} {x : Char} (h : x ∈ (ofComponents p.components).text.toList) :
    x = '/' ∨ x = '.' ∨ x ∈ p.text.toList := by
  have hcomponent : ∀ c ∈ p.components, x ∈ c.text.toList →
      x = '/' ∨ x = '.' ∨ x ∈ p.text.toList := by
    intro c hc hx
    by_cases hstep : (c != .root && c != .current) = true
    · have hmem : c ∈ p.steps := p.steps_eq ▸ List.mem_filter.2 ⟨hc, hstep⟩
      obtain ⟨s, hs, hsc⟩ := List.mem_filterMap.1 hmem
      exact .inr (.inr (mem_of_mem_segments hs (text_of_component? hsc ▸ hx)))
    · have hidle : c = .root ∨ c = .current := by
        rw [Bool.and_eq_true, bne_iff_ne, bne_iff_ne] at hstep
        tauto
      rcases hidle with rfl | rfl
      · exact .inl (by simpa [Component.text] using hx)
      · exact .inr (.inl (by simpa [Component.text] using hx))
  have hjoined : x = '/' ∨ ∃ c ∈ p.components, x ∈ c.text.toList := by
    unfold ofComponents at h
    split at h
    next cs heq =>
      rw [String.toList_append, List.mem_append] at h
      rcases h with h | h
      · exact .inl (by simpa using h)
      · refine (mem_joinNames h).imp_right ?_
        rintro ⟨c, hc, hx⟩
        exact ⟨c, heq ▸ List.mem_cons_of_mem _ hc, hx⟩
    next => exact mem_joinNames h
  rcases hjoined with h | ⟨c, hc, hx⟩
  · exact .inl h
  · exact hcomponent c hc hx

end Path

/-! ## Following paths on a disk -/

namespace FileTree.Disk

variable {t : FileTree} {p q here x y : Path}

def origin (t : FileTree) (p : Path) : Path :=
  if p.isAbsolute then ⟨"/"⟩ else t.workingDirectory

theorem origin_eq (h : p.Same q) (t : FileTree) : origin t p = origin t q := by
  rw [origin, origin, h.isAbsolute_eq]

theorem locate_eq_ok_iff : locate t p = .ok x ↔ p.text.isEmpty = false ∧
    Char.ofNat 0 ∉ p.text.toList ∧ (segments p.text.toList).foldlM (step t) (origin t p) = .ok x := by
  unfold locate
  split
  next h => simp [h]
  next h =>
    split
    next hnul => simp_all
    next hnul => simp_all [origin]

/-- A segment that takes no step. -/
def IsIdle (s : List Char) : Prop := s = [] ∨ s = ['.']

theorem component?_eq_none_iff {s : List Char} : component? s = none ↔ IsIdle s := by
  unfold component? IsIdle
  split
  next h => simp [h]
  next h => split <;> simp [h]

theorem step_idle {s : List Char} (hs : IsIdle s) (h : step t here s = .ok x) : x = here := by
  unfold step at h
  split at h
  · simp at h
  · simp at h
  · rw [if_pos (show s = [] ∨ s = ['.'] from hs)] at h
    exact (Except.ok.inj h).symm

/-- Where one segment is possible that takes no step, all such segments are. -/
theorem foldlM_step_idle {s : List Char} (hs : IsIdle s) (h : step t here s = .ok x)
    {ss : List (List Char)} (hss : ∀ s ∈ ss, IsIdle s) : ss.foldlM (step t) here = .ok here := by
  obtain rfl := step_idle hs h
  unfold step at h
  split at h
  · simp at h
  · simp at h
  next hdirectory =>
    induction ss with
    | nil => rfl
    | cons s ss ih =>
      obtain ⟨hs, hrest⟩ := List.forall_mem_cons.1 hss
      have hstep : step t x s = .ok x := by
        rw [step, hdirectory]
        exact if_pos hs
      rw [List.foldlM_cons, hstep]
      exact ih hrest

/-- Only the steps of a path count for where it leads. -/
theorem foldlM_step_steps {ss : List (List Char)} (h : ss.foldlM (step t) here = .ok x) :
    ((ss.filterMap component?).map fun c ↦ c.text.toList).foldlM (step t) here = .ok x := by
  induction ss generalizing here with
  | nil => exact h
  | cons s ss ih =>
    rw [List.foldlM_cons] at h
    cases hstep : step t here s with
    | error problem => rw [hstep] at h; simp [bind, Except.bind] at h
    | ok next =>
      rw [hstep] at h
      have hrest := ih h
      cases hs : component? s with
      | none =>
        rw [List.filterMap_cons_none hs]
        exact step_idle (component?_eq_none_iff.1 hs) hstep ▸ hrest
      | some c =>
        rw [List.filterMap_cons_some hs, List.map_cons, List.foldlM_cons, text_of_component? hs,
          hstep]
        exact hrest

theorem locate_eq_of_same (h : p.Same q) (hp : locate t p = .ok x) (hq : locate t q = .ok y) :
    x = y := by
  have hpSteps := foldlM_step_steps (locate_eq_ok_iff.1 hp).2.2
  have hqSteps := foldlM_step_steps (locate_eq_ok_iff.1 hq).2.2
  have hsteps : (segments p.text.toList).filterMap component? =
      (segments q.text.toList).filterMap component? := h.steps_eq
  rw [hsteps, origin_eq h] at hpSteps
  exact Except.ok.inj (hpSteps.symm.trans hqSteps)

/-- In the plainest way to write a path, only its beginning takes no step, and only if that of the
path takes none. -/
theorem segments_ofComponents (p : Path) (hne : p.components ≠ []) :
    ∃ idle, (∀ s ∈ idle, IsIdle s) ∧ segments (ofComponents p.components).text.toList =
        idle ++ p.steps.map (fun c ↦ c.text.toList) ∧
      (idle ≠ [] → ∃ s ss, segments p.text.toList = s :: ss ∧ IsIdle s) := by
  have hno : ∀ d ∈ p.steps, '/' ∉ d.text.toList := fun d hd ↦ (isStep_of_mem_segments hd).no_slash
  cases habs : p.isAbsolute with
  | true =>
    obtain ⟨rest, htext⟩ : ∃ rest, p.text.toList = '/' :: rest :=
      List.head?_eq_some_iff.1 (by simpa [isAbsolute] using habs)
    have hsegments : segments p.text.toList = [] :: segments rest := by
      rw [htext, segments, if_pos rfl]
    have hcomponents : p.components = .root :: p.steps := by
      rw [steps, hsegments, List.filterMap_cons_none (by rfl), components, htext, componentsOfText]
    rw [hcomponents, toList_ofComponents_root, segments, if_pos rfl]
    cases hsteps : p.steps with
    | nil => exact ⟨[[], []], by simp [IsIdle], rfl, fun _ ↦ ⟨[], _, hsegments, .inl rfl⟩⟩
    | cons d ds =>
      refine ⟨[[]], by simp [IsIdle], ?_, fun _ ↦ ⟨[], _, hsegments, .inl rfl⟩⟩
      rw [segments_joinNames (hsteps ▸ hno) (by simp)]
      rfl
  | false =>
    have hhead : p.text.toList.head? ≠ some '/' := by simpa [isAbsolute] using habs
    obtain ⟨s, ss, hs⟩ := List.exists_cons_of_ne_nil (segments_ne_nil p.text.toList)
    have hcomponents := componentsOfText_relative hhead
    by_cases hdot : s = ['.']
    · subst hdot
      have hcurrent : p.components = .current :: p.steps := by
        rw [steps, components, hcomponents, hs, List.filterMap_cons_none (by rfl)]
        rfl
      refine ⟨[['.']], by simp [IsIdle], ?_, fun _ ↦ ⟨_, ss, hs, .inr rfl⟩⟩
      rw [hcurrent]
      change segments (joinNames (.current :: p.steps)).toList = _
      rw [segments_joinNames (List.forall_mem_cons.2 ⟨by decide, hno⟩) (by simp)]
      rfl
    · have hrelative : p.components = p.steps := by
        rw [steps, components, hcomponents, hs]
        split
        next heq => exact absurd (List.cons.inj heq).1 hdot
        next => rfl
      have hof : ofComponents p.components = ⟨joinNames p.steps⟩ := by
        rw [← hrelative]
        unfold ofComponents
        split
        next heq => simp [p.isAbsolute_eq, heq] at habs
        next => rfl
      refine ⟨[], List.forall_mem_nil _, ?_, fun h ↦ absurd rfl h⟩
      rw [hof, segments_joinNames hno (hrelative ▸ hne), List.nil_append]

/-- The plainest way to write a path leads where the path leads. -/
theorem locate_ofComponents (h : locate t p = .ok x) :
    locate t (ofComponents p.components) = .ok x := by
  obtain ⟨hempty, hnul, hfold⟩ := locate_eq_ok_iff.1 h
  have hne : p.components ≠ [] := fun hnil ↦ by
    rw [isEmpty_of_components_eq_nil hnil] at hempty
    simp at hempty
  have hsame : (ofComponents p.components).Same p :=
    (areComponents_components p).components_ofComponents
  refine locate_eq_ok_iff.2 ⟨?_, fun hmem ↦ ?_, ?_⟩
  · rw [Bool.eq_false_iff]
    intro hnil
    have htext : (ofComponents p.components).text = "" := by simpa using hnil
    refine hne (hsame.symm.trans ?_)
    rw [components, htext]
    rfl
  · rcases mem_ofComponents hmem with hx | hx | hx
    · exact absurd hx (by decide)
    · exact absurd hx (by decide)
    · exact hnul hx
  · obtain ⟨idle, hidle, hplain, hfirst⟩ := segments_ofComponents p hne
    have hnothing : idle.foldlM (step t) (origin t p) = .ok (origin t p) := by
      cases idle with
      | nil => rfl
      | cons s' idle =>
        obtain ⟨s, ss, hs, hsIdle⟩ := hfirst (by simp)
        rw [hs, List.foldlM_cons] at hfold
        cases hstep : step t (origin t p) s with
        | error problem => rw [hstep] at hfold; simp [bind, Except.bind] at hfold
        | ok next => exact foldlM_step_idle hsIdle hstep hidle
    rw [origin_eq hsame, hplain, List.foldlM_append, hnothing]
    exact foldlM_step_steps hfold

end FileTree.Disk

/-! ## Locations of files -/

namespace FileSystem

variable {fs : FileSystem} {p q : Path}

/-- The key of the entry that a path leads to, whether or not there is one. -/
def location? (fs : FileSystem) (p : Path) : Option (List Component) :=
  match fs with
  | memory t => some (t.place p).components
  | disk t => (FileTree.Disk.locate t p).toOption.map Path.components
  | refusing _ => none

/-- Two paths lead to the same file. -/
structure SameFile (fs : FileSystem) (p q : Path) : Prop where
  left : fs.isFile p = true
  right : fs.isFile q = true
  location : fs.location? p = fs.location? q

theorem SameFile.symm (h : fs.SameFile p q) : fs.SameFile q p :=
  ⟨h.right, h.left, h.location.symm⟩

/-- A file is stored at its location. -/
theorem exists_location (h : fs.isFile p = true) : ∃ k q contents,
    fs.location? p = some k ∧ fs.tree.entries.table.get? k = some (q, .file contents) := by
  have hentry : ∀ {t : FileTree} {q : Path} {contents : ByteArray},
      t.entry? q = some (.file contents) →
        ∃ q', t.entries.table.get? q.components = some (q', .file contents) := by
    intro t q contents h
    obtain ⟨⟨q', e⟩, hq, rfl⟩ := Option.map_eq_some_iff.1 h
    exact ⟨q', hq⟩
  cases fs with
  | memory t =>
    change FileTree.Memory.isFile t p = true at h
    unfold FileTree.Memory.isFile FileTree.contents? at h
    split at h
    next contents heq =>
      obtain ⟨q', hq'⟩ := hentry heq
      exact ⟨_, q', contents, rfl, hq'⟩
    next => simp at h
  | disk t =>
    change FileTree.Disk.isFile t p = true at h
    unfold FileTree.Disk.isFile FileTree.Disk.find? at h
    split at h
    next contents heq =>
      split at heq
      next q hq =>
        obtain ⟨q', hq'⟩ := hentry heq
        exact ⟨_, q', contents, by rw [location?, hq]; rfl, hq'⟩
      next => simp at heq
    next => simp at h
  | refusing reason => simp [isFile] at h

/-- A file at a place has that place for its location. -/
theorem location?_of_isPlace (hp : p.IsPlace) (h : fs.isFile p = true) :
    fs.location? p = some p.components := by
  cases fs with
  | memory t =>
    change some (t.place p).components = _
    rw [FileTree.place_of_isPlace hp]
  | disk t =>
    change FileTree.Disk.isFile t p = true at h
    change (FileTree.Disk.locate t p).toOption.map Path.components = _
    unfold FileTree.Disk.isFile FileTree.Disk.find? at h
    rcases hx : FileTree.Disk.locate t p with problem | x
    · simp [hx] at h
    · rw [FileTree.Disk.locate_of_isPlace hp hx]
      rfl
  | refusing reason => simp [isFile] at h

/-- What is read depends on the location. -/
theorem SameFile.readText_eq (h : fs.SameFile p q) : fs.readText p = fs.readText q := by
  obtain ⟨hp, hq, hlocation⟩ := h
  cases fs with
  | memory t =>
    have hplace : (t.place p).components = (t.place q).components := Option.some.inj hlocation
    change FileTree.Memory.readText t p = FileTree.Memory.readText t q
    simp only [FileTree.Memory.readText, FileTree.Memory.read, FileTree.entry?,
      PathMap.get?_congr hplace]
  | disk t =>
    change FileTree.Disk.readText t p = FileTree.Disk.readText t q
    change (FileTree.Disk.locate t p).toOption.map Path.components =
      (FileTree.Disk.locate t q).toOption.map Path.components at hlocation
    change FileTree.Disk.isFile t p = true at hp
    change FileTree.Disk.isFile t q = true at hq
    unfold FileTree.Disk.isFile FileTree.Disk.find? at hp hq
    unfold FileTree.Disk.readText FileTree.Disk.read
    rcases hx : FileTree.Disk.locate t p with problem | x
    · simp [hx] at hp
    · rcases hy : FileTree.Disk.locate t q with problem | y
      · simp [hy] at hq
      · rw [hx, hy] at hlocation
        have hsame : x.components = y.components := Option.some.inj hlocation
        simp only [FileTree.entry?, PathMap.get?_congr hsame]
  | refusing reason => rfl

/-- Different places are different files. -/
theorem SameFile.eq_of_isPlace (h : fs.SameFile p q) (hp : p.IsPlace) (hq : q.IsPlace) : p = q := by
  have hlocation := h.location
  rw [location?_of_isPlace hp h.left, location?_of_isPlace hq h.right] at hlocation
  exact hp.eq_of_components hq (Option.some.inj hlocation)

/-- Files that are denoted the same are the same. -/
theorem sameFile_of_same (h : p.Same q) (hp : fs.isFile p = true) (hq : fs.isFile q = true) :
    fs.SameFile p q := by
  refine ⟨hp, hq, ?_⟩
  cases fs with
  | memory t => exact congrArg some (congrArg Path.components (h.join t.workingDirectory).normalize_eq)
  | disk t =>
    change (FileTree.Disk.locate t p).toOption.map Path.components =
      (FileTree.Disk.locate t q).toOption.map Path.components
    change FileTree.Disk.isFile t p = true at hp
    change FileTree.Disk.isFile t q = true at hq
    unfold FileTree.Disk.isFile FileTree.Disk.find? at hp hq
    rcases hx : FileTree.Disk.locate t p with problem | x
    · simp [hx] at hp
    · rcases hy : FileTree.Disk.locate t q with problem | y
      · simp [hy] at hq
      · rw [FileTree.Disk.locate_eq_of_same h hx hy]
  | refusing reason => rfl

/-- The plainest way to write the path of a file is a path of a file. -/
theorem isFile_of_isPlain (hp : p.IsPlain) (h : p.Same q) (hq : fs.isFile q = true) :
    fs.isFile p = true := by
  cases fs with
  | memory t =>
    have hplace : t.place p = t.place q := (h.join t.workingDirectory).normalize_eq
    change FileTree.Memory.isFile t p = true
    rw [FileTree.Memory.isFile, hplace]
    exact hq
  | disk t =>
    change FileTree.Disk.isFile t q = true at hq
    change FileTree.Disk.isFile t p = true
    unfold FileTree.Disk.isFile FileTree.Disk.find? at hq ⊢
    rcases hx : FileTree.Disk.locate t q with problem | x
    · simp [hx] at hq
    · rw [hx] at hq
      have hlocate := FileTree.Disk.locate_ofComponents hx
      rw [← h, ← hp] at hlocate
      rwa [hlocate]
  | refusing reason => exact hq

/-- A chain of different files never reaches the chain limit, however they are written. -/
theorem length_lt_chainLimit_of_pairwise {ps : List Path} (hfile : ∀ p ∈ ps, fs.isFile p = true)
    (hdifferent : ps.Pairwise fun p q ↦ ¬ fs.SameFile p q) : ps.length < fs.chainLimit := by
  let key := fun p ↦ (fs.location? p).getD []
  have hkey : ∀ p ∈ ps, fs.location? p = some (key p) := fun p hp ↦ by
    obtain ⟨k, -, -, hk, -⟩ := exists_location (hfile p hp)
    simp only [key, hk, Option.getD_some]
  have hnodup : (ps.map key).Nodup := by
    rw [List.Nodup, List.pairwise_map]
    refine hdifferent.imp_of_mem fun hp hq hne heq ↦ hne ⟨hfile _ hp, hfile _ hq, ?_⟩
    rw [hkey _ hp, hkey _ hq, heq]
  have hlt : (ps.map key).length < fs.chainLimit :=
      length_lt_chainLimit_of_stored (fun k hk ↦ by
    obtain ⟨p, hp, rfl⟩ := List.mem_map.1 hk
    obtain ⟨k, q, contents, hlocation, hstored⟩ := exists_location (hfile p hp)
    obtain rfl := Option.some.inj ((hkey p hp).symm.trans hlocation)
    exact ⟨q, contents, hstored⟩) hnodup
  rwa [List.length_map] at hlt

end FileSystem

end StyleModules
