import StyleModules.Proofs.FileSystem

/-!
# Spellings

Paths that are written differently can denote the same.  What is made from a path by going to its
directory or by normalizing it depends on what the path denotes, not on how it is written, and
normalizing comes to an end after one step.  Readable paths that denote the same lead to the same
place.
-/

namespace StyleModules

namespace Path

variable {p q : Path}

theorem Same.symm {p q : Path} (h : p.Same q) : q.Same p := Eq.symm h

/-! ## Components -/

/-- A component that can stand behind another one. -/
def Component.IsStep (c : Component) : Prop := c = .parent ∨ c.IsNamed

theorem Component.IsStep.no_slash {c : Component} (h : c.IsStep) : '/' ∉ c.text.toList := by
  rcases h with rfl | h
  · decide
  · exact h.no_slash

theorem Component.IsStep.component?_eq {c : Component} (h : c.IsStep) :
    component? c.text.toList = some c := by
  rcases h with rfl | ⟨n, rfl, hn⟩
  · rfl
  · exact component?_of_isName hn

theorem filterMap_component?_steps {cs : List Component} (h : ∀ c ∈ cs, c.IsStep) :
    (cs.map (fun c ↦ c.text.toList)).filterMap component? = cs := by
  induction cs with
  | nil => rfl
  | cons c cs ih =>
    obtain ⟨hc, hrest⟩ := List.forall_mem_cons.1 h
    rw [List.map_cons, List.filterMap_cons_some hc.component?_eq, ih hrest]

theorem isStep_of_mem_segments {cs : List Char} {c : Component}
    (h : c ∈ (segments cs).filterMap component?) : c.IsStep := by
  obtain ⟨s, hs, hc⟩ := List.mem_filterMap.1 h
  exact component?_eq_some (not_mem_of_mem_segments hs) hc

/-- The shapes that the components of a path can have. -/
inductive AreComponents : List Component → Prop
  | absolute {steps : List Component} (h : ∀ c ∈ steps, c.IsStep) :
      AreComponents (.root :: steps)
  | current {steps : List Component} (h : ∀ c ∈ steps, c.IsStep) :
      AreComponents (.current :: steps)
  | relative {steps : List Component} (h : ∀ c ∈ steps, c.IsStep) : AreComponents steps

theorem areComponents_components (p : Path) : AreComponents p.components := by
  unfold components componentsOfText
  split
  next rest _ => exact .absolute fun c hc ↦ isStep_of_mem_segments hc
  next =>
    split
    next rest hrest =>
      refine .current fun c hc ↦ @isStep_of_mem_segments p.text.toList c ?_
      rwa [hrest, List.filterMap_cons_none (by rfl)]
    next => exact .relative fun c hc ↦ isStep_of_mem_segments hc

/-- The components of a text that does not start with a slash. -/
theorem componentsOfText_relative {text : List Char} (h : text.head? ≠ some '/') :
    componentsOfText text =
      match segments text with
      | ['.'] :: rest => .current :: rest.filterMap component?
      | all => all.filterMap component? := by
  unfold componentsOfText
  split
  next => simp at h
  next => rfl

theorem head?_joinNames {c : Component} {cs : List Component} (h : '/' ∉ c.text.toList)
    (hne : c.text.toList ≠ []) : (joinNames (c :: cs)).toList.head? ≠ some '/' := by
  obtain ⟨x, xs, hx⟩ := List.exists_cons_of_ne_nil hne
  have hhead : (joinNames (c :: cs)).toList.head? = some x := by
    cases cs with
    | nil => simp [joinNames, hx]
    | cons d ds =>
      rw [joinNames]
      · simp [String.toList_append, hx]
      · simp
  rw [hhead]
  rintro heq
  obtain rfl := Option.some.inj heq
  exact h (by simp [hx])

/-- A path that is written from components has these components. -/
theorem AreComponents.components_ofComponents {cs : List Component} (h : AreComponents cs) :
    (ofComponents cs).components = cs := by
  cases h with
  | @absolute steps h =>
    rw [components, toList_ofComponents_root, componentsOfText]
    cases steps with
    | nil => rfl
    | cons c steps =>
      rw [segments_joinNames (fun c hc ↦ (h c hc).no_slash) (by simp),
        filterMap_component?_steps h]
  | @current steps h =>
    have hall : ∀ c ∈ Component.current :: steps, '/' ∉ c.text.toList :=
      List.forall_mem_cons.2 ⟨by decide, fun c hc ↦ (h c hc).no_slash⟩
    rw [components, ofComponents, componentsOfText_relative
      (head?_joinNames (by decide) (by decide)), segments_joinNames hall (by simp), List.map_cons]
    · exact congrArg _ (filterMap_component?_steps h)
    · simp
  | relative h =>
    cases cs with
    | nil => rfl
    | cons c steps =>
      have hall : ∀ d ∈ c :: steps, '/' ∉ d.text.toList := fun d hd ↦ (h d hd).no_slash
      have hc : c.text.toList ≠ [] ∧ c.text.toList ≠ ['.'] ∧ c ≠ .root := by
        rcases h c List.mem_cons_self with rfl | ⟨n, rfl, hn⟩
        · decide
        · exact ⟨hn.ne_empty, hn.ne_current, by simp⟩
      have hof : ofComponents (c :: steps) = ⟨joinNames (c :: steps)⟩ := by
        unfold ofComponents
        split
        next heq => exact absurd (List.cons.inj heq).1 hc.2.2
        next => rfl
      rw [hof, components, componentsOfText_relative
        (head?_joinNames (hall c List.mem_cons_self) hc.1), segments_joinNames hall (by simp)]
      split
      next heq => exact absurd (List.cons.inj heq).1 hc.2.1
      next => exact filterMap_component?_steps h

theorem isAbsolute_eq (p : Path) : p.isAbsolute = (p.components.head? == some .root) := by
  unfold isAbsolute components
  cases htext : p.text.toList with
  | nil => rfl
  | cons c cs =>
    by_cases hc : c = '/'
    · subst hc
      rfl
    · have hhead : (c :: cs).head? ≠ some '/' := by simpa using hc
      have hsegments : ∀ d ∈ (segments (c :: cs)).filterMap component?, d ≠ .root := by
        rintro d hd rfl
        rcases isStep_of_mem_segments hd with h | ⟨n, h, -⟩ <;> simp at h
      rw [componentsOfText_relative hhead]
      have hleft : ((c :: cs).head? == some '/') = false := by simpa using hc
      rw [hleft, eq_comm, beq_eq_false_iff_ne]
      split
      next => simp
      next => exact fun heq ↦ hsegments _ (List.mem_of_head? heq) rfl

theorem Same.isAbsolute_eq (h : p.Same q) : p.isAbsolute = q.isAbsolute := by
  rw [Path.isAbsolute_eq, Path.isAbsolute_eq, h]

theorem Same.parent?_eq (h : p.Same q) : p.parent? = q.parent? := by
  rw [parent?, parent?, h]

theorem Same.normalize_eq (h : p.Same q) : p.normalize = q.normalize := by
  rw [normalize, normalize, h]

theorem Same.isAmong_eq (h : p.Same q) (ps : List Path) : p.isAmong ps = q.isAmong ps := by
  rw [isAmong, isAmong, h]

/-- Files that denote the same are named the same as seen from the root. -/
theorem Same.resourceKey_projectPath_eq (h : p.Same q) (root : Path) :
    (projectPath root p).resourceKey = (projectPath root q).resourceKey := by
  have hsame : (projectPath root p).Same (projectPath root q) := by
    unfold projectPath relativeTo?
    rw [h.isAbsolute_eq, h.normalize_eq]
    split
    next =>
      split
      next => exact h
      next =>
        rw [h]
        cases climb [] q.components root.components with
        | none => exact h
        | some cs => rfl
    next => rfl
  rw [resourceKey, resourceKey, hsame.normalize_eq]

/-! ## Normal forms -/

/-- Folding leaves only steps upwards in front of the names of a relative path.  Behind the names of
an absolute path each of these steps takes one of them away, as long as there are any. -/
theorem foldl_push_steps {steps names : List Component} (h : ∀ c ∈ steps, c.IsStep)
    (hnames : ∀ c ∈ names, c.IsNamed) (n : Nat) : ∃ names' n', (∀ c ∈ names', c.IsNamed) ∧
      steps.foldl push (names ++ List.replicate n .parent) =
        names' ++ List.replicate n' .parent ∧
      ∀ stack : List Component, (∀ c ∈ stack, c.IsNamed) →
        steps.foldl push (names ++ (stack.drop n ++ [.root])) =
          names' ++ (stack.drop n' ++ [.root]) := by
  induction steps generalizing names n with
  | nil => exact ⟨names, n, hnames, rfl, fun _ _ ↦ rfl⟩
  | cons c steps ih =>
    obtain ⟨hc, hrest⟩ := List.forall_mem_cons.1 h
    rcases hc with rfl | ⟨m, rfl, hm⟩
    · cases names with
      | nil =>
        have hpush : push (List.replicate n .parent) .parent = List.replicate (n + 1) .parent := by
          cases n <;> rfl
        have hdrop : ∀ stack : List Component, (∀ c ∈ stack, c.IsNamed) →
            push (stack.drop n ++ [.root]) .parent = stack.drop (n + 1) ++ [.root] := by
          intro stack hstack
          rw [← List.drop_drop]
          cases hleft : stack.drop n with
          | nil => rfl
          | cons d left =>
            obtain ⟨m, rfl, -⟩ := hstack d (List.mem_of_mem_drop (hleft ▸ List.mem_cons_self))
            rfl
        obtain ⟨names', n', hnames', hfold, habove⟩ := ih hrest hnames (n + 1)
        refine ⟨names', n', hnames', ?_, fun stack hstack ↦ ?_⟩
        · rw [List.foldl_cons, List.nil_append, hpush]
          exact hfold
        · rw [List.foldl_cons, List.nil_append, hdrop stack hstack]
          exact habove stack hstack
      | cons d names =>
        obtain ⟨⟨m, rfl, -⟩, htail⟩ := List.forall_mem_cons.1 hnames
        exact ih hrest htail n
    · simp only [List.foldl_cons, push_name, ← List.cons_append]
      exact ih hrest (List.forall_mem_cons.2 ⟨⟨m, rfl, hm⟩, hnames⟩) n

theorem foldl_push_parents (n m : Nat) : (List.replicate n Component.parent).foldl push
    (List.replicate m .parent) = List.replicate (n + m) .parent := by
  induction n generalizing m with
  | zero => simp
  | succ n ih =>
    have hpush : push (List.replicate m .parent) .parent = List.replicate (m + 1) .parent := by
      cases m <;> rfl
    rw [List.replicate_succ, List.foldl_cons, hpush, ih, Nat.add_right_comm, Nat.add_assoc]

/-- The shapes that folded components can have. -/
inductive AreFolded : List Component → Prop
  | absolute {names : List Component} (h : ∀ c ∈ names, c.IsNamed) : AreFolded (.root :: names)
  | relative (n : Nat) {names : List Component} (h : ∀ c ∈ names, c.IsNamed) :
      AreFolded (List.replicate n .parent ++ names)

theorem AreFolded.areComponents {cs : List Component} (h : AreFolded cs) : AreComponents cs := by
  cases h with
  | absolute h => exact .absolute fun c hc ↦ .inr (h c hc)
  | relative n h =>
    refine .relative fun c hc ↦ ?_
    rcases List.mem_append.1 hc with hc | hc
    · exact .inl (List.eq_of_mem_replicate hc)
    · exact .inr (h c hc)

theorem AreFolded.fold_eq {cs : List Component} (h : AreFolded cs) : fold cs = cs := by
  cases h with
  | absolute h => exact fold_named h
  | relative n h =>
    have hparents := foldl_push_parents n 0
    rw [List.replicate_zero, Nat.add_zero] at hparents
    rw [fold, List.foldl_append, hparents, foldl_push_named h]
    simp

theorem AreComponents.areFolded_fold {cs : List Component} (h : AreComponents cs) :
    AreFolded (fold cs) := by
  have hrelative : ∀ steps : List Component, (∀ c ∈ steps, c.IsStep) →
      AreFolded (steps.foldl push []).reverse := by
    intro steps h
    obtain ⟨names, n, hnames, heq, -⟩ := foldl_push_steps h (List.forall_mem_nil _) 0
    rw [List.replicate_zero, List.append_nil] at heq
    rw [heq, List.reverse_append, List.reverse_replicate]
    exact .relative n fun c hc ↦ hnames c (List.mem_reverse.1 hc)
  cases h with
  | absolute h =>
    obtain ⟨names, hnames, heq⟩ := foldl_push_root h (List.forall_mem_nil _)
    rw [fold, List.foldl_cons]
    change AreFolded (List.foldl push ([] ++ [.root]) _).reverse
    rw [heq, List.reverse_append]
    exact .absolute fun c hc ↦ hnames c (List.mem_reverse.1 hc)
  | @current steps h => exact hrelative steps h
  | relative h => exact hrelative cs h

theorem AreFolded.fold_components {cs : List Component} (h : AreFolded cs) :
    fold (ofFolded cs).components = cs := by
  cases cs with
  | nil => rfl
  | cons c cs =>
    rw [ofFolded, h.areComponents.components_ofComponents, h.fold_eq]
    simp

/-- A normal form is not changed by normalizing it again. -/
theorem normalize_normalize (p : Path) : p.normalize.normalize = p.normalize := by
  rw [normalize, normalize, (areComponents_components p).areFolded_fold.fold_components]

/-- The name of a file in output maps is the name it is listed under. -/
theorem resourceKey_mk_resourceKey (p : Path) :
    (Path.mk p.resourceKey).resourceKey = p.resourceKey :=
  congrArg Path.text (normalize_normalize p)

/-- The plainest spelling of what a path denotes. -/
def IsPlain (p : Path) : Prop := p = ofComponents p.components

theorem isPlain_normalize (p : Path) : p.normalize.IsPlain := by
  have hfolded := (areComponents_components p).areFolded_fold
  unfold normalize
  cases hfold : fold p.components with
  | nil => rfl
  | cons c cs =>
    rw [hfold] at hfolded
    rw [ofFolded, IsPlain, hfolded.areComponents.components_ofComponents]
    simp

end Path

end StyleModules
