import StyleModules.Proofs.Normalization

/-!
# Relative paths

The way from one place to another climbs to the directory they share and descends from there.
Followed from where it starts it leads to the other place, in whatever form it is written: with a
dot in front, with no text at all if both places are the same, and as a way that is found again when
what it leads to is written relative to the same place.
-/

namespace StyleModules

namespace Path

/-- The root, which two absolute paths have in common, is no step of the way. -/
theorem climb_root (target base : List Component) :
    climb [] (.root :: target) (.root :: base) = climb [] target base := by
  rw [climb, if_pos ⟨rfl, rfl⟩]

theorem climb_parents (n : Nat) (base : List Component) :
    climb (List.replicate n .parent) [] base =
      some (List.replicate (n + base.length) .parent) := by
  induction base generalizing n with
  | nil => simp [climb]
  | cons b base ih =>
    rw [climb, ← List.replicate_succ', ih, List.length_cons, Nat.add_right_comm, Nat.add_assoc]

/-- The way from one place to another climbs to the directory they share and descends from there. -/
theorem climb_named (target : List Component) {base : List Component} (hbase : ∀ c ∈ base, c.IsNamed) :
    ∃ n rest, n ≤ base.length ∧ climb [] target base = some (List.replicate n .parent ++ rest) ∧
      target = base.take (base.length - n) ++ rest := by
  induction base generalizing target with
  | nil => exact ⟨0, target, Nat.le_refl 0, by simp [climb], rfl⟩
  | cons b base ih =>
    obtain ⟨⟨m, rfl, -⟩, hrest⟩ := List.forall_mem_cons.1 hbase
    cases target with
    | nil =>
      refine ⟨base.length + 1, [], Nat.le_refl _, ?_, by simp⟩
      rw [climb, List.append_nil, Nat.add_comm]
      exact climb_parents 1 base
    | cons t target =>
      by_cases ht : t = .normal m
      · obtain ⟨n, rest, hn, hclimb, htarget⟩ := ih target hrest
        refine ⟨n, rest, Nat.le_succ_of_le hn, ?_, ?_⟩
        · rw [climb, if_pos ⟨rfl, ht⟩, hclimb]
        · have hlength : (Component.normal m :: base).length - n = base.length - n + 1 := by
            rw [List.length_cons]
            omega
          rw [hlength, List.take_succ_cons, List.cons_append, ← htarget, ht]
      · refine ⟨base.length + 1, t :: target, Nat.le_refl _, ?_, by simp⟩
        rw [climb, if_neg (by simp [ht]), if_neg (by simp), if_neg (by simp)]
        simp [List.replicate_succ, List.map_const']

theorem count_parent_of_named {cs : List Component} (h : ∀ c ∈ cs, c.IsNamed) :
    cs.count .parent = 0 := by
  refine List.count_eq_zero.2 fun hmem ↦ ?_
  obtain ⟨m, hm, -⟩ := h _ hmem
  simp at hm

/-- The way to a place tells which place it is. -/
theorem eq_of_climb {target target' base : List Component} (hbase : ∀ c ∈ base, c.IsNamed)
    (htarget : ∀ c ∈ target, c.IsNamed) (htarget' : ∀ c ∈ target', c.IsNamed)
    (h : climb [] target base = climb [] target' base) : target = target' := by
  obtain ⟨n, rest, -, hclimb, heq⟩ := climb_named target hbase
  obtain ⟨n', rest', -, hclimb', heq'⟩ := climb_named target' hbase
  have hrest : rest.count .parent = 0 := count_parent_of_named fun c hc ↦ htarget c (by simp [heq, hc])
  have hrest' : rest'.count .parent = 0 := count_parent_of_named fun c hc ↦ htarget' c (by simp [heq', hc])
  have hsame := Option.some.inj ((hclimb.symm.trans h).trans hclimb')
  have hn : n = n' := by
    have hparents := congrArg (List.count .parent) hsame
    simpa [hrest, hrest'] using hparents
  subst hn
  rw [heq, heq', List.append_cancel_left hsame]

variable {d p t : Path}

/-- A relative path adds its steps to the place it is followed from. -/
theorem IsPlace.components_join (hd : d.IsPlace) (hp : p.isAbsolute = false) :
    (d.join p).components = d.components ++ p.steps :=
  components_join_eq (isEmpty_text_of_isAbsolute hd.isAbsolute) hp

theorem isStep_of_mem_steps {c : Component} (hc : c ∈ p.steps) : c.IsStep :=
  isStep_of_mem_segments hc

/-- Only the steps of a relative path count for its normal form. -/
theorem fold_eq_foldl_steps (hp : p.isAbsolute = false) :
    fold p.components = (p.steps.foldl push []).reverse := by
  rw [fold, foldl_push_components hp]

/-- How many directories a relative path climbs. -/
def height (p : Path) : Nat := (fold p.components).count .parent

/-- The names that a relative path descends through once it has climbed. -/
def descent (p : Path) : List Component := (fold p.components).drop p.height

/-- The directory some levels above a directory.  Above the root there is nothing else. -/
def above : Nat → Path → Path
  | 0, d => d
  | n + 1, d => above n (d.parent?.getD d)

/-- A path that leads over some steps upwards to names climbs these steps. -/
theorem height_descent_of_fold {n : Nat} {names : List Component} (hnames : ∀ c ∈ names, c.IsNamed)
    (h : fold p.components = List.replicate n .parent ++ names) :
    p.height = n ∧ p.descent = names := by
  have hheight : p.height = n := by
    rw [height, h, List.count_append, List.count_replicate_self, count_parent_of_named hnames,
      Nat.add_zero]
  refine ⟨hheight, ?_⟩
  rw [descent, hheight, h]
  exact List.drop_left' List.length_replicate

theorem above_ofComponents {base : List Component} (hbase : ∀ c ∈ base, c.IsNamed) (n : Nat) :
    above n (ofComponents (.root :: base)) =
      ofComponents (.root :: base.take (base.length - n)) := by
  induction n generalizing base with
  | zero => rw [above, Nat.sub_zero, List.take_length]
  | succ n ih =>
    rcases List.eq_nil_or_concat base with rfl | ⟨init, c, rfl⟩
    · have hroot := ih hbase
      rw [List.take_nil] at hroot ⊢
      exact hroot
    · rw [List.concat_eq_append] at hbase ⊢
      have hinit : ∀ c ∈ init, c.IsNamed := fun d hd ↦ hbase d (List.mem_append_left _ hd)
      obtain ⟨m, rfl, -⟩ := hbase c List.mem_concat_self
      have hparent : (ofComponents (.root :: (init ++ [.normal m]))).parent? =
          some (ofComponents (.root :: init)) := by
        rw [Path.parent?, components_ofComponents hbase, ← List.cons_append, List.reverse_concat]
        simp
      have hlevel : (init ++ [Component.normal m]).length - (n + 1) = init.length - n := by
        rw [List.length_append, List.length_singleton]
        omega
      rw [above, hparent, Option.getD_some, ih hinit, hlevel,
        List.take_append_of_le_length (Nat.sub_le _ _)]

/-- Following a relative path climbs its height and then descends. -/
theorem IsPlace.normalize_join (hd : d.IsPlace) (hp : p.isAbsolute = false) :
    (∀ c ∈ p.descent, c.IsNamed) ∧ (above p.height d).IsPlace ∧
      (d.join p).normalize = ofComponents ((above p.height d).components ++ p.descent) := by
  have hsteps : ∀ c ∈ p.steps, c.IsStep := fun _ hc ↦ isStep_of_mem_steps hc
  obtain ⟨names, n, hnames, hfold, habove⟩ := foldl_push_steps hsteps (List.forall_mem_nil _) 0
  have hreverse : ∀ c ∈ names.reverse, c.IsNamed := fun c hc ↦ hnames c (List.mem_reverse.1 hc)
  obtain ⟨hheight, hdescent⟩ := height_descent_of_fold hreverse (n := n) (p := p) <| by
    rw [fold_eq_foldl_steps hp]
    simpa using congrArg List.reverse hfold
  obtain ⟨base, hbase, rfl⟩ := hd
  have htaken : ∀ c ∈ base.take (base.length - n), c.IsNamed :=
    fun c hc ↦ hbase c (List.mem_of_mem_take hc)
  rw [hheight, hdescent, above_ofComponents hbase]
  refine ⟨hreverse, isPlace_ofComponents htaken, ?_⟩
  have hclimbed := habove base.reverse fun c hc ↦ hbase c (List.mem_reverse.1 hc)
  have hjoined : fold (.root :: (base ++ p.steps)) =
      .root :: (base.take (base.length - n) ++ names.reverse) := by
    rw [fold, List.foldl_cons, List.foldl_append]
    change (p.steps.foldl push (base.foldl push [.root])).reverse = _
    rw [foldl_push_named hbase]
    simpa [List.drop_reverse] using congrArg List.reverse hclimbed
  rw [normalize, (isPlace_ofComponents hbase).components_join hp, components_ofComponents hbase,
    List.cons_append, hjoined, components_ofComponents htaken, List.cons_append]
  rfl

theorem steps_ofComponents {cs : List Component} (h : ∀ c ∈ cs, c.IsStep) :
    (ofComponents cs).isAbsolute = false ∧ (ofComponents cs).steps = cs := by
  have hcomponents := (AreComponents.relative h).components_ofComponents
  constructor
  · rw [isAbsolute_eq, hcomponents, beq_eq_false_iff_ne]
    intro heq
    rcases h _ (List.mem_of_mem_head? heq) with hroot | ⟨n, hroot, -⟩ <;> simp at hroot
  · rw [steps_eq, hcomponents, filter_eq_self_of_isStep h]

/-- There is a way from a place to another one, and whatever takes the steps of that way leads from
the one to the other. -/
theorem IsPlace.exists_relativeTo? (ht : t.IsPlace) (hd : d.IsPlace) : ∃ x,
    relativeTo? t d = some x ∧ x.isAbsolute = false ∧
      ∀ y : Path, y.isAbsolute = false → y.steps = x.steps → (d.join y).normalize = t := by
  have habsolute : t.isAbsolute = d.isAbsolute := by rw [ht.isAbsolute, hd.isAbsolute]
  obtain ⟨target, htarget, rfl⟩ := ht
  obtain ⟨base, hbase, rfl⟩ := hd
  obtain ⟨n, rest, -, hclimb, heq⟩ := climb_named target hbase
  have hrest : ∀ c ∈ rest, c.IsNamed := fun c hc ↦ htarget c (by simp [heq, hc])
  have hway : ∀ c ∈ List.replicate n Component.parent ++ rest, c.IsStep :=
    List.forall_mem_append.2 ⟨fun c hc ↦ .inl (List.eq_of_mem_replicate hc),
      fun c hc ↦ .inr (hrest c hc)⟩
  obtain ⟨hrelative, hsteps⟩ := steps_ofComponents hway
  refine ⟨_, ?_, hrelative, fun y hy hys ↦ ?_⟩
  · rw [relativeTo?, if_neg (not_not.2 habsolute), components_ofComponents htarget,
      components_ofComponents hbase, climb_root, hclimb, Option.map_some]
  · have hfold : fold y.components = List.replicate n .parent ++ rest := by
      rw [fold_eq_foldl_steps hy, hys, hsteps]
      exact (AreFolded.relative n hrest).fold_eq
    obtain ⟨hheight, hdescent⟩ := height_descent_of_fold hrest hfold
    have htaken : ∀ c ∈ base.take (base.length - n), c.IsNamed :=
      fun c hc ↦ hbase c (List.mem_of_mem_take hc)
    rw [((isPlace_ofComponents hbase).normalize_join hy).2.2, hheight, hdescent,
      above_ofComponents hbase, components_ofComponents htaken, List.cons_append, ← heq]

/-- A dot in front of a path is no step. -/
theorem steps_dot (text : String) : (Path.mk ("./" ++ text)).steps = (Path.mk text).steps := by
  have hsegments : segments ("./" ++ text).toList = ['.'] :: segments text.toList := by
    rw [String.toList_append]
    exact segments_append_slash ['.'] text.toList
  rw [steps, hsegments, List.filterMap_cons_none (by rfl), steps]

end Path

end StyleModules
