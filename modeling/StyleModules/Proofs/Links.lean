import Mathlib.Data.List.Induction
import StyleModules.Proofs.Edges

/-!
# Links between files

A module graph stands for a relation between files: one composes from another one if the other was
added as its target and its edges were not cleared since.  After any changes the graph lists each
side of that relation in strictly ascending order.
-/

open Std

namespace StyleModules

namespace Path

variable {p q : Path} {ps qs : List Path}

/-- Each path stands before all that come behind it. -/
def Ascends (ps : List Path) : Prop :=
  ps.Pairwise fun p q ↦ compare p.components q.components = .lt

instance (ps : List Path) : Decidable (Ascends ps) :=
  inferInstanceAs (Decidable (ps.Pairwise _))

theorem isAmong_sort : p.isAmong (sort ps) = p.isAmong ps := by
  rw [Bool.eq_iff_iff, isAmong_iff, isAmong_iff]
  simp only [mem_sort]

theorem AreDistinct.ascends_sort (h : AreDistinct ps) : Ascends (sort ps) := by
  have hdistinct : (sort ps).Pairwise fun p q ↦ p.components ≠ q.components := by
    have hperm : ((sort ps).map components).Perm (ps.map components) :=
      (List.mergeSort_perm ps _).map _
    exact List.pairwise_map.1 (hperm.nodup_iff.2 h)
  refine ((pairwise_sort ps).and hdistinct).imp ?_
  rintro p q ⟨hle, hne⟩
  rcases Ordering.isLE_iff_eq_lt_or_eq_eq.1 hle with hlt | heq
  · exact hlt
  · exact absurd (LawfulEqOrd.eq_of_compare heq) hne

theorem Ascends.eq_of_mem_iff (h : Ascends ps) (h' : Ascends qs) (hmem : ∀ p, p ∈ ps ↔ p ∈ qs) :
    ps = qs := by
  have hnodup : ∀ {us : List Path}, Ascends us → us.Nodup := fun hus ↦ hus.imp fun hlt heq ↦ by
    simp [heq, ReflCmp.compare_self] at hlt
  refine List.Perm.eq_of_pairwise (fun p q _ _ hpq hqp ↦ ?_) h h'
    ((List.perm_ext_iff_of_nodup (hnodup h) (hnodup h')).2 hmem)
  have hswap : compare q.components p.components = .gt := by
    rw [OrientedOrd.eq_swap, hpq, Ordering.swap_lt]
  simp [hswap] at hqp

end Path

namespace ModuleGraph

variable {g : ModuleGraph} {p q : Path}

/-- What can be done to a graph. -/
inductive Change where
  | add (source target : Path)
  | clear (path : Path)
deriving DecidableEq, Repr

def perform (g : ModuleGraph) : Change → ModuleGraph
  | .add source target => g.add source target
  | .clear path => g.clear path

/-- The graph after some changes, the earliest of them first. -/
def afterAll (changes : List Change) : ModuleGraph := changes.foldl perform .empty

/-- One file was added as a target of another one, whose edges were not cleared since. -/
def IsLinked (changes : List Change) (p q : Path) : Prop :=
  ∃ earlier later source target, changes = earlier ++ .add source target :: later ∧
    source.Same p ∧ target.Same q ∧ ∀ path, .clear path ∈ later → ¬ path.Same p

theorem afterAll_append (changes : List Change) (c : Change) :
    afterAll (changes ++ [c]) = (afterAll changes).perform c := by
  rw [afterAll, List.foldl_append, List.foldl_cons, List.foldl_nil, afterAll]

theorem IsOrdered.perform (h : g.IsOrdered) (c : Change) : (g.perform c).IsOrdered := by
  cases c with
  | add source target => exact h.add source target
  | clear path => exact h.clear path

theorem isOrdered_afterAll (changes : List Change) : (afterAll changes).IsOrdered := by
  induction changes using List.reverseRecOn with
  | nil => exact isOrdered_empty
  | append_singleton changes c ih =>
    rw [afterAll_append]
    exact ih.perform c

theorem not_isLinked_nil (p q : Path) : ¬ IsLinked [] p q := by
  rintro ⟨earlier, later, source, target, h, -⟩
  simp at h

/-- What the last change does to the links. -/
theorem isLinked_append (changes : List Change) (c : Change) : IsLinked (changes ++ [c]) p q ↔
    (∃ source target, c = .add source target ∧ source.Same p ∧ target.Same q) ∨
      (IsLinked changes p q ∧ ∀ path, c = .clear path → ¬ path.Same p) := by
  constructor
  · rintro ⟨earlier, later, source, target, h, hsource, htarget, hkept⟩
    rcases List.eq_nil_or_concat later with rfl | ⟨later, last, rfl⟩
    · obtain ⟨-, hlast⟩ := List.append_inj' h rfl
      exact .inl ⟨source, target, (List.cons.inj hlast).1, hsource, htarget⟩
    · rw [List.concat_eq_append] at h hkept
      have hsplit : changes ++ [c] = (earlier ++ .add source target :: later) ++ [last] := by
        rw [h, List.append_assoc, List.cons_append]
      obtain ⟨rfl, hlast⟩ := List.append_inj' hsplit rfl
      obtain rfl := (List.cons.inj hlast).1
      refine .inr ⟨⟨earlier, later, source, target, rfl, hsource, htarget, fun path hpath ↦ ?_⟩,
        fun path hpath ↦ ?_⟩
      · exact hkept path (List.mem_append_left _ hpath)
      · exact hkept path (List.mem_append_right _ (List.mem_singleton.2 hpath.symm))
  · rintro (⟨source, target, rfl, hsource, htarget⟩ |
      ⟨⟨earlier, later, source, target, rfl, hsource, htarget, hkept⟩, hlast⟩)
    · exact ⟨changes, [], source, target, rfl, hsource, htarget, fun path hpath ↦
        absurd hpath List.not_mem_nil⟩
    · refine ⟨earlier, later ++ [c], source, target, ?_, hsource, htarget, fun path hpath ↦ ?_⟩
      · rw [List.append_assoc, List.cons_append]
      · rcases List.mem_append.1 hpath with hpath | hpath
        · exact hkept path hpath
        · exact hlast path (List.mem_singleton.1 hpath).symm

/-- The edges after a change. -/
theorem IsOrdered.isAmong_edges_perform (h : g.IsOrdered) (c : Change) :
    q.isAmong ((g.perform c).edges p) = true ↔
      (∃ source target, c = .add source target ∧ source.Same p ∧ target.Same q) ∨
        (q.isAmong (g.edges p) = true ∧ ∀ path, c = .clear path → ¬ path.Same p) := by
  cases c with
  | add source target =>
    have hedges : q.isAmong ((g.add source target).edges p) = true ↔
        q.isAmong (g.edges p) = true ∨ (p.Same source ∧ q.Same target) :=
      isAmong_edges_add h.targets
    rw [ModuleGraph.perform, hedges]
    constructor
    · rintro (hold | ⟨hsource, htarget⟩)
      · exact .inr ⟨hold, by simp⟩
      · exact .inl ⟨source, target, rfl, hsource.symm, htarget.symm⟩
    · rintro (⟨source, target, heq, hsource, htarget⟩ | ⟨hold, -⟩)
      · obtain ⟨rfl, rfl⟩ := Change.add.inj heq
        exact .inr ⟨hsource.symm, htarget.symm⟩
      · exact .inl hold
  | clear path =>
    rw [ModuleGraph.perform, h.edges_clear]
    by_cases hp : p.Same path
    · rw [if_pos hp]
      simp [hp.symm]
    · rw [if_neg hp]
      have hne : ¬ path.Same p := fun heq ↦ hp heq.symm
      simp [hne]

theorem isAmong_edges_afterAll (changes : List Change) :
    q.isAmong ((afterAll changes).edges p) = true ↔ IsLinked changes p q := by
  induction changes using List.reverseRecOn with
  | nil =>
    rw [afterAll, List.foldl_nil, edges_empty, Path.isAmong_nil]
    exact iff_of_false Bool.false_ne_true (not_isLinked_nil p q)
  | append_singleton changes c ih =>
    rw [afterAll_append, (isOrdered_afterAll changes).isAmong_edges_perform, ih, isLinked_append]

theorem IsOrdered.know (h : g.IsOrdered) (p : Path) : (g.know p).IsOrdered :=
  ⟨isOrdered_know h.targets p, fun x ↦ edges_know h.targets p x ▸ h.distinct x⟩

theorem IsOrdered.contains_know (h : g.IsOrdered) :
    (g.know p).targets.contains q = true ↔ q.Same p ∨ g.targets.contains q = true := by
  rw [PathMap.contains_eq, PathMap.contains_eq, ModuleGraph.know]
  by_cases hq : q.Same p
  · rw [PathMap.get?_congr hq, h.targets.get?_alter_self]
    simp [hq]
  · rw [PathMap.get?_alter_of_ne hq]
    simp [hq]

theorem IsOrdered.mem_keys_know (h : g.IsOrdered) :
    q ∈ (g.know p).targets.keys ↔ q ∈ g.targets.keys ∨ (q = p ∧ g.targets.contains p = false) :=
  h.targets.mem_keys_alter_iff

/-- An edge is added between files that are known by then. -/
theorem IsOrdered.mem_keys_add (h : g.IsOrdered) {x : Path} :
    x ∈ (g.add p q).targets.keys ↔ x ∈ ((g.know p).know q).targets.keys := by
  have hp : ((g.know p).know q).targets.contains p = true :=
    (h.know p).contains_know.2 (.inr (h.contains_know.2 (.inl rfl)))
  exact ((h.know p).know q).targets.mem_keys_alter_iff.trans (or_iff_left (by simp [hp]))

theorem IsOrdered.mem_keys_clear (h : g.IsOrdered) :
    q ∈ (g.clear p).targets.keys ↔ q ∈ g.targets.keys := by
  unfold ModuleGraph.clear
  split
  next hp => exact h.targets.mem_keys_alter_iff.trans (or_iff_left (by simp [hp]))
  next => rfl

/-- Every target of an edge is known, under the text it has there. -/
def KnowsTargets (g : ModuleGraph) : Prop := ∀ p, ∀ q ∈ g.edges p, q ∈ g.targets.keys

theorem KnowsTargets.add (hg : g.KnowsTargets) (h : g.IsOrdered) (p q : Path) :
    (g.add p q).KnowsTargets := by
  have hold : ∀ x, ∀ y ∈ g.edges x, y ∈ ((g.know p).know q).targets.keys := fun x y hy ↦
    (h.know p).mem_keys_know.2 (.inl (h.mem_keys_know.2 (.inl (hg x y hy))))
  intro x y hy
  rw [edges_add h.targets] at hy
  rw [h.mem_keys_add]
  split at hy
  next =>
    rcases Path.mem_addTo hy with rfl | hy
    · exact ((h.know p).know q).targets.key_mem_keys ((h.know p).contains_know.2 (.inl rfl))
    · exact hold p y hy
  next => exact hold x y hy

theorem KnowsTargets.clear (hg : g.KnowsTargets) (h : g.IsOrdered) (p : Path) :
    (g.clear p).KnowsTargets := by
  intro x y hy
  rw [h.edges_clear] at hy
  split at hy
  next => cases hy
  next => exact h.mem_keys_clear.2 (hg x y hy)

theorem knowsTargets_afterAll (changes : List Change) : (afterAll changes).KnowsTargets := by
  induction changes using List.reverseRecOn with
  | nil => exact fun p q hq ↦ absurd hq List.not_mem_nil
  | append_singleton changes c ih =>
    have hordered : (afterAll changes).IsOrdered := isOrdered_afterAll changes
    rw [afterAll_append]
    cases c with
    | add source target => exact ih.add hordered source target
    | clear path => exact ih.clear hordered path

theorem isAmong_dependencies : q.isAmong (g.dependencies p) = q.isAmong (g.edges p) := by
  rw [dependencies_eq, Path.isAmong_sort]

theorem IsOrdered.ascends_dependencies (h : g.IsOrdered) (p : Path) :
    Path.Ascends (g.dependencies p) :=
  (h.distinct p).ascends_sort

theorem IsOrdered.ascends_dependents (h : g.IsOrdered) (p : Path) :
    Path.Ascends (g.dependents p) := by
  have hkeys : g.targets.toList.Pairwise fun e e' ↦
      compare e.1.components e'.1.components = .lt := by
    refine List.pairwise_map.2 (h.targets.sorted.imp_of_mem ?_)
    intro e e' he he' hlt
    rwa [h.targets.keyed e he, h.targets.keyed e' he']
  exact List.pairwise_map.2 (hkeys.filter _)

theorem IsOrdered.mem_dependents_iff (h : g.IsOrdered) :
    q ∈ g.dependents p ↔ q ∈ g.targets.keys ∧ p.isAmong (g.edges q) = true := by
  have hedges : ∀ e ∈ g.targets.toList, g.edges e.1 = e.2 := fun e he ↦ by
    rw [edges, h.targets.get?_of_mem he, Option.getD_some]
  rw [dependents, PathMap.keys, List.mem_map, List.mem_map]
  constructor
  · rintro ⟨e, he, rfl⟩
    obtain ⟨hmem, hp⟩ := List.mem_filter.1 he
    exact ⟨⟨e, hmem, rfl⟩, (hedges e hmem).symm ▸ hp⟩
  · rintro ⟨⟨e, hmem, rfl⟩, hp⟩
    exact ⟨e, List.mem_filter.2 ⟨hmem, hedges e hmem ▸ hp⟩, rfl⟩

theorem IsOrdered.dependencies_clear_of_ne (h : g.IsOrdered) {path : Path} (hne : ¬ path.Same p) :
    (g.clear p).dependencies path = g.dependencies path := by
  rw [dependencies_eq, dependencies_eq, h.edges_clear, if_neg hne]

end ModuleGraph

end StyleModules
