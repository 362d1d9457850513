import Mathlib.Data.List.Forall2
import StyleModules.Proofs.Dependencies
import StyleModules.Proofs.Spelling

/-!
# Edges between paths that denote the same

The graph and the maps go by what paths denote.  For paths of any kind this says which edges there
are after each operation, and that sorted lists and maps do not show how their paths are written.
-/

open Std

namespace StyleModules

namespace Path

variable {p q : Path} {ps qs : List Path}

theorem isAmong_congr (h : List.Forall₂ Path.Same ps qs) : p.isAmong ps = p.isAmong qs := by
  unfold isAmong
  induction h with
  | nil => rfl
  | cons h _ ih =>
    have hsame : _ = _ := h
    simp only [List.any_cons, hsame, ih]

theorem isAmong_iff_mem_map : p.isAmong ps = true ↔ p.components ∈ ps.map components := by
  rw [isAmong_iff, List.mem_map]

theorem isAmong_cons : p.isAmong (q :: qs) = true ↔ p.Same q ∨ p.isAmong qs = true := by
  rw [isAmong_iff, isAmong_iff, List.exists_mem_cons_iff]
  exact or_congr_left eq_comm

theorem not_isAmong_cons : p.isAmong (q :: qs) = false ↔ p.isAmong qs = false ∧ ¬ q.Same p := by
  rw [← Bool.not_eq_true, isAmong_cons, not_or, and_comm, Bool.not_eq_true]
  exact and_congr_right fun _ ↦ not_congr eq_comm

theorem isAmong_singleton : p.isAmong [q] = true ↔ p.Same q := by
  rw [isAmong_cons, isAmong_nil, or_iff_left Bool.false_ne_true]

theorem isAmong_append_singleton :
    q.isAmong (ps ++ [p]) = true ↔ q.isAmong ps = true ∨ q.Same p := by
  rw [isAmong_append, Bool.or_eq_true, isAmong_singleton]

theorem isAmong_append_left (h : p.isAmong ps = true) (qs : List Path) :
    p.isAmong (ps ++ qs) = true := by
  rw [isAmong_append, h, Bool.true_or]

theorem not_isAmong_of_append (h : p.isAmong (ps ++ qs) = false) : p.isAmong ps = false := by
  rw [isAmong_append, Bool.or_eq_false_iff] at h
  exact h.1

theorem isAmong_addTo : q.isAmong (p.addTo ps) = true ↔ q.isAmong ps = true ∨ q.Same p := by
  unfold addTo
  split
  next h =>
    refine ⟨.inl, fun hq ↦ hq.elim id fun hsame ↦ ?_⟩
    rwa [hsame.isAmong_eq]
  next =>
    rw [isAmong_append, Bool.or_eq_true]
    exact or_congr_right isAmong_singleton

/-- No two paths of a list denote the same. -/
def AreDistinct (ps : List Path) : Prop := (ps.map components).Nodup

theorem AreDistinct.addTo (h : AreDistinct ps) (p : Path) : AreDistinct (p.addTo ps) := by
  unfold Path.addTo
  split
  next => exact h
  next hp =>
    rw [isAmong_iff_mem_map] at hp
    rw [AreDistinct, List.map_append, List.map_singleton, List.nodup_append]
    refine ⟨h, List.nodup_singleton _, fun a ha b hb ↦ ?_⟩
    obtain rfl := List.mem_singleton.1 hb
    exact fun heq ↦ hp (heq ▸ ha)

theorem AreDistinct.append_singleton (h : AreDistinct ps) (hp : ¬ p.isAmong ps = true) :
    AreDistinct (ps ++ [p]) := by
  have hadd : AreDistinct (p.addTo ps) := AreDistinct.addTo h p
  rwa [Path.addTo, if_neg hp] at hadd

/-- One path stands in front of another one in a list. -/
def Precedes (p q : Path) (ps : List Path) : Prop :=
  [p.components, q.components].Sublist (ps.map components)

theorem Precedes.append (h : p.Precedes q ps) (qs : List Path) : p.Precedes q (ps ++ qs) := by
  rw [Precedes, List.map_append]
  exact List.Sublist.trans h (List.sublist_append_left _ _)

theorem Precedes.prepend (h : p.Precedes q qs) (ps : List Path) : p.Precedes q (ps ++ qs) := by
  rw [Precedes, List.map_append]
  exact List.Sublist.trans h (List.sublist_append_right _ _)

theorem precedes_append (hp : p.isAmong ps = true) (hq : q.isAmong qs = true) :
    p.Precedes q (ps ++ qs) := by
  rw [Precedes, List.map_append]
  exact List.Sublist.append (List.singleton_sublist.2 (isAmong_iff_mem_map.1 hp))
    (List.singleton_sublist.2 (isAmong_iff_mem_map.1 hq))

theorem forall₂_of_map_eq {α β γ : Type} {f : α → γ} {g : β → γ} {P : α → Prop} {Q : β → Prop}
    {as : List α} {bs : List β} (h : as.map f = bs.map g) (ha : ∀ a ∈ as, P a)
    (hb : ∀ b ∈ bs, Q b) : List.Forall₂ (fun a b ↦ f a = g b ∧ P a ∧ Q b) as bs := by
  induction as generalizing bs with
  | nil =>
    obtain rfl : bs = [] := by simpa using h.symm
    exact .nil
  | cons a as ih =>
    cases bs with
    | nil => simp at h
    | cons b bs =>
      rw [List.map_cons, List.map_cons] at h
      obtain ⟨hhead, htail⟩ := List.cons.inj h
      obtain ⟨ha, has⟩ := List.forall_mem_cons.1 ha
      obtain ⟨hb, hbs⟩ := List.forall_mem_cons.1 hb
      exact .cons ⟨hhead, ha, hb⟩ (ih htail has hbs)

/-- How a list was collected does not show once it is sorted. -/
theorem sort_same (hp : AreDistinct ps) (hq : AreDistinct qs)
    (h : ∀ p : Path, p.isAmong ps = true ↔ p.isAmong qs = true) :
    List.Forall₂ Path.Same (sort ps) (sort qs) := by
  have hmem : ∀ cs, cs ∈ ps.map components ↔ cs ∈ qs.map components := by
    have hhalf : ∀ {us vs : List Path}, (∀ p : Path, p.isAmong us = true → p.isAmong vs = true) →
        ∀ cs ∈ us.map components, cs ∈ vs.map components := by
      rintro us vs huv cs hcs
      obtain ⟨p, hp, rfl⟩ := List.mem_map.1 hcs
      exact isAmong_iff_mem_map.1 (huv p (isAmong_of_mem hp))
    exact fun cs ↦ ⟨hhalf (fun p ↦ (h p).1) cs, hhalf (fun p ↦ (h p).2) cs⟩
  have hsorted : ∀ us : List Path, ((sort us).map components).Pairwise
      fun a b ↦ (compare a b).isLE := fun us ↦ List.pairwise_map.2 (pairwise_sort us)
  have hperm : ((sort ps).map components).Perm ((sort qs).map components) :=
    ((List.mergeSort_perm ps _).map _).trans
      (((List.perm_ext_iff_of_nodup hp hq).2 hmem).trans ((List.mergeSort_perm qs _).map _).symm)
  have heq := List.Perm.eq_of_pairwise (fun a b _ _ hab hba ↦
    LawfulEqOrd.eq_of_compare (OrientedCmp.isLE_antisymm hab hba)) (hsorted ps) (hsorted qs) hperm
  exact (forall₂_of_map_eq (P := fun _ ↦ True) (Q := fun _ ↦ True) heq (fun _ _ ↦ trivial)
    fun _ _ ↦ trivial).imp fun _ _ h ↦ h.1

end Path

/-! ## Maps -/

namespace PathMap

variable {α : Type} {m m' : PathMap α}

theorem IsOrdered.components_key (h : m.IsOrdered) (p : Path) :
    (m.key p).components = p.components := by
  unfold key
  cases hget : m.table.get? p.components with
  | none => rfl
  | some e => exact h.keyed _ (h.sorted.get?_eq_some_iff.1 hget)

/-- Maps that know the same paths list them in the same order. -/
theorem IsOrdered.toList_same (h : m.IsOrdered) (h' : m'.IsOrdered)
    (hsame : ∀ p, (m.get? p).isSome = (m'.get? p).isSome) :
    List.Forall₂ (fun e e' ↦ e.1.Same e'.1 ∧ m.get? e.1 = some e.2 ∧ m'.get? e'.1 = some e'.2)
      m.toList m'.toList := by
  have hkeys : ∀ {u : PathMap α}, u.IsOrdered →
      u.toList.map (fun e ↦ e.1.components) = u.table.entries.map Prod.fst := by
    intro u hu
    rw [toList, Table.values, List.map_map]
    exact List.map_congr_left fun e he ↦ hu.keyed e he
  have hmem : ∀ {u : PathMap α} {cs}, u.IsOrdered → (cs ∈ u.toList.map (fun e ↦ e.1.components) ↔
      ∃ p : Path, p.components = cs ∧ (u.get? p).isSome = true) := by
    intro u cs hu
    rw [List.mem_map]
    constructor
    · rintro ⟨e, he, rfl⟩
      exact ⟨e.1, rfl, by rw [hu.get?_of_mem he]; rfl⟩
    · rintro ⟨p, rfl, hp⟩
      obtain ⟨a, ha⟩ := Option.isSome_iff_exists.1 hp
      obtain ⟨q, hq, hqp⟩ := hu.mem_of_get? ha
      exact ⟨_, hq, hqp⟩
  have hsorted : ∀ {u : PathMap α}, u.IsOrdered →
      (u.toList.map fun e ↦ e.1.components).Pairwise fun a b ↦ compare a b = .lt := by
    intro u hu
    rw [hkeys hu, List.pairwise_map]
    exact hu.sorted
  have hnodup : ∀ {u : PathMap α}, u.IsOrdered → (u.toList.map fun e ↦ e.1.components).Nodup :=
    fun hu ↦ (hsorted hu).imp fun hlt heq ↦ by simp [heq, ReflCmp.compare_self] at hlt
  have hperm := (List.perm_ext_iff_of_nodup (hnodup h) (hnodup h')).2 fun cs ↦ by
    rw [hmem h, hmem h']
    simp only [hsame]
  have heq := List.Perm.eq_of_pairwise (fun a b _ _ hab hba ↦ by
    have hswap : compare a b = (compare b a).swap := OrientedCmp.eq_swap
    simp [hswap, hba] at hab) (hsorted h) (hsorted h') hperm
  exact Path.forall₂_of_map_eq heq (fun e he ↦ h.get?_of_mem he) fun e he ↦ h'.get?_of_mem he

theorem get?_erase (m : PathMap α) (p q : Path) :
    (m.erase p).get? q = if q.isAmong [p] then none else m.get? q := by
  split
  next hq => rw [get?_congr (Path.isAmong_singleton.1 hq), get?_erase_self]
  next hq => exact get?_erase_of_ne (fun heq ↦ hq (Path.isAmong_singleton.2 heq)) m

theorem mem_keys_alter {f : Option α → α} {p x : Path} (h : x ∈ (m.alter p f).keys) :
    x = p ∨ x ∈ m.keys := by
  obtain ⟨e, he, rfl⟩ := List.mem_map.1 h
  exact (fst_mem_toList_alter he).imp_right fun ⟨d, hd, hde⟩ ↦ List.mem_map.2 ⟨d, hd, hde⟩

theorem IsOrdered.mem_keys_iff (h : m.IsOrdered) {x : Path} :
    x ∈ m.keys ↔ ∃ a, m.table.get? x.components = some (x, a) := by
  constructor
  · intro hx
    obtain ⟨e, he, rfl⟩ := List.mem_map.1 hx
    obtain ⟨d, hd, rfl⟩ := List.mem_map.1 he
    rw [h.keyed d hd]
    exact ⟨d.2.2, h.sorted.get?_eq_some_iff.2 hd⟩
  · rintro ⟨a, ha⟩
    have hmem := h.sorted.get?_eq_some_iff.1 ha
    exact List.mem_map.2 ⟨(x, a), List.mem_map.2 ⟨_, hmem, rfl⟩, rfl⟩

/-- Of the paths of a map no two denote the same. -/
theorem IsOrdered.eq_of_same (h : m.IsOrdered) {p q : Path} (hp : p ∈ m.keys) (hq : q ∈ m.keys)
    (hsame : p.Same q) : p = q := by
  obtain ⟨a, ha⟩ := h.mem_keys_iff.1 hp
  obtain ⟨b, hb⟩ := h.mem_keys_iff.1 hq
  rw [hsame, hb] at ha
  exact (Prod.mk.inj (Option.some.inj ha)).1.symm

/-- A path that is in a map stands there under some text. -/
theorem IsOrdered.key_mem_keys (h : m.IsOrdered) {p : Path} (hp : m.contains p = true) :
    m.key p ∈ m.keys := by
  obtain ⟨e, he⟩ : ∃ e, m.table.get? p.components = some e := Option.isSome_iff_exists.1 hp
  have hkey : m.key p = e.1 := by rw [key, he, Option.map_some, Option.getD_some]
  refine h.mem_keys_iff.2 ⟨e.2, ?_⟩
  rw [h.components_key, hkey, he]

/-- The keys of an altered map: a path that is there already keeps its text. -/
theorem IsOrdered.mem_keys_alter_iff (h : m.IsOrdered) {f : Option α → α} {p x : Path} :
    x ∈ (m.alter p f).keys ↔ x ∈ m.keys ∨ (x = p ∧ m.contains p = false) := by
  rw [(h.alter p f).mem_keys_iff, h.mem_keys_iff, PathMap.alter, contains, Table.contains]
  by_cases hx : x.components = p.components
  · rw [hx, h.sorted.get?_alter_self]
    cases m.table.get? p.components with
    | none => simp [eq_comm]
    | some e => simp [eq_comm, Prod.ext_iff]
  · have hne : x ≠ p := fun heq ↦ hx (heq ▸ rfl)
    rw [Table.get?_alter_of_ne _ hx]
    simp [hne]

end PathMap

/-! ## The graph -/

namespace ModuleGraph

variable {g : ModuleGraph} {p q x y : Path}

/-- Sorted, and no edge is there twice. -/
structure IsOrdered (g : ModuleGraph) : Prop where
  targets : g.targets.IsOrdered
  distinct : ∀ p, Path.AreDistinct (g.edges p)

theorem isOrdered_empty : empty.IsOrdered where
  targets := PathMap.isOrdered_empty
  distinct _ := List.nodup_nil

theorem IsTidy.isOrdered (h : g.IsTidy) : g.IsOrdered where
  targets := h.targets.toIsOrdered
  distinct p := (h.nodup p).map_on fun x hx y hy heq ↦
    (h.isPlace p x hx).eq_of_components (h.isPlace p y hy) heq

theorem edges_congr (h : p.Same q) (g : ModuleGraph) : g.edges p = g.edges q := by
  rw [edges, edges, PathMap.get?_congr h]

theorem isOrdered_know (h : g.targets.IsOrdered) (p : Path) : (g.know p).targets.IsOrdered :=
  h.alter p fun known ↦ known.getD []

theorem isOrdered_add (h : g.targets.IsOrdered) (p q : Path) : (g.add p q).targets.IsOrdered :=
  (isOrdered_know (isOrdered_know h p) q).alter p fun edges ↦
    (((g.know p).know q).targets.key q).addTo (edges.getD [])

/-- The edges after one is added. -/
theorem edges_add (h : g.targets.IsOrdered) (p q x : Path) : (g.add p q).edges x =
    if x.Same p then (((g.know p).know q).targets.key q).addTo (g.edges p) else g.edges x := by
  have hp := isOrdered_know h p
  have hedges : ∀ x, ((g.know p).know q).edges x = g.edges x := fun x ↦
    (edges_know hp q x).trans (edges_know h p x)
  change ((((g.know p).know q).targets.alter p _).get? x).getD [] = _
  split
  next hx =>
    rw [PathMap.get?_congr hx, (isOrdered_know hp q).get?_alter_self, Option.getD_some, ← hedges p]
    rfl
  next hx =>
    rw [PathMap.get?_alter_of_ne hx]
    exact hedges x

theorem isAmong_edges_add (h : g.targets.IsOrdered) :
    y.isAmong ((g.add p q).edges x) = true ↔
      y.isAmong (g.edges x) = true ∨ (x.Same p ∧ y.Same q) := by
  have hkey : (((g.know p).know q).targets.key q).components = q.components :=
    (isOrdered_know (isOrdered_know h p) q).components_key q
  rw [edges_add h]
  split
  next hx => rw [Path.isAmong_addTo, Path.Same, hkey, edges_congr hx, and_iff_right hx, Path.Same]
  next hx => simp [hx]

theorem IsOrdered.add (h : g.IsOrdered) (p q : Path) : (g.add p q).IsOrdered := by
  refine ⟨isOrdered_add h.targets p q, fun x ↦ ?_⟩
  rw [edges_add h.targets]
  split
  next => exact (h.distinct p).addTo _
  next => exact h.distinct x

/-- The edges after those to some files were added. -/
theorem IsOrdered.foldl_add (h : g.IsOrdered) (p : Path) (files : List (String × Path)) :
    (files.foldl (fun g e ↦ g.add p e.2) g).IsOrdered ∧
      ∀ x y : Path, y.isAmong ((files.foldl (fun g e ↦ g.add p e.2) g).edges x) = true ↔
        y.isAmong (g.edges x) = true ∨ (x.Same p ∧ ∃ e ∈ files, y.Same e.2) := by
  induction files generalizing g with
  | nil => exact ⟨h, fun x y ↦ by simp⟩
  | cons e files ih =>
    obtain ⟨hordered, hedges⟩ := ih (h.add p e.2)
    refine ⟨hordered, fun x y ↦ (hedges x y).trans ?_⟩
    rw [isAmong_edges_add h.targets, List.exists_mem_cons_iff]
    tauto

/-- No other files are known after edges were added to some. -/
theorem mem_keys_foldl_add {files : List (String × Path)}
    (h : x ∈ (files.foldl (fun g e ↦ g.add p e.2) g).targets.keys) :
    x ∈ g.targets.keys ∨ x = p ∨ ∃ e ∈ files, x = e.2 := by
  induction files generalizing g with
  | nil => exact .inl h
  | cons e files ih =>
    rcases ih h with h | h | ⟨d, hd, rfl⟩
    · rcases PathMap.mem_keys_alter h with h | h
      · exact .inr (.inl h)
      · rcases PathMap.mem_keys_alter h with h | h
        · exact .inr (.inr ⟨e, List.mem_cons_self, h⟩)
        · exact (PathMap.mem_keys_alter h).elim (fun h ↦ .inr (.inl h)) .inl
    · exact .inr (.inl h)
    · exact .inr (.inr ⟨d, List.mem_cons_of_mem e hd, rfl⟩)

theorem mem_keys_clear (h : x ∈ (g.clear p).targets.keys) :
    x ∈ g.targets.keys ∨ (x = p ∧ g.targets.contains p = true) := by
  unfold clear at h
  split at h
  next hp => exact (PathMap.mem_keys_alter h).elim (fun h ↦ .inr ⟨h, hp⟩) .inl
  next => exact .inl h

theorem IsOrdered.edges_clear (h : g.IsOrdered) (p x : Path) :
    (g.clear p).edges x = if x.Same p then [] else g.edges x := by
  split
  next hx => rw [edges_congr hx, edges_clear_self h.targets]
  next hx => exact edges_clear_of_ne hx

theorem IsOrdered.clear (h : g.IsOrdered) (p : Path) : (g.clear p).IsOrdered := by
  refine ⟨?_, fun x ↦ ?_⟩
  · unfold ModuleGraph.clear
    split
    next => exact h.targets.insert p []
    next => exact h.targets
  · rw [h.edges_clear]
    split
    next => exact List.nodup_nil
    next => exact h.distinct x

/-- The dependents of a file are the files that have an edge to it. -/
theorem isAmong_dependents (h : g.targets.IsOrdered) :
    q.isAmong (g.dependents p) = true ↔ p.isAmong (g.edges q) = true := by
  rw [Path.isAmong_iff]
  constructor
  · rintro ⟨r, hr, hsame⟩
    obtain ⟨e, he, rfl⟩ := List.mem_map.1 hr
    obtain ⟨hmem, hp⟩ := List.mem_filter.1 he
    rwa [← edges_congr hsame, edges, h.get?_of_mem hmem, Option.getD_some]
  · intro hp
    cases hget : g.targets.get? q with
    | none =>
      rw [edges, hget] at hp
      exact absurd hp Bool.false_ne_true
    | some es =>
      obtain ⟨r, hr, hsame⟩ := h.mem_of_get? hget
      rw [edges, hget, Option.getD_some] at hp
      exact ⟨r, List.mem_map.2 ⟨(r, es), List.mem_filter.2 ⟨hr, hp⟩, rfl⟩, hsame⟩

/-- Files with the same edges list them in the same order. -/
theorem dependencies_same {g' : ModuleGraph} (h : g.IsOrdered) (h' : g'.IsOrdered)
    (heq : ∀ y : Path, y.isAmong (g.edges p) = true ↔ y.isAmong (g'.edges q) = true) :
    List.Forall₂ Path.Same (g.dependencies p) (g'.dependencies q) := by
  rw [dependencies_eq, dependencies_eq]
  exact Path.sort_same (h.distinct p) (h'.distinct q) heq

end ModuleGraph

namespace ImportLedger

variable {B : Path → Prop} {l : ImportLedger} {p q x : Path}

/-- All files that are known to import another one are of some kind. -/
structure IsWithin (l : ImportLedger) (B : Path → Prop) : Prop where
  importers : l.importers.IsOrdered
  parents : ∀ p, ∀ q ∈ l.parents p, B q

theorem isWithin_empty (B : Path → Prop) : empty.IsWithin B where
  importers := PathMap.isOrdered_empty
  parents p q h := by simp [ImportLedger.parents, empty] at h

theorem IsWithin.record (h : l.IsWithin B) (p : Path) (hq : B q) : (l.record p q).1.IsWithin B := by
  refine ⟨h.importers.alter p fun known ↦ q.addTo (known.getD []), fun x y hy ↦ ?_⟩
  by_cases hx : x.components = p.components
  · rw [parents_congr hx, parents_record_self h.importers] at hy
    rcases Path.mem_addTo hy with rfl | hy
    · exact hq
    · exact h.parents p y hy
  · rw [parents_record_of_ne hx] at hy
    exact h.parents x y hy

theorem IsWithin.forget (h : l.IsWithin B) (p : Path) : (l.forget p).1.IsWithin B :=
  ⟨h.importers.erase p, fun x y hy ↦ h.parents x y (mem_parents_of_forget hy)⟩

end ImportLedger

end StyleModules
