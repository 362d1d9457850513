import Mathlib.Logic.Relation
import StyleModules.ImportLedger
import StyleModules.ModuleGraph
import StyleModules.Proofs.PathMap

/-!
# Laws of the graph and the ledger

Both remember links between places: the graph what each file composes from, the ledger who imports
it.  Each operation is told by what it does to these links, so nothing later has to look at the
maps behind them.
-/

namespace StyleModules

namespace ModuleGraph

/-- The files that a file composes from, in the order the edges were added. -/
def edges (g : ModuleGraph) (p : Path) : List Path := (g.targets.get? p).getD []

/-- All paths in the graph are places, and no edge is there twice. -/
structure IsTidy (g : ModuleGraph) : Prop where
  targets : g.targets.IsTidy
  isPlace : ∀ p, ∀ q ∈ g.edges p, q.IsPlace
  nodup : ∀ p, (g.edges p).Nodup

theorem isTidy_empty : empty.IsTidy where
  targets := PathMap.isTidy_empty
  isPlace := by simp [edges, empty]
  nodup := by simp [edges, empty]

@[simp]
theorem edges_empty (p : Path) : empty.edges p = [] := rfl

section Tidy

variable {g : ModuleGraph} {p q : Path}

theorem edges_know (h : g.targets.IsOrdered) (p x : Path) : (g.know p).edges x = g.edges x := by
  unfold know edges
  by_cases hx : x.components = p.components
  · rw [PathMap.get?_congr hx, PathMap.get?_congr hx g.targets, h.get?_alter_self,
      Option.getD_some]
  · rw [PathMap.get?_alter_of_ne hx]

theorem IsTidy.know (h : g.IsTidy) (hp : p.IsPlace) : (g.know p).IsTidy where
  targets := h.targets.alter hp fun known ↦ known.getD []
  isPlace x q hq := h.isPlace x q (edges_know h.targets.toIsOrdered p x ▸ hq)
  nodup x := edges_know h.targets.toIsOrdered p x ▸ h.nodup x

theorem edges_know_know (h : g.IsTidy) (hp : p.IsPlace) (q x : Path) :
    ((g.know p).know q).edges x = g.edges x := by
  rw [edges_know (h.know hp).targets.toIsOrdered, edges_know h.targets.toIsOrdered]

theorem edges_add_self (h : g.IsTidy) (hp : p.IsPlace) (hq : q.IsPlace) :
    (g.add p q).edges p = q.addTo (g.edges p) := by
  have htidy : ((g.know p).know q).IsTidy := (h.know hp).know hq
  change ((((g.know p).know q).targets.alter p _).get? p).getD [] = _
  rw [htidy.targets.get?_alter_self, Option.getD_some, htidy.targets.key_eq hq,
    ← edges_know_know h hp q]
  rfl

theorem edges_add_of_ne (h : g.IsTidy) (hp : p.IsPlace) {x : Path} (hx : x.IsPlace)
    (hne : x ≠ p) : (g.add p q).edges x = g.edges x := by
  have hcomponents : x.components ≠ p.components := fun heq ↦ hne (hx.eq_of_components hp heq)
  change ((((g.know p).know q).targets.alter p _).get? x).getD [] = _
  rw [PathMap.get?_alter_of_ne hcomponents]
  exact edges_know_know h hp q x

theorem mem_edges_add (h : g.IsTidy) (hp : p.IsPlace) (hq : q.IsPlace) {x y : Path}
    (hx : x.IsPlace) : y ∈ (g.add p q).edges x ↔ y ∈ g.edges x ∨ (x = p ∧ y = q) := by
  by_cases hne : x = p
  · subst hne
    rw [edges_add_self h hx hq, Path.mem_addTo_iff hq (h.isPlace x)]
    simp [or_comm]
  · rw [edges_add_of_ne h hp hx hne]
    simp [hne]

theorem IsTidy.add (h : g.IsTidy) (hp : p.IsPlace) (hq : q.IsPlace) : (g.add p q).IsTidy := by
  have htidy : ((g.know p).know q).IsTidy := (h.know hp).know hq
  have htargets : (g.add p q).targets.IsTidy := htidy.targets.alter hp fun edges ↦
    (((g.know p).know q).targets.key q).addTo (edges.getD [])
  have hedges : ∀ x, (g.add p q).edges x = q.addTo (g.edges p) ∨
      (g.add p q).edges x = g.edges x := by
    intro x
    by_cases hx : x.components = p.components
    · left
      rw [← edges_add_self h hp hq, edges, edges, PathMap.get?_congr hx]
    · right
      rw [← edges_know_know h hp q]
      change ((((g.know p).know q).targets.alter p _).get? x).getD [] = _
      rw [PathMap.get?_alter_of_ne hx]
      rfl
  refine ⟨htargets, fun x y hy ↦ ?_, fun x ↦ ?_⟩
  · rcases hedges x with heq | heq
    · rw [heq] at hy
      rcases Path.mem_addTo hy with rfl | hy
      · exact hq
      · exact h.isPlace p y hy
    · exact h.isPlace x y (heq ▸ hy)
  · rcases hedges x with heq | heq
    · exact heq ▸ Path.nodup_addTo (h.nodup p)
    · exact heq ▸ h.nodup x

theorem edges_clear_self (h : g.targets.IsOrdered) (p : Path) : (g.clear p).edges p = [] := by
  unfold clear
  split
  next => rw [edges, h.get?_insert_self, Option.getD_some]
  next hc =>
    rw [PathMap.contains_eq, Bool.not_eq_true, Option.isSome_eq_false_iff,
      Option.isNone_iff_eq_none] at hc
    rw [edges, hc, Option.getD_none]

theorem edges_clear_of_ne {x : Path} (hx : x.components ≠ p.components) :
    (g.clear p).edges x = g.edges x := by
  unfold clear
  split
  next => rw [edges, PathMap.get?_insert_of_ne hx, edges]
  next => rfl

theorem IsTidy.clear (h : g.IsTidy) (hp : p.IsPlace) : (g.clear p).IsTidy := by
  have hedges : ∀ x, (g.clear p).edges x = [] ∨ (g.clear p).edges x = g.edges x := by
    intro x
    by_cases hx : x.components = p.components
    · left
      rw [← edges_clear_self h.targets.toIsOrdered p, edges, edges, PathMap.get?_congr hx]
    · exact .inr (edges_clear_of_ne hx)
  refine ⟨?_, fun x y hy ↦ ?_, fun x ↦ ?_⟩
  · unfold ModuleGraph.clear
    split
    next => exact h.targets.insert hp []
    next => exact h.targets
  · rcases hedges x with heq | heq
    · simp [heq] at hy
    · exact h.isPlace x y (heq ▸ hy)
  · rcases hedges x with heq | heq
    · exact heq ▸ List.nodup_nil
    · exact heq ▸ h.nodup x

theorem mem_dependents (h : g.IsTidy) (hp : p.IsPlace) (hq : q.IsPlace) :
    p ∈ g.dependents q ↔ q ∈ g.edges p := by
  simp only [dependents, List.mem_map, List.mem_filter]
  constructor
  · rintro ⟨⟨m, es⟩, ⟨hmem, hamong⟩, rfl⟩
    have hget := h.targets.get?_of_mem hmem
    have hes : g.edges m = es := by rw [edges, hget, Option.getD_some]
    rw [hes]
    exact (Path.isAmong_iff_mem hq fun r hr ↦ h.isPlace m r (hes ▸ hr)).1 hamong
  · intro hmem
    cases hget : g.targets.get? p with
    | none => simp [edges, hget] at hmem
    | some es =>
      have hes : g.edges p = es := by rw [edges, hget, Option.getD_some]
      exact ⟨(p, es), ⟨(h.targets.mem_toList_iff hp).2 hget, Path.isAmong_of_mem (hes ▸ hmem)⟩,
        rfl⟩

theorem isPlace_of_mem_dependents (h : g.IsTidy) (hp : p ∈ g.dependents q) : p.IsPlace := by
  obtain ⟨e, he, rfl⟩ := List.mem_map.1 hp
  exact h.targets.isPlace e.1 (List.mem_map.2 ⟨e, (List.mem_filter.1 he).1, rfl⟩)

theorem dependencies_eq (g : ModuleGraph) (p : Path) :
    g.dependencies p = Path.sort (g.edges p) := rfl

/-- The edges of a file decide the order in which they are listed. -/
theorem dependencies_congr {g' : ModuleGraph} (h : g.IsTidy) (h' : g'.IsTidy)
    (heq : ∀ q, q ∈ g.edges p ↔ q ∈ g'.edges p) : g.dependencies p = g'.dependencies p := by
  rw [dependencies_eq, dependencies_eq,
    Path.sort_eq_of_mem_iff (h.isPlace p) (h.nodup p) (h'.nodup p) heq]

end Tidy

end ModuleGraph

namespace ImportLedger

/-- Everything recorded concerns places. -/
structure IsTidy (l : ImportLedger) : Prop where
  importers : l.importers.IsTidy
  isPlace : ∀ p, ∀ q ∈ l.parents p, q.IsPlace

theorem isTidy_empty : empty.IsTidy :=
  ⟨PathMap.isTidy_empty, by simp [parents, empty]⟩

/-- The records lead from one file to another that was made from it. -/
def Leads (l : ImportLedger) : Path → Path → Prop :=
  Relation.ReflTransGen (fun p q ↦ q ∈ l.parents p)

variable {l : ImportLedger} {p q : Path}

theorem parents_congr (h : p.components = q.components) (l : ImportLedger) :
    l.parents p = l.parents q := by
  rw [parents, parents, PathMap.get?_congr h]

theorem isOrdered_record (h : l.importers.IsOrdered) (p q : Path) :
    (l.record p q).1.importers.IsOrdered :=
  h.alter p fun known ↦ q.addTo (known.getD [])

theorem parents_record_self (h : l.importers.IsOrdered) (p q : Path) :
    (l.record p q).1.parents p = q.addTo (l.parents p) := by
  rw [record, parents, h.get?_alter_self, Option.getD_some, parents]

theorem parents_record_of_ne {x : Path} (hne : x.components ≠ p.components) :
    (l.record p q).1.parents x = l.parents x := by
  rw [record, parents, PathMap.get?_alter_of_ne hne, parents]

theorem parents_record (h : l.IsTidy) {x : Path} (hx : x.IsPlace) (hp : p.IsPlace) :
    (l.record p q).1.parents x = if x = p then q.addTo (l.parents p) else l.parents x := by
  split
  next heq => rw [heq, parents_record_self h.importers.toIsOrdered]
  next hne => exact parents_record_of_ne fun heq ↦ hne (hx.eq_of_components hp heq)

theorem mem_parents_record (h : l.IsTidy) (hp : p.IsPlace) (hq : q.IsPlace) {x y : Path}
    (hx : x.IsPlace) : y ∈ (l.record p q).1.parents x ↔ y ∈ l.parents x ∨ (x = p ∧ y = q) := by
  rw [parents_record h hx hp]
  split
  next heq =>
    rw [Path.mem_addTo_iff hq (h.isPlace p), heq]
    simp [or_comm]
  next hne => simp [hne]

/-- Nothing that is known is lost by recording more. -/
theorem mem_parents_record_of_mem (h : l.IsTidy) {x y : Path} (hy : y ∈ l.parents x) :
    y ∈ (l.record p q).1.parents x := by
  by_cases hx : x.components = p.components
  · rw [parents_congr hx] at hy
    rw [parents_congr hx, parents_record_self h.importers.toIsOrdered]
    exact Path.mem_addTo_of_mem hy
  · rwa [parents_record_of_ne hx]

theorem IsTidy.record (h : l.IsTidy) (hp : p.IsPlace) (hq : q.IsPlace) :
    (l.record p q).1.IsTidy := by
  refine ⟨h.importers.alter hp fun known ↦ q.addTo (known.getD []), fun x y hy ↦ ?_⟩
  by_cases hx : x.components = p.components
  · rw [parents_congr hx, parents_record_self h.importers.toIsOrdered] at hy
    rcases Path.mem_addTo hy with rfl | hy
    · exact hq
    · exact h.isPlace p y hy
  · rw [parents_record_of_ne hx] at hy
    exact h.isPlace x y hy

theorem parents_forget_self (l : ImportLedger) (p : Path) : (l.forget p).1.parents p = [] := by
  rw [forget, parents, PathMap.get?_erase_self, Option.getD_none]

theorem parents_forget_of_ne (hne : q.components ≠ p.components) :
    (l.forget p).1.parents q = l.parents q := by
  rw [forget, parents, PathMap.get?_erase_of_ne hne, parents]

theorem mem_parents_of_forget {x y : Path} (h : y ∈ (l.forget p).1.parents x) :
    y ∈ l.parents x := by
  by_cases hx : x.components = p.components
  · rw [parents_congr hx, parents_forget_self] at h
    exact absurd h List.not_mem_nil
  · rwa [parents_forget_of_ne hx] at h

theorem IsTidy.forget (h : l.IsTidy) (p : Path) : (l.forget p).1.IsTidy :=
  ⟨h.importers.erase p, fun x y hy ↦ h.isPlace x y (mem_parents_of_forget hy)⟩

theorem Leads.mono {l' : ImportLedger} (h : ∀ x y, y ∈ l.parents x → y ∈ l'.parents x)
    (hpq : l.Leads p q) : l'.Leads p q :=
  Relation.ReflTransGen.mono h _ _ hpq

end ImportLedger

end StyleModules
