import Mathlib.Data.List.Nodup
import StyleModules.Path.Map
import StyleModules.Proofs.Place
import StyleModules.Proofs.Table

/-!
# Laws of path maps

Paths are ordered by what they denote, and that order is total on what they denote.  A map whose
keys are all places is tidy: it is decided by its look-ups, and the text of a key is never in doubt.
-/

open Std

namespace StyleModules

namespace Path

theorem Component.compare_def (a b : Component) :
    compare a b = (compare a.rank b.rank).then (compare a.text b.text) := rfl

theorem Component.eq_of_rank_text {a b : Component} (hr : a.rank = b.rank)
    (ht : a.text = b.text) : a = b := by
  cases a <;> cases b <;> simp_all [Component.rank, Component.text]

instance : TransOrd Component where
  eq_swap {a b} := by
    rw [Component.compare_def, Component.compare_def, Ordering.swap_then,
      ← OrientedOrd.eq_swap, ← OrientedOrd.eq_swap]
  isLE_trans {a b c} hab hbc := by
    rw [Component.compare_def] at *
    rw [Ordering.isLE_then_iff_or] at *
    rcases hab with hab | ⟨hab, hab'⟩ <;> rcases hbc with hbc | ⟨hbc, hbc'⟩
    · exact .inl (TransCmp.lt_trans hab hbc)
    · exact .inl (TransCmp.lt_of_lt_of_eq hab hbc)
    · exact .inl (TransCmp.lt_of_eq_of_lt hab hbc)
    · exact .inr ⟨TransCmp.eq_trans hab hbc, TransCmp.isLE_trans hab' hbc'⟩

instance : LawfulEqOrd Component where
  compare_self {_} := by rw [Component.compare_def]; simp [ReflOrd.compare_self]
  eq_of_compare {a b} h := by
    rw [Component.compare_def, Ordering.then_eq_eq] at h
    exact Component.eq_of_rank_text (LawfulEqOrd.eq_of_compare h.1)
      (LawfulEqOrd.eq_of_compare h.2)

theorem compareComponents_eq_compareLex (as bs : List Component) :
    compareComponents as bs = List.compareLex compare as bs := by
  induction as generalizing bs with
  | nil => cases bs <;> rfl
  | cons a as ih =>
    cases bs with
    | nil => rfl
    | cons b bs => rw [compareComponents, List.compareLex_cons_cons, ih]

instance : TransOrd (List Component) where
  eq_swap {as bs} := by
    change compareComponents as bs = (compareComponents bs as).swap
    rw [compareComponents_eq_compareLex, compareComponents_eq_compareLex]
    exact OrientedCmp.eq_swap
  isLE_trans {as bs cs} hab hbc := by
    change (compareComponents as cs).isLE
    change (compareComponents as bs).isLE at hab
    change (compareComponents bs cs).isLE at hbc
    rw [compareComponents_eq_compareLex] at *
    exact TransCmp.isLE_trans hab hbc

instance : LawfulEqOrd (List Component) where
  compare_self {as} := by
    change compareComponents as as = .eq
    rw [compareComponents_eq_compareLex]
    exact ReflCmp.compare_self
  eq_of_compare {as bs} h := by
    change compareComponents as bs = .eq at h
    rw [compareComponents_eq_compareLex] at h
    exact LawfulEqCmp.eq_of_compare h

theorem isAmong_iff {p : Path} {ps : List Path} :
    p.isAmong ps = true ↔ ∃ q ∈ ps, q.components = p.components := by
  simp [isAmong]

theorem isAmong_of_mem {p : Path} {ps : List Path} (h : p ∈ ps) : p.isAmong ps = true :=
  isAmong_iff.2 ⟨p, h, rfl⟩

@[simp]
theorem isAmong_nil (p : Path) : p.isAmong [] = false := rfl

@[simp]
theorem isAmong_append (p : Path) (ps qs : List Path) :
    p.isAmong (ps ++ qs) = (p.isAmong ps || p.isAmong qs) := by
  simp [isAmong]

theorem mem_addTo {p q : Path} {ps : List Path} (h : q ∈ p.addTo ps) : q = p ∨ q ∈ ps := by
  unfold addTo at h
  split at h
  next => exact .inr h
  next => simpa [or_comm] using h

theorem mem_addTo_of_mem {p q : Path} {ps : List Path} (h : q ∈ ps) : q ∈ p.addTo ps := by
  unfold addTo
  split
  · exact h
  · exact List.mem_append_left _ h

theorem mem_sort {p : Path} {ps : List Path} : p ∈ sort ps ↔ p ∈ ps :=
  List.mem_mergeSort

/-! ## Lists of places -/

theorem isAmong_iff_mem {p : Path} {ps : List Path} (hp : p.IsPlace) (hps : ∀ q ∈ ps, q.IsPlace) :
    p.isAmong ps = true ↔ p ∈ ps := by
  refine ⟨fun h ↦ ?_, isAmong_of_mem⟩
  obtain ⟨q, hq, heq⟩ := isAmong_iff.1 h
  exact (hps q hq).eq_of_components hp heq ▸ hq

theorem mem_addTo_iff {p q : Path} {ps : List Path} (hp : p.IsPlace)
    (hps : ∀ r ∈ ps, r.IsPlace) : q ∈ p.addTo ps ↔ q = p ∨ q ∈ ps := by
  refine ⟨mem_addTo, ?_⟩
  unfold addTo
  split
  next h =>
    rintro (rfl | hq)
    · exact (isAmong_iff_mem hp hps).1 h
    · exact hq
  next => simp [or_comm]

theorem nodup_addTo {p : Path} {ps : List Path} (h : ps.Nodup) : (p.addTo ps).Nodup := by
  unfold addTo
  split
  next => exact h
  next hp =>
    have hnot : p ∉ ps := fun hmem ↦ hp (isAmong_of_mem hmem)
    rw [List.nodup_append]
    refine ⟨h, by simp, fun a ha b hb ↦ ?_⟩
    obtain rfl := List.mem_singleton.1 hb
    exact fun heq ↦ hnot (heq ▸ ha)

theorem pairwise_sort (ps : List Path) :
    (sort ps).Pairwise fun a b ↦ (compare a.components b.components).isLE := by
  have htrans : ∀ a b c : Path, (compare a.components b.components).isLE →
      (compare b.components c.components).isLE → (compare a.components c.components).isLE :=
    fun _ _ _ hab hbc ↦ TransCmp.isLE_trans hab hbc
  have htotal : ∀ a b : Path, ((compare a.components b.components).isLE ||
      (compare b.components a.components).isLE) = true := by
    intro a b
    rw [OrientedOrd.eq_swap (a := b.components)]
    cases compare a.components b.components <;> rfl
  exact List.pairwise_mergeSort htrans htotal ps

/-- The order in which places were collected does not show once they are sorted. -/
theorem sort_eq_of_mem_iff {ps qs : List Path} (hps : ∀ p ∈ ps, p.IsPlace) (hp : ps.Nodup)
    (hq : qs.Nodup) (h : ∀ p, p ∈ ps ↔ p ∈ qs) : sort ps = sort qs := by
  have hperm : (sort ps).Perm (sort qs) :=
    (List.mergeSort_perm ps _).trans
      (((List.perm_ext_iff_of_nodup hp hq).2 h).trans (List.mergeSort_perm qs _).symm)
  refine List.Perm.eq_of_pairwise (fun a b ha hb hab hba ↦ ?_) (pairwise_sort ps)
    (pairwise_sort qs) hperm
  have haPlace := hps a (mem_sort.1 ha)
  have hbPlace := hps b ((h b).2 (mem_sort.1 hb))
  exact haPlace.eq_of_components hbPlace
    (LawfulEqOrd.eq_of_compare (OrientedCmp.isLE_antisymm hab hba))

end Path

namespace PathMap

variable {α : Type}

/-- Sorted, and every entry stands under what its key denotes. -/
structure IsOrdered (m : PathMap α) : Prop where
  sorted : m.table.IsSorted
  keyed : ∀ e ∈ m.table.entries, e.2.1.components = e.1

theorem isOrdered_empty : (empty : PathMap α).IsOrdered :=
  ⟨Table.isSorted_empty, by simp [empty, Table.empty]⟩

@[simp]
theorem get?_empty (p : Path) : (empty : PathMap α).get? p = none := rfl

theorem get?_congr {p q : Path} (h : p.components = q.components) (m : PathMap α) :
    m.get? p = m.get? q := by
  rw [get?, get?, h]

theorem contains_eq (m : PathMap α) (p : Path) : m.contains p = (m.get? p).isSome := by
  simp [contains, Table.contains, get?]

theorem get?_alter_of_ne {p q : Path} (h : q.components ≠ p.components) (m : PathMap α)
    (f : Option α → α) : (m.alter p f).get? q = m.get? q := by
  rw [get?, alter, Table.get?_alter_of_ne _ h, get?]

theorem get?_insert_of_ne {p q : Path} (h : q.components ≠ p.components) (m : PathMap α)
    (a : α) : (m.insert p a).get? q = m.get? q :=
  get?_alter_of_ne h m _

theorem get?_erase_self (m : PathMap α) (p : Path) : (m.erase p).get? p = none := by
  rw [get?, erase, Table.get?_erase_self, Option.map_none]

theorem get?_erase_of_ne {p q : Path} (h : q.components ≠ p.components) (m : PathMap α) :
    (m.erase p).get? q = m.get? q := by
  rw [get?, erase, Table.get?_erase_of_ne h, get?]

section Ordered

variable {m : PathMap α} {p : Path}

theorem IsOrdered.get?_alter_self (h : m.IsOrdered) (f : Option α → α) :
    (m.alter p f).get? p = some (f (m.get? p)) := by
  rw [get?, alter, h.sorted.get?_alter_self, get?]
  cases m.table.get? p.components <;> rfl

theorem IsOrdered.get?_insert_self (h : m.IsOrdered) (a : α) :
    (m.insert p a).get? p = some a :=
  h.get?_alter_self _

/-- The keys of an altered map are those it had and the altered one. -/
theorem mem_entries_alter {f : Option α → α} {e : List Path.Component × (Path × α)}
    (he : e ∈ (m.alter p f).table.entries) :
    (e.1 = p.components ∧ (e.2.1 = p ∨ ∃ d ∈ m.table.entries, d.1 = e.1 ∧ d.2.1 = e.2.1)) ∨
      e ∈ m.table.entries := by
  rw [alter, Table.alter] at he
  generalize m.table.entries = l at he ⊢
  induction l with
  | nil => simp_all [Table.alterIn]
  | cons d rest ih =>
    obtain ⟨cs, q, a⟩ := d
    rw [Table.alterIn] at he
    split at he
    next => grind
    next heq =>
      obtain rfl := LawfulEqOrd.eq_of_compare heq
      rcases List.mem_cons.1 he with rfl | he
      · exact .inl ⟨rfl, .inr ⟨_, List.mem_cons_self, rfl, rfl⟩⟩
      · exact .inr (List.mem_cons_of_mem _ he)
    next => grind

theorem IsOrdered.alter (h : m.IsOrdered) (p : Path) (f : Option α → α) :
    (m.alter p f).IsOrdered := by
  refine ⟨h.sorted.alter _ _, fun e he ↦ ?_⟩
  rcases mem_entries_alter he with ⟨hkey, rfl | ⟨d, hd, hd₁, hd₂⟩⟩ | he
  · exact hkey.symm
  · rw [← hd₂, ← hd₁, h.keyed d hd]
  · exact h.keyed e he

theorem IsOrdered.insert (h : m.IsOrdered) (p : Path) (a : α) : (m.insert p a).IsOrdered :=
  h.alter p _

theorem IsOrdered.erase (h : m.IsOrdered) (p : Path) : (m.erase p).IsOrdered :=
  ⟨h.sorted.erase _, fun e he ↦ h.keyed e (List.mem_filter.1 he).1⟩

theorem IsOrdered.get?_of_mem (h : m.IsOrdered) {a : α} (hmem : (p, a) ∈ m.toList) :
    m.get? p = some a := by
  obtain ⟨⟨cs, q, b⟩, he, heq⟩ := List.mem_map.1 hmem
  obtain ⟨rfl, rfl⟩ := Prod.mk.inj heq
  have hkey : q.components = cs := h.keyed _ he
  rw [get?, hkey, h.sorted.get?_eq_some_iff.2 he, Option.map_some]

theorem IsOrdered.mem_of_get? (h : m.IsOrdered) {a : α} (hget : m.get? p = some a) :
    ∃ q, (q, a) ∈ m.toList ∧ q.components = p.components := by
  obtain ⟨⟨q, b⟩, he, rfl⟩ := Option.map_eq_some_iff.1 hget
  have hmem := h.sorted.get?_eq_some_iff.1 he
  exact ⟨q, List.mem_map.2 ⟨_, hmem, rfl⟩, h.keyed _ hmem⟩

/-- The keys of an altered map, with their texts. -/
theorem fst_mem_toList_alter {f : Option α → α} {e : Path × α} (he : e ∈ (m.alter p f).toList) :
    e.1 = p ∨ ∃ d ∈ m.toList, d.1 = e.1 := by
  obtain ⟨⟨cs, q, a⟩, hmem, rfl⟩ := List.mem_map.1 he
  rcases mem_entries_alter hmem with ⟨-, hq | ⟨d, hd, -, hq⟩⟩ | hmem
  · exact .inl hq
  · exact .inr ⟨d.2, List.mem_map.2 ⟨d, hd, rfl⟩, hq⟩
  · exact .inr ⟨(q, a), List.mem_map.2 ⟨_, hmem, rfl⟩, rfl⟩

end Ordered

/-! ## Tidy maps -/

/-- Ordered, and every key is a place. -/
structure IsTidy (m : PathMap α) : Prop extends m.IsOrdered where
  isPlace : ∀ p ∈ m.keys, p.IsPlace

theorem isTidy_empty : (empty : PathMap α).IsTidy :=
  ⟨isOrdered_empty, by simp [keys, toList, empty, Table.values, Table.empty]⟩

namespace IsTidy

variable {m : PathMap α} {p : Path}

theorem alter (h : m.IsTidy) (hp : p.IsPlace) (f : Option α → α) : (m.alter p f).IsTidy := by
  refine ⟨h.toIsOrdered.alter p f, fun q hq ↦ ?_⟩
  obtain ⟨e, he, rfl⟩ := List.mem_map.1 hq
  rcases fst_mem_toList_alter he with heq | ⟨d, hd, heq⟩
  · exact heq ▸ hp
  · exact heq ▸ h.isPlace d.1 (List.mem_map.2 ⟨d, hd, rfl⟩)

theorem insert (h : m.IsTidy) (hp : p.IsPlace) (a : α) : (m.insert p a).IsTidy :=
  h.alter hp _

theorem erase (h : m.IsTidy) (p : Path) : (m.erase p).IsTidy := by
  refine ⟨h.toIsOrdered.erase p, fun q hq ↦ h.isPlace q ?_⟩
  obtain ⟨e, he, rfl⟩ := List.mem_map.1 hq
  obtain ⟨d, hd, rfl⟩ := List.mem_map.1 he
  exact List.mem_map.2 ⟨_, List.mem_map.2 ⟨d, (List.mem_filter.1 hd).1, rfl⟩, rfl⟩

theorem mem_toList_iff (h : m.IsTidy) (hp : p.IsPlace) {a : α} :
    (p, a) ∈ m.toList ↔ m.get? p = some a := by
  refine ⟨h.get?_of_mem, fun hget ↦ ?_⟩
  obtain ⟨q, hq, heq⟩ := h.mem_of_get? hget
  have hqPlace := h.isPlace q (List.mem_map.2 ⟨_, hq, rfl⟩)
  exact hqPlace.eq_of_components hp heq ▸ hq

/-- A place is stored under its own text. -/
theorem key_eq (h : m.IsTidy) (hp : p.IsPlace) : m.key p = p := by
  unfold key
  cases hget : m.table.get? p.components with
  | none => rfl
  | some e =>
    have hmem := h.sorted.get?_eq_some_iff.1 hget
    have hkey : e.1 ∈ m.keys := List.mem_map.2 ⟨e, List.mem_map.2 ⟨_, hmem, rfl⟩, rfl⟩
    exact (h.isPlace _ hkey).eq_of_components hp (h.keyed _ hmem)

theorem table_get?_eq (h : m.IsTidy) {cs : List Path.Component} {e : Path × α}
    (hget : m.table.get? cs = some e) :
    e.1.IsPlace ∧ e.1.components = cs ∧ m.get? e.1 = some e.2 := by
  have hmem := h.sorted.get?_eq_some_iff.1 hget
  have hlist : e ∈ m.toList := List.mem_map.2 ⟨_, hmem, rfl⟩
  exact ⟨h.isPlace _ (List.mem_map.2 ⟨e, hlist, rfl⟩), h.keyed _ hmem, h.get?_of_mem hlist⟩

/-- Tidy maps that agree at every place are the same. -/
theorem ext {m' : PathMap α} (h : m.IsTidy) (h' : m'.IsTidy)
    (heq : ∀ p : Path, p.IsPlace → m.get? p = m'.get? p) : m = m' := by
  have hhalf : ∀ {u v : PathMap α}, u.IsTidy → v.IsTidy →
      (∀ p : Path, p.IsPlace → u.get? p = v.get? p) → ∀ {cs e},
        u.table.get? cs = some e → v.table.get? cs = some e := by
    intro u v hu hv huv cs e hget
    obtain ⟨hplace, rfl, hvalue⟩ := hu.table_get?_eq hget
    rw [huv e.1 hplace] at hvalue
    obtain ⟨d, hd, hde⟩ := Option.map_eq_some_iff.1 hvalue
    obtain ⟨hdPlace, hdKey, -⟩ := hv.table_get?_eq hd
    rw [hd, Prod.ext (hdPlace.eq_of_components hplace hdKey) hde]
  have htable : m.table = m'.table := by
    refine h.sorted.ext h'.sorted fun cs ↦ Option.ext fun e ↦ ?_
    exact ⟨hhalf h h' heq, hhalf h' h fun p hp ↦ (heq p hp).symm⟩
  cases m
  cases m'
  exact congrArg PathMap.mk htable

end IsTidy

end PathMap

end StyleModules
