import StyleModules.Table

/-!
# Laws of tables

A table is sorted when its keys ascend, and every operation keeps it so.  A sorted table is decided
by what it has for each key: look-ups after a change are computed from look-ups before it, and two
sorted tables that agree at every key are the same table.
-/

open Std

namespace StyleModules.Table

variable {κ α : Type} [Ord κ]

/-- The keys ascend, so no key has two entries. -/
def IsSorted (t : Table κ α) : Prop :=
  t.entries.Pairwise (fun a b ↦ compare a.1 b.1 = .lt)

theorem isSorted_empty : (empty : Table κ α).IsSorted := List.Pairwise.nil

@[simp]
theorem get?_empty (k : κ) : (empty : Table κ α).get? k = none := rfl

theorem lookup_mem [LawfulEqOrd κ] {k : κ} {v : α} {l : List (κ × α)}
    (h : lookup k l = some v) : (k, v) ∈ l := by
  induction l with
  | nil => simp [lookup] at h
  | cons e rest ih =>
    obtain ⟨j, w⟩ := e
    rw [lookup] at h
    split at h
    next heq =>
      obtain rfl := LawfulEqOrd.eq_of_compare heq
      simp_all
    next => exact List.mem_cons_of_mem _ (ih h)

section Changes

variable [LawfulEqOrd κ] {k j : κ} (f : Option α → α)

theorem lookup_alterIn_of_ne (h : j ≠ k) (l : List (κ × α)) :
    lookup j (alterIn k f l) = lookup j l := by
  have hne : compare j k ≠ .eq := fun heq ↦ h (LawfulEqOrd.eq_of_compare heq)
  induction l with
  | nil => simp [alterIn, lookup, hne]
  | cons e rest ih =>
    obtain ⟨i, v⟩ := e
    rw [alterIn]
    split
    next => simp [lookup, hne]
    next heq =>
      obtain rfl := LawfulEqOrd.eq_of_compare heq
      simp [lookup, hne]
    next => simp [lookup, ih]

theorem get?_alter_of_ne (h : j ≠ k) (t : Table κ α) : (t.alter k f).get? j = t.get? j :=
  lookup_alterIn_of_ne f h t.entries

theorem get?_insert_of_ne (h : j ≠ k) (t : Table κ α) (v : α) :
    (t.insert k v).get? j = t.get? j :=
  get?_alter_of_ne _ h t

theorem lookup_filter_self (l : List (κ × α)) :
    lookup k (l.filter (fun e ↦ decide (compare k e.1 ≠ .eq))) = none := by
  induction l with
  | nil => rfl
  | cons e rest ih =>
    by_cases heq : compare k e.1 = .eq <;> simp_all [lookup]

theorem lookup_filter_of_ne (h : j ≠ k) (l : List (κ × α)) :
    lookup j (l.filter (fun e ↦ decide (compare k e.1 ≠ .eq))) = lookup j l := by
  induction l with
  | nil => rfl
  | cons e rest ih =>
    obtain ⟨i, v⟩ := e
    by_cases heq : compare k i = .eq
    · obtain rfl := LawfulEqOrd.eq_of_compare heq
      have hne : compare j k ≠ .eq := fun h' ↦ h (LawfulEqOrd.eq_of_compare h')
      rw [List.filter_cons_of_neg (by simp), ih, lookup, if_neg hne]
    · rw [List.filter_cons_of_pos (by simpa using heq), lookup, lookup, ih]

theorem get?_erase_self (t : Table κ α) : (t.erase k).get? k = none :=
  lookup_filter_self t.entries

theorem get?_erase_of_ne (h : j ≠ k) (t : Table κ α) : (t.erase k).get? j = t.get? j :=
  lookup_filter_of_ne h t.entries

/-- Removing some keys leaves all other entries alone. -/
theorem get?_foldl_erase [DecidableEq κ] (keys : List κ) (t : Table κ α) (k : κ) :
    (keys.foldl erase t).get? k = if k ∈ keys then none else t.get? k := by
  induction keys generalizing t with
  | nil => rfl
  | cons j keys ih =>
    rw [List.foldl_cons, ih]
    by_cases hk : k = j
    · subst hk
      simp [get?_erase_self]
    · simp [hk, get?_erase_of_ne hk]

end Changes

section Sorted

variable {k : κ} {t : Table κ α}

theorem lookup_eq_none_of_lt {l : List (κ × α)} (h : ∀ e ∈ l, compare k e.1 = .lt) :
    lookup k l = none := by
  induction l with
  | nil => rfl
  | cons e rest ih =>
    obtain ⟨he, hrest⟩ := List.forall_mem_cons.1 h
    simp [lookup, he, ih hrest]

theorem IsSorted.erase (h : t.IsSorted) (k : κ) : (t.erase k).IsSorted :=
  List.Pairwise.filter _ h

variable [LawfulEqOrd κ]

/-- Besides the altered entry there are only entries that were there before. -/
theorem fst_mem_alterIn {f : Option α → α} {l : List (κ × α)} {e : κ × α}
    (h : e ∈ alterIn k f l) : e.1 = k ∨ e ∈ l := by
  induction l with
  | nil => simp_all [alterIn]
  | cons d rest ih =>
    obtain ⟨i, v⟩ := d
    rw [alterIn] at h
    split at h
    next => grind
    next heq =>
      obtain rfl := LawfulEqOrd.eq_of_compare heq
      grind
    next => grind

variable [TransOrd κ]

theorem pairwise_alterIn {l : List (κ × α)} (f : Option α → α)
    (h : l.Pairwise (fun a b ↦ compare a.1 b.1 = .lt)) :
    (alterIn k f l).Pairwise (fun a b ↦ compare a.1 b.1 = .lt) := by
  induction l with
  | nil => simp [alterIn]
  | cons e rest ih =>
    obtain ⟨i, v⟩ := e
    obtain ⟨hi, hrest⟩ := List.pairwise_cons.1 h
    rw [alterIn]
    split
    next hlt =>
      refine List.pairwise_cons.2 ⟨fun b hb ↦ ?_, h⟩
      rcases List.mem_cons.1 hb with rfl | hb
      · exact hlt
      · exact TransCmp.lt_trans hlt (hi b hb)
    next => exact List.pairwise_cons.2 ⟨hi, hrest⟩
    next hgt =>
      refine List.pairwise_cons.2 ⟨fun b hb ↦ ?_, ih hrest⟩
      rcases fst_mem_alterIn hb with rfl | hb
      · exact OrientedCmp.lt_of_gt hgt
      · exact hi b hb

theorem IsSorted.alter (h : t.IsSorted) (k : κ) (f : Option α → α) : (t.alter k f).IsSorted :=
  pairwise_alterIn f h

theorem IsSorted.insert (h : t.IsSorted) (k : κ) (v : α) : (t.insert k v).IsSorted :=
  h.alter k _

theorem lookup_alterIn_self {l : List (κ × α)} (f : Option α → α)
    (h : l.Pairwise (fun a b ↦ compare a.1 b.1 = .lt)) :
    lookup k (alterIn k f l) = some (f (lookup k l)) := by
  induction l with
  | nil => simp [alterIn, lookup, ReflOrd.compare_self]
  | cons e rest ih =>
    obtain ⟨i, v⟩ := e
    obtain ⟨hi, hrest⟩ := List.pairwise_cons.1 h
    rw [alterIn]
    split
    next hlt =>
      have hnone : lookup k rest = none :=
        lookup_eq_none_of_lt fun b hb ↦ TransCmp.lt_trans hlt (hi b hb)
      simp [lookup, ReflOrd.compare_self, hlt, hnone]
    next heq => simp [lookup, heq]
    next hgt => simp [lookup, hgt, ih hrest]

theorem IsSorted.get?_alter_self (h : t.IsSorted) (f : Option α → α) :
    (t.alter k f).get? k = some (f (t.get? k)) :=
  lookup_alterIn_self f h

theorem IsSorted.get?_insert_self (h : t.IsSorted) (v : α) : (t.insert k v).get? k = some v :=
  h.get?_alter_self _

theorem IsSorted.get?_eq_some_iff (h : t.IsSorted) {v : α} :
    t.get? k = some v ↔ (k, v) ∈ t.entries := by
  refine ⟨lookup_mem, fun hmem ↦ ?_⟩
  obtain ⟨entries⟩ := t
  change lookup k entries = some v
  change (k, v) ∈ entries at hmem
  induction entries with
  | nil => simp at hmem
  | cons e rest ih =>
    obtain ⟨hi, hrest⟩ := List.pairwise_cons.1 h
    rcases List.mem_cons.1 hmem with rfl | hmem
    · simp [lookup, ReflOrd.compare_self]
    · have hlt : compare e.1 k = .lt := hi _ hmem
      have hne : compare k e.1 ≠ .eq := fun heq ↦ by
        simp [OrientedCmp.eq_symm heq] at hlt
      simpa [lookup, hne] using ih hrest hmem

omit [LawfulEqOrd κ] in
theorem alterIn_of_last {l : List (κ × α)} (f : Option α → α) (h : ∀ e ∈ l, compare e.1 k = .lt) :
    alterIn k f l = l ++ [(k, f none)] := by
  induction l with
  | nil => rfl
  | cons e rest ih =>
    obtain ⟨he, hrest⟩ := List.forall_mem_cons.1 h
    have hgt : compare k e.1 = .gt := OrientedCmp.gt_of_lt he
    simp only [alterIn, hgt, ih hrest, List.cons_append]

omit [LawfulEqOrd κ] in
/-- A sorted table is the table of its entries. -/
theorem IsSorted.ofList_entries (h : t.IsSorted) : ofList t.entries = t := by
  have hinserted : ∀ l l' : List (κ × α),
      (l ++ l').Pairwise (fun a b ↦ compare a.1 b.1 = .lt) →
      l'.foldl (fun t e ↦ t.insert e.1 e.2) (⟨l⟩ : Table κ α) = ⟨l ++ l'⟩ := by
    intro l l' hsorted
    induction l' generalizing l with
    | nil => rw [List.append_nil, List.foldl_nil]
    | cons e l' ih =>
      have hlast : (⟨l⟩ : Table κ α).insert e.1 e.2 = ⟨l ++ [e]⟩ :=
        congrArg mk (alterIn_of_last _ fun d hd ↦
          (List.pairwise_append.1 hsorted).2.2 d hd e List.mem_cons_self)
      rw [List.foldl_cons, hlast, ih, List.append_assoc, List.singleton_append]
      rwa [List.append_assoc, List.singleton_append]
  exact hinserted [] t.entries h

/-- Sorted tables that agree at every key are the same. -/
theorem IsSorted.ext {s : Table κ α} (hs : s.IsSorted) (ht : t.IsSorted)
    (h : ∀ k, s.get? k = t.get? k) : s = t := by
  have hirrefl : ∀ e : κ × α, compare e.1 e.1 ≠ .lt := fun e ↦ by simp [ReflOrd.compare_self]
  have hnodup : ∀ {u : Table κ α}, u.IsSorted → u.entries.Nodup := fun hu ↦
    List.Pairwise.imp (fun {a b} (hlt : compare a.1 b.1 = .lt) (heq : a = b) ↦
      hirrefl b (heq ▸ hlt)) hu
  have hperm : s.entries.Perm t.entries := by
    refine (List.perm_ext_iff_of_nodup (hnodup hs) (hnodup ht)).2 fun ⟨k, v⟩ ↦ ?_
    rw [← hs.get?_eq_some_iff, ← ht.get?_eq_some_iff, h k]
  have hentries : s.entries = t.entries := by
    refine List.Perm.eq_of_pairwise (fun a b _ _ hab hba ↦ ?_) hs ht hperm
    exact absurd (TransCmp.lt_trans hab hba) (hirrefl a)
  cases s
  cases t
  simpa using hentries

end Sorted

end StyleModules.Table
