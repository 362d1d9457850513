import StyleModules.Invalidation
import StyleModules.Proofs.Traversal

/-!
# The walk over dependents

The tree of a file is made by a walk from each file to its dependents and then to its importers,
whether it is tracked or not.  If there are levels enough, the tree holds exactly what can be
reached, in depth-first order.
-/

namespace StyleModules

open Relation Traversal

namespace Invalidation

section Tracker

variable {σ : Type} (t : Tracker σ) (s : σ) (imports : ImportLedger)

def next (file : Path) : List Path :=
  (t.dependents s file).toOption.getD [] ++ imports.parents file

theorem fst_collect_succ (levels : Nat) (file : Path) (tree : List Path) :
    (collect t s imports (levels + 1) file tree).1 =
      if file.isAmong tree then tree
      else (next t s imports file).foldl (fun tree d ↦ (collect t s imports levels d tree).1)
        (tree ++ [file]) := by
  rw [collect, next]
  split
  next => rfl
  next => cases t.dependents s file <;> rfl

/-- What a file that is new to a tree makes of it only depends on whether it is tracked. -/
theorem snd_collect_succ (levels : Nat) {file : Path} {tree : List Path}
    (hfresh : file.isAmong tree = false) :
    (collect t s imports (levels + 1) file tree).2 =
      match t.dependents s file with
      | .ok _ => none
      | .error fault => some fault := by
  rw [collect, if_neg (Bool.eq_false_iff.1 hfresh)]
  cases t.dependents s file <;> rfl

theorem walk_foldl {f : List Path → Path → List Path} {next : Path → List Path} {levels : Nat}
    (h : ∀ d tree, ∃ new, f tree d = tree ++ new ∧ Walk next levels tree [d] new)
    (ds tree : List Path) :
    ∃ new, ds.foldl f tree = tree ++ new ∧ Walk next levels tree ds new := by
  induction ds generalizing tree with
  | nil => exact ⟨[], (List.append_nil tree).symm, .nil levels tree⟩
  | cons d ds ih =>
    obtain ⟨first, hfirst, hwalk⟩ := h d tree
    obtain ⟨rest, hrest, hwalks⟩ := ih (tree ++ first)
    refine ⟨first ++ rest, ?_, hwalk.append hwalks⟩
    rw [List.foldl_cons, hfirst, hrest, List.append_assoc]

/-- Collecting is a walk: the tree only grows at its end. -/
theorem walk_collect (levels : Nat) (file : Path) (tree : List Path) :
    ∃ new, (collect t s imports levels file tree).1 = tree ++ new ∧
      Walk (next t s imports) levels tree [file] new := by
  induction levels generalizing file tree with
  | zero => exact ⟨[], (List.append_nil tree).symm, .cut file (.nil 0 tree)⟩
  | succ levels ih =>
    rw [fst_collect_succ]
    split
    next met => exact ⟨[], (List.append_nil tree).symm, .skip met (.nil _ tree)⟩
    next hfresh =>
      obtain ⟨inner, hfold, hinside⟩ := walk_foldl ih (next t s imports file) (tree ++ [file])
      refine ⟨file :: inner ++ [], ?_, .visit (Bool.not_eq_true _ ▸ hfresh) hinside (.nil _ _)⟩
      rw [hfold, List.append_nil, List.append_assoc, List.singleton_append]

/-- The tree of a file is a walk from that file. -/
theorem walk_dependentsTree (file : Path) :
    Walk (next t s imports) (maxDepth + 1) [] [file] (dependentsTree t s imports file) := by
  obtain ⟨new, hnew, hwalk⟩ := walk_collect t s imports (maxDepth + 1) file []
  rw [dependentsTree, collectFrom, Nat.sub_zero, hnew]
  exact hwalk

end Tracker

namespace Tracker

variable {σ : Type}

def Tracks (t : Tracker σ) (s : σ) (file : Path) : Prop := ∃ ds, t.dependents s file = .ok ds

/-- The dependents are the same however a path is written, and every file has some list of them
unless it is not tracked. -/
structure IsTable (t : Tracker σ) (s : σ) : Prop where
  same : ∀ p q : Path, p.Same q → (t.dependents s p).toOption = (t.dependents s q).toOption
  untracked : ∀ p fault, t.dependents s p = .error fault → ∃ q, fault = .untracked q

/-- Tracks the files of a table that lists the dependents of each of them. -/
def ofTable : Tracker (PathMap (List Path)) where
  dependents m p := match m.get? p with
    | some ds => .ok ds
    | none => .error (.untracked p)
  remove m p := if m.contains p then .ok (m.erase p) else .error (.untracked p)

theorem isTable_ofTable (m : PathMap (List Path)) : ofTable.IsTable m where
  same p q h := by
    simp only [ofTable]
    rw [PathMap.get?_congr h]
    cases m.get? q <;> rfl
  untracked p fault h := by
    simp only [ofTable] at h
    split at h
    next => cases h
    next => exact ⟨p, (Except.error.inj h).symm⟩

end Tracker

theorem next_same {σ : Type} {t : Tracker σ} {s : σ} (ht : t.IsTable s) (imports : ImportLedger)
    {p q : Path} (h : p.Same q) : next t s imports p = next t s imports q := by
  rw [next, next, ht.same p q h, ImportLedger.parents_congr h]

/-- The walk is exact.  If there is a level for each file that is to be found, then the tree stays
as it is and all that can be reached outside of it is added behind it, each file once, and in the
order in which a depth-first walk comes to it.  The walk goes on through files that are not tracked;
it fails if and only if that is so for the file it starts with. -/
theorem collectFrom_eq_append {σ : Type} {t : Tracker σ} {s : σ} (ht : t.IsTable s)
    (imports : ImportLedger) {level : Nat} {file : Path} {tree : List Path}
    (hfresh : file.isAmong tree = false)
    (hbound : level + (reached (next t s imports) tree file).encard ≤ (maxDepth + 1 : Nat)) :
    ∃ new, (collectFrom t s imports level file tree).1 = tree ++ new ∧
      Preorder (next t s imports) tree [file] new ∧ Path.AreDistinct new ∧
      (∀ q : Path, q.isAmong new = true ↔
        ∃ r, r.Same q ∧ Reaches (next t s imports) tree file r) ∧
      ((∃ p, (collectFrom t s imports level file tree).2 = some (.untracked p)) ↔
        ¬ t.Tracks s file) ∧
      ((collectFrom t s imports level file tree).2 = none ↔ t.Tracks s file) := by
  have hfinite : (reached (next t s imports) tree file).encard ≠ ⊤ :=
    fun htop ↦ by simp [htop] at hbound
  obtain ⟨n, hn⟩ := ENat.ne_top_iff_exists.1 hfinite
  have hself : 1 ≤ (reached (next t s imports) tree file).encard :=
    Set.one_le_encard_iff_nonempty.2 ⟨_, file, ReflTransGen.refl, rfl⟩
  rw [← hn, ← Nat.cast_one, Nat.cast_le] at hself
  rw [← hn, ← Nat.cast_add, Nat.cast_le] at hbound
  obtain ⟨levels, hlevels⟩ : ∃ levels, maxDepth + 1 - level = levels + 1 :=
    ⟨maxDepth - level, by omega⟩
  have henough : (reached (next t s imports) tree file).encard ≤ (levels + 1 : Nat) := by
    rw [← hn, Nat.cast_le]
    omega
  unfold collectFrom
  rw [hlevels]
  obtain ⟨new, hnew, hwalk⟩ := walk_collect t s imports (levels + 1) file tree
  have horder := hwalk.preorder fun f hf _ ↦ List.mem_singleton.1 hf ▸ henough
  have hdistinct : Path.AreDistinct ([] ++ new) := hwalk.areDistinct (by simp) List.nodup_nil
  refine ⟨new, hnew, horder, hdistinct, fun q ↦ ⟨fun hq ↦ ?_, ?_⟩, ?_⟩
  · obtain ⟨r, hr, hsame⟩ := Path.isAmong_iff.1 hq
    obtain ⟨f, hf, -, hreaches⟩ := hwalk.reaches r hr
    exact ⟨r, hsame, List.mem_singleton.1 hf ▸ hreaches⟩
  · rintro ⟨r, hsame, hreaches⟩
    rw [← hsame.isAmong_eq]
    exact horder.isAmong_of_reaches (fun p q h ↦ next_same ht imports h) hfresh hreaches
  · rw [snd_collect_succ t s imports levels hfresh, Tracker.Tracks]
    cases hdependents : t.dependents s file with
    | ok ds => simp
    | error fault =>
      obtain ⟨q, rfl⟩ := ht.untracked file fault hdependents
      simp

namespace Sample

/-- Two files that depend on each other, and one of them on a file that is not tracked. -/
def table : PathMap (List Path) :=
  .ofList [(⟨"/a"⟩, [⟨"/b"⟩]), (⟨"/b"⟩, [⟨"/a"⟩, ⟨"/x"⟩, ⟨"/c"⟩])]

def ledger : ImportLedger := ((ImportLedger.empty.record ⟨"/c"⟩ ⟨"/d"⟩).1.record ⟨"/a"⟩ ⟨"/d"⟩).1

end Sample

/-- Four files are reached and as many levels are left: the one that is in the tree before ends the
way to it. -/
theorem collectFrom_eq_append_sample :
    (⟨"/a"⟩ : Path).isAmong [⟨"/x"⟩] = false ∧
      ((997 : Nat) : ℕ∞) + (reached (next Tracker.ofTable Sample.table Sample.ledger) [⟨"/x"⟩]
        ⟨"/a"⟩).encard ≤ (maxDepth + 1 : Nat) ∧
      (collectFrom Tracker.ofTable Sample.table Sample.ledger 997 ⟨"/a"⟩ [⟨"/x"⟩]).1 =
        [⟨"/x"⟩, ⟨"/a"⟩, ⟨"/b"⟩, ⟨"/c"⟩, ⟨"/d"⟩] ∧
      Preorder (next Tracker.ofTable Sample.table Sample.ledger) [⟨"/x"⟩] [⟨"/a"⟩]
        [⟨"/a"⟩, ⟨"/b"⟩, ⟨"/c"⟩, ⟨"/d"⟩] := by
  have hfresh : (⟨"/a"⟩ : Path).isAmong [⟨"/x"⟩] = false := by decide +kernel
  have hbound : ((997 : Nat) : ℕ∞) + (reached (next Tracker.ofTable Sample.table Sample.ledger)
      [⟨"/x"⟩] ⟨"/a"⟩).encard ≤ (maxDepth + 1 : Nat) :=
    add_le_add_right (encard_reached_le [⟨"/a"⟩, ⟨"/b"⟩, ⟨"/c"⟩, ⟨"/d"⟩]
      (by decide +kernel) List.mem_cons_self) ((997 : Nat) : ℕ∞)
  have htree : (collectFrom Tracker.ofTable Sample.table Sample.ledger 997 ⟨"/a"⟩ [⟨"/x"⟩]).1 =
      [⟨"/x"⟩] ++ [⟨"/a"⟩, ⟨"/b"⟩, ⟨"/c"⟩, ⟨"/d"⟩] := by decide +kernel
  obtain ⟨new, hnew, horder, -⟩ :=
    collectFrom_eq_append (Tracker.isTable_ofTable Sample.table) Sample.ledger hfresh hbound
  rw [htree] at hnew
  obtain rfl := List.append_cancel_left hnew
  exact ⟨hfresh, hbound, htree, horder⟩

end Invalidation

end StyleModules
