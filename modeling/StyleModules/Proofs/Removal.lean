import StyleModules.Proofs.Compilations
import StyleModules.Proofs.Location

/-!
# Removing files

A store removes a file under its normal form, and the ledger forgets it under the path that is
given.  However the files are written, this says what there is afterwards: what is removed has no
module, no edges and no importers, and everything else is as it was.
-/

namespace StyleModules

theorem Compiler.absolute_same {p q : Path} (h : p.Same q) (c : Compiler) :
    c.absolute p = c.absolute q :=
  (h.join c.root).normalize_eq

theorem Compiler.absolute_absolute {c : Compiler} (hroot : c.root.isAbsolute = true) (p : Path) :
    c.absolute (c.absolute p) = c.absolute p :=
  absolute_eq (Path.isPlace_normalize (Path.isAbsolute_join hroot))

namespace ModuleStore

variable {c : Compiler} {s s' s'' : ModuleStore} {files files' : List Path} {p q : Path}

theorem remove_eq (c : Compiler) (path : Path) (s : ModuleStore) :
    (s.remove c path).toOption.getD s =
      if s.isTracked (c.absolute path) then
        { s with modules := s.modules.erase (c.absolute path)
                 graph := s.graph.clear (c.absolute path) }
      else s := by
  unfold remove
  simp only
  split <;> rfl

def without (c : Compiler) (s : ModuleStore) (p : Path) : ModuleStore :=
  let kept := (s.remove c p).toOption.getD s
  { kept with journal := { kept.journal with imports := (kept.journal.imports.forget p).1 } }

theorem without_eq (c : Compiler) (s : ModuleStore) (p : Path) :
    s.without c p =
      if s.isTracked (c.absolute p) then
        ⟨s.graph.clear (c.absolute p), s.modules.erase (c.absolute p),
          { s.journal with imports := (s.journal.imports.forget p).1 }⟩
      else { s with journal := { s.journal with imports := (s.journal.imports.forget p).1 } } := by
  rw [without, remove_eq]
  split <;> rfl

/-- What it means that some files were removed from a store and its ledger.  A file that was not
tracked keeps its edges. -/
structure Removed (c : Compiler) (s : ModuleStore) (files : List Path) (s' : ModuleStore) :
    Prop where
  isOrdered : s.IsOrdered → s'.IsOrdered
  get? : ∀ q : Path, s'.modules.get? q =
    if q.isAmong (files.map c.absolute) then none else s.modules.get? q
  edges : s.IsOrdered → ∀ q : Path, s'.graph.edges q =
    if q.isAmong (files.map c.absolute) && s.isTracked q then [] else s.graph.edges q
  importers : ∀ q : Path, s'.journal.imports.importers.get? q =
    if q.isAmong files then none else s.journal.imports.importers.get? q

theorem Removed.isTracked_eq (h : Removed c s files s') (q : Path) :
    s'.isTracked q = (s.isTracked q && !q.isAmong (files.map c.absolute)) := by
  rw [ModuleStore.isTracked_eq, h.get?, ModuleStore.isTracked_eq]
  cases q.isAmong (files.map c.absolute) <;> simp

theorem Removed.parents_eq (h : Removed c s files s') (q : Path) :
    s'.journal.imports.parents q = if q.isAmong files then [] else s.journal.imports.parents q := by
  rw [ImportLedger.parents, h.importers, ImportLedger.parents]
  cases q.isAmong files <;> rfl

theorem removed_nil (c : Compiler) (s : ModuleStore) : Removed c s [] s :=
  ⟨id, fun _ ↦ rfl, fun _ _ ↦ rfl, fun _ ↦ rfl⟩

theorem removed_without (c : Compiler) (s : ModuleStore) (p : Path) :
    Removed c s [p] (s.without c p) := by
  have hforgotten := PathMap.get?_erase s.journal.imports.importers p
  rw [without_eq]
  split
  next htracked =>
    refine ⟨fun hs ↦ ⟨hs.modules.erase _, hs.graph.clear _⟩, fun q ↦ PathMap.get?_erase _ _ q,
      fun hs q ↦ ?_, hforgotten⟩
    rw [List.map_singleton, hs.graph.edges_clear]
    by_cases hq : q.Same (c.absolute p)
    · rw [if_pos hq, isTracked_congr hq, htracked, Path.isAmong_singleton.2 hq, Bool.and_self,
        if_pos rfl]
    · rw [if_neg hq, if_neg fun h ↦ hq (Path.isAmong_singleton.1 (Bool.and_eq_true_iff.1 h).1)]
  next huntracked =>
    refine ⟨fun hs ↦ ⟨hs.modules, hs.graph⟩, fun q ↦ ?_, fun _ q ↦ ?_, hforgotten⟩ <;>
      rw [List.map_singleton] <;> split
    next hq =>
      rw [← isTracked_congr (Path.isAmong_singleton.1 hq), isTracked_eq] at huntracked
      exact Option.not_isSome_iff_eq_none.1 huntracked
    next => rfl
    next hq =>
      obtain ⟨hq, htracked⟩ := Bool.and_eq_true_iff.1 hq
      rw [isTracked_congr (Path.isAmong_singleton.1 hq)] at htracked
      exact absurd htracked huntracked
    next => rfl

theorem Removed.trans (h : Removed c s files s') (h' : Removed c s' files' s'') :
    Removed c s (files ++ files') s'' where
  isOrdered := h'.isOrdered ∘ h.isOrdered
  get? q := by
    rw [h'.get?, h.get?, List.map_append, Path.isAmong_append]
    cases q.isAmong (files.map c.absolute) <;>
      cases q.isAmong (files'.map c.absolute) <;> rfl
  edges hs q := by
    rw [h'.edges (h.isOrdered hs), h.edges hs, h.isTracked_eq, List.map_append, Path.isAmong_append]
    cases q.isAmong (files.map c.absolute) <;>
      cases q.isAmong (files'.map c.absolute) <;> cases s.isTracked q <;> rfl
  importers q := by
    rw [h'.importers, h.importers, Path.isAmong_append]
    cases q.isAmong files <;> cases q.isAmong files' <;> rfl

theorem removed_foldl_without (c : Compiler) (s : ModuleStore) (files : List Path) :
    Removed c s files (files.foldl (without c) s) := by
  induction files generalizing s with
  | nil => exact removed_nil c s
  | cons p files ih => exact (removed_without c s p).trans (ih (s.without c p))

/-- Removing files and forgetting their importers can be told file by file. -/
theorem removeAll_eq (files : List Path) (s : ModuleStore) (imports : ImportLedger) :
    (Invalidation.removeAll (Session.tracker c) files s imports).1.journal = s.journal ∧
      { (Invalidation.removeAll (Session.tracker c) files s imports).1 with
          journal := { s.journal with
            imports := (Invalidation.removeAll (Session.tracker c) files s imports).2 } } =
        files.foldl (without c) { s with journal := { s.journal with imports := imports } } := by
  induction files generalizing s imports with
  | nil => exact ⟨rfl, rfl⟩
  | cons p files ih =>
    have hjournal : ((s.remove c p).toOption.getD s).journal = s.journal := by
      unfold remove
      by_cases h : s.isTracked (c.absolute p) = true <;> simp [h, Except.toOption]
    have hstep : without c { s with journal := { s.journal with imports := imports } } p =
        { (s.remove c p).toOption.getD s with
          journal := { s.journal with imports := (imports.forget p).1 } } := by
      unfold without remove
      by_cases h : s.isTracked (c.absolute p) = true
      · have h' : isTracked { s with journal := { s.journal with imports := imports } }
            (c.absolute p) = true := h
        simp [h, h', Except.toOption]
      · have h' : ¬ isTracked { s with journal := { s.journal with imports := imports } }
            (c.absolute p) = true := h
        simp [h, h', Except.toOption]
    obtain ⟨hrest, heq⟩ := ih ((s.remove c p).toOption.getD s) (imports.forget p).1
    rw [hjournal] at hrest heq
    rw [List.foldl_cons, hstep, ← heq]
    exact ⟨hrest, rfl⟩

end ModuleStore

end StyleModules
