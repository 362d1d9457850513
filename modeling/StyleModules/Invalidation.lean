import StyleModules.Fault
import StyleModules.ImportLedger

/-!
# Invalidation

A file that changed is evicted together with everything that was made from it: the files that
compose its classes, and the files that import it, which only the ledger knows.  Each file is
visited once, so cycles end.  Chains of dependents are followed up to a fixed length.
-/

namespace StyleModules.Invalidation

/-- Something that tracks files and knows their dependents. -/
structure Tracker (σ : Type) where
  /-- The dependents of a file, which must be tracked. -/
  dependents : σ → Path → Except Fault (List Path)
  /-- Stops tracking a file, which must be tracked. -/
  remove : σ → Path → Except Fault σ

/-- The longest chain of dependents that is followed. -/
def maxDepth : Nat := 1000

/-- Adds a file and all that depends on it to a tree, in the order they are met.  Dependents come
before importers, and all that is reached through one of them before the next one.  The fault only
concerns the file itself: faults further on end a branch and no more.  The number tells how many
levels are left. -/
def collect {σ : Type} (t : Tracker σ) (s : σ) (imports : ImportLedger) :
    Nat → Path → List Path → List Path × Option Fault
  | 0, file, tree => (tree, some (.tooDeep file maxDepth))
  | levels + 1, file, tree =>
    if file.isAmong tree then (tree, none)
    else
      let known := t.dependents s file
      let next := known.toOption.getD [] ++ imports.parents file
      let tree := next.foldl (fun tree d ↦ (collect t s imports levels d tree).1) (tree ++ [file])
      match known with
      | .ok _ => (tree, none)
      | .error fault => (tree, some fault)

/-- Adds a file that was met at some level, and all that depends on it, to a tree. -/
def collectFrom {σ : Type} (t : Tracker σ) (s : σ) (imports : ImportLedger) (level : Nat)
    (file : Path) (tree : List Path) : List Path × Option Fault :=
  collect t s imports (maxDepth + 1 - level) file tree

/-- A file and all that depends on it, the file itself first. -/
def dependentsTree {σ : Type} (t : Tracker σ) (s : σ) (imports : ImportLedger) (file : Path) :
    List Path :=
  (collectFrom t s imports 0 file []).1

/-- Stops tracking some files and forgets who imports them. -/
def removeAll {σ : Type} (t : Tracker σ) (files : List Path) (s : σ) (imports : ImportLedger) :
    σ × ImportLedger :=
  files.foldl (fun state p ↦ ((t.remove state.1 p).toOption.getD state.1, (state.2.forget p).1))
    (s, imports)

/-- Evicts a file and all that depends on it, and tells which files these were. -/
def evict {σ : Type} (t : Tracker σ) (s : σ) (imports : ImportLedger) (file : Path) :
    List Path × σ × ImportLedger :=
  let tree := dependentsTree t s imports file
  (tree, removeAll t tree s imports)

end StyleModules.Invalidation
