import StyleModules.Path.Map

/-!
# Module graph

Which files compose classes from which others.  A file that was mentioned once stays known, so
its dependents are remembered after it was itself removed.
-/

namespace StyleModules

/-- For each known file the files it composes from. -/
structure ModuleGraph where
  targets : PathMap (List Path)
deriving DecidableEq, Inhabited, Repr

namespace ModuleGraph

def empty : ModuleGraph := ⟨.empty⟩

/-- Makes a file known. -/
def know (g : ModuleGraph) (p : Path) : ModuleGraph :=
  ⟨g.targets.alter p (fun known ↦ known.getD [])⟩

/-- Adds the edge from a file to one that it composes from. -/
def add (g : ModuleGraph) (source target : Path) : ModuleGraph :=
  let known := (g.know source).know target
  ⟨known.targets.alter source (fun edges ↦ (known.targets.key target).addTo (edges.getD []))⟩

def clear (g : ModuleGraph) (p : Path) : ModuleGraph :=
  if g.targets.contains p then ⟨g.targets.insert p []⟩ else g

/-- The files that a file composes from, in order. -/
def dependencies (g : ModuleGraph) (p : Path) : List Path :=
  Path.sort ((g.targets.get? p).getD [])

/-- The files that compose from a file, in order. -/
def dependents (g : ModuleGraph) (p : Path) : List Path :=
  (g.targets.toList.filter (fun e ↦ p.isAmong e.2)).map Prod.fst

end ModuleGraph

end StyleModules
