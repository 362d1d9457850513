import StyleModules.Transform.Assets
import StyleModules.Transform.DiscardEmpty
import StyleModules.Transform.References

/-!
# The pipeline of a build

The transforms that every build runs, in front of those that the user adds.
-/

namespace StyleModules

namespace Transform

/-- Writes the imports of a stylesheet into the ledger. -/
def collectImports : Transform where
  name := "mcss-dependency-collector"
  run j :=
    let record := fun (l : ImportLedger) (m : ImportMessage) ↦ (l.record m.file m.parent).1
    ({ j with journal := { j.journal with imports := j.messages.foldl record j.journal.imports } },
      none)

end Transform

/-- The transforms of every build, followed by some more. -/
def Pipeline.forBuild (paths : PathResolver) (assets : Transform.Assets.Options)
    (extra : Pipeline) : Pipeline :=
  let own : Pipeline :=
    { before := [Transform.collectImports]
      processing := []
      after := [Transform.References.transform paths, Transform.Assets.transform assets]
      done := [Transform.DiscardEmpty.transform] }
  own.append extra

end StyleModules
