import StyleModules.CommandLine

/-!
# The program

Reads the files that a build can need, runs the command line on them, and writes back what has
changed.  Everything in between is decided elsewhere.
-/

namespace StyleModules.Main

/-- Reads a directory into a file tree, with everything below it. -/
partial def loadDirectory (t : FileTree) (directory : Path) : IO FileTree := do
  let mut tree := t.put directory .directory
  for entry in ← (← IO.FS.realPath directory.text).readDir do
    let place := directory.join ⟨entry.fileName⟩
    if ← entry.path.isDir then tree ← loadDirectory tree place
    else tree := tree.put place (.file (← IO.FS.readBinFile place.text))
  return tree

/-- Reads what is at a place into a file tree, with the directories above it. -/
def loadPlace (t : FileTree) (place : Path) : IO FileTree := do
  let tree := place.ancestors.foldl (fun t p ↦ t.put p .directory) t
  let found ← (IO.FS.realPath place.text).toBaseIO
  match found with
  | .error _ => return tree
  | .ok real =>
    if ← real.isDir then loadDirectory tree place
    else if ← real.pathExists then
      return tree.put place (.file (← IO.FS.readBinFile place.text))
    else return tree

/-- The places outside the working directory that arguments name. -/
def placesOf (workingDirectory : Path) (r : CommandLine.Request) : List Path :=
  let named := r.source :: (r.output.toList ++ r.configuration.toList ++ r.maps.toList)
  (named.map (fun p ↦ (workingDirectory.join p).normalize)).filter
    (fun p ↦ !workingDirectory.components.isPrefixOf p.components)

def store (before after : FileTree) : IO Unit := do
  for (place, contents) in after.contents do
    if before.contents? place != some contents then
      if let some directory := place.parent? then IO.FS.createDirAll directory.text
      IO.FS.writeBinFile place.text contents

end StyleModules.Main

open StyleModules Main in
/-- Runs the command line on the files of this machine. -/
def main (args : List String) : IO UInt32 := do
  let workingDirectory : Path := ⟨(← IO.currentDir).toString⟩
  let outside := match CommandLine.read args with
    | .ok request => placesOf workingDirectory request
    | .error _ => []
  let mut tree : FileTree := { FileTree.empty with workingDirectory := workingDirectory }
  for place in workingDirectory :: outside do
    tree ← loadPlace tree place
  let outcome := CommandLine.run args tree
  store tree outcome.fs.tree
  (← IO.getStderr).putStr outcome.errorText
  return outcome.code.toUInt32
