import StyleModules.Path.Map

/-!
# Import ledger

Which files were pulled into which others by `@import`.  Such files are no modules of their own,
so nothing else remembers that a module was made from them.
-/

namespace StyleModules

/-- For each imported file the files that import it, in the order they were recorded. -/
structure ImportLedger where
  importers : PathMap (List Path)
deriving DecidableEq, Inhabited, Repr

namespace ImportLedger

def empty : ImportLedger := ⟨.empty⟩

def parents (l : ImportLedger) (file : Path) : List Path := (l.importers.get? file).getD []

/-- The ledger knows that `parent` imports `file`. -/
def knows (l : ImportLedger) (file parent : Path) : Bool := parent.isAmong (l.parents file)

/-- Records that `parent` imports `file`, and tells whether that is new. -/
def record (l : ImportLedger) (file parent : Path) : ImportLedger × Bool :=
  (⟨l.importers.alter file (fun known ↦ parent.addTo (known.getD []))⟩, !l.knows file parent)

def contains (l : ImportLedger) (file : Path) : Bool := l.importers.contains file

/-- Drops everything that is known of an imported file, and tells whether there was anything. -/
def forget (l : ImportLedger) (file : Path) : ImportLedger × Bool :=
  (⟨l.importers.erase file⟩, l.contains file)

def isEmpty (l : ImportLedger) : Bool := l.importers.isEmpty

end ImportLedger

end StyleModules
