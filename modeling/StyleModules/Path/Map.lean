import StyleModules.Path
import StyleModules.Table

/-!
# Maps and sets of paths

Paths that denote the same place share one entry.  The entry keeps the text of the path that was
inserted first.  Paths are sorted component by component, so the files of a directory stand
together.
-/

namespace StyleModules

namespace Path

/-- Where a kind of component stands among the others. -/
def Component.rank : Component → Nat
  | root => 0
  | current => 1
  | parent => 2
  | normal _ => 3

instance : Ord Component :=
  ⟨fun a b ↦ (compare a.rank b.rank).then (compare a.text b.text)⟩

def compareComponents : List Component → List Component → Ordering
  | [], [] => .eq
  | [], _ :: _ => .lt
  | _ :: _, [] => .gt
  | a :: as, b :: bs => (compare a b).then (compareComponents as bs)

instance : Ord (List Component) := ⟨compareComponents⟩

def sort (paths : List Path) : List Path :=
  paths.mergeSort (fun p q ↦ (compare p.components q.components).isLE)

/-- A path of the list denotes the same place. -/
def isAmong (p : Path) (paths : List Path) : Bool :=
  let components := p.components
  paths.any (fun q ↦ q.components == components)

/-- Adds a path at the end unless the list has it already. -/
def addTo (p : Path) (paths : List Path) : List Path :=
  if p.isAmong paths then paths else paths ++ [p]

end Path

/-- A map from paths, sorted by what they denote. -/
structure PathMap (α : Type) where
  table : Table (List Path.Component) (Path × α)
deriving DecidableEq, Repr

namespace PathMap

variable {α β : Type}

instance : Inhabited (PathMap α) := ⟨⟨.empty⟩⟩

def empty : PathMap α := ⟨.empty⟩

def get? (m : PathMap α) (p : Path) : Option α := (m.table.get? p.components).map Prod.snd

/-- The text that a path was first inserted with, as a path. -/
def key (m : PathMap α) (p : Path) : Path := ((m.table.get? p.components).map Prod.fst).getD p

def contains (m : PathMap α) (p : Path) : Bool := m.table.contains p.components

/-- Gives a path a value that can depend on the value it had. -/
def alter (m : PathMap α) (p : Path) (f : Option α → α) : PathMap α :=
  ⟨m.table.alter p.components fun
    | some (q, a) => (q, f (some a))
    | none => (p, f none)⟩

def insert (m : PathMap α) (p : Path) (a : α) : PathMap α := m.alter p (fun _ ↦ a)

def erase (m : PathMap α) (p : Path) : PathMap α := ⟨m.table.erase p.components⟩

def toList (m : PathMap α) : List (Path × α) := m.table.values

/-- The paths in order, each with the text it was first inserted with. -/
def keys (m : PathMap α) : List Path := m.toList.map Prod.fst

def isEmpty (m : PathMap α) : Bool := m.table.isEmpty

def size (m : PathMap α) : Nat := m.table.size

def ofList (entries : List (Path × α)) : PathMap α :=
  entries.foldl (fun m e ↦ m.insert e.1 e.2) empty

end PathMap

end StyleModules
