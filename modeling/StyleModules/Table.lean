/-!
# Tables

Entries sorted by key, at most one for each key.
-/

namespace StyleModules

/-- A finite map whose entries are kept in the order of their keys. -/
structure Table (κ α : Type) where
  entries : List (κ × α)
deriving DecidableEq, Repr

namespace Table

variable {κ α β : Type} [Ord κ]

instance : Inhabited (Table κ α) := ⟨⟨[]⟩⟩

def empty : Table κ α := ⟨[]⟩

/-- The value that sorted entries have for a key. -/
def lookup (k : κ) : List (κ × α) → Option α
  | [] => none
  | (j, v) :: rest => if compare k j = .eq then some v else lookup k rest

/-- Changes the entry of a key in sorted entries, or adds one where it belongs. -/
def alterIn (k : κ) (f : Option α → α) : List (κ × α) → List (κ × α)
  | [] => [(k, f none)]
  | (j, v) :: rest =>
    match compare k j with
    | .lt => (k, f none) :: (j, v) :: rest
    | .eq => (j, f (some v)) :: rest
    | .gt => (j, v) :: alterIn k f rest

def get? (t : Table κ α) (k : κ) : Option α := lookup k t.entries

def contains (t : Table κ α) (k : κ) : Bool := (t.get? k).isSome

/-- Gives a key a value that can depend on the value it had. -/
def alter (t : Table κ α) (k : κ) (f : Option α → α) : Table κ α := ⟨alterIn k f t.entries⟩

def insert (t : Table κ α) (k : κ) (v : α) : Table κ α := t.alter k (fun _ ↦ v)

def erase (t : Table κ α) (k : κ) : Table κ α :=
  ⟨t.entries.filter (fun e ↦ compare k e.1 ≠ .eq)⟩

def keys (t : Table κ α) : List κ := t.entries.map Prod.fst

def values (t : Table κ α) : List α := t.entries.map Prod.snd

def isEmpty (t : Table κ α) : Bool := t.entries.isEmpty

def size (t : Table κ α) : Nat := t.entries.length

/-- The table of some entries; of those for one key the last one counts. -/
def ofList (entries : List (κ × α)) : Table κ α :=
  entries.foldl (fun t e ↦ t.insert e.1 e.2) empty

def mapValues (f : α → β) (t : Table κ α) : Table κ β :=
  ⟨t.entries.map (fun e ↦ (e.1, f e.2))⟩

end Table

end StyleModules
