/-!
# File paths

A path is the text it was written as; what it denotes is its list of components.  Repeated and
trailing slashes and inner `.` segments do not show in the components, so several texts can denote
the same path.  `normalize` folds `..` segments lexically, without looking at any file system.
-/

namespace StyleModules

/-- A slash-separated file path, kept as it was written.  The text is Unicode: a path of other bytes
is not represented, nor is what becomes of such bytes where a path is made a text. -/
structure Path where
  text : String
deriving DecidableEq, Inhabited, Repr

namespace Path

/-- One step of a path. -/
inductive Component where
  | root
  | current
  | parent
  | normal (name : String)
deriving DecidableEq, Inhabited, Repr

def Component.text : Component → String
  | root => "/"
  | current => "."
  | parent => ".."
  | normal name => name

/-- The pieces between the slashes of a text, empty pieces included. -/
def segments : List Char → List (List Char)
  | [] => [[]]
  | c :: cs =>
    if c = '/' then [] :: segments cs
    else
      match segments cs with
      | [] => [[c]]
      | s :: ss => (c :: s) :: ss

/-- The component that an inner segment stands for, if any. -/
def component? (segment : List Char) : Option Component :=
  if segment = [] ∨ segment = ['.'] then none
  else if segment = ['.', '.'] then some .parent
  else some (.normal (String.ofList segment))

/-- The components of a text: a leading slash is the root, and only a leading `.` segment shows. -/
def componentsOfText (text : List Char) : List Component :=
  match text with
  | '/' :: rest => .root :: (segments rest).filterMap component?
  | _ =>
    match segments text with
    | ['.'] :: rest => .current :: rest.filterMap component?
    | all => all.filterMap component?

/-- What a path denotes. -/
def components (p : Path) : List Component :=
  componentsOfText p.text.toList

def joinNames : List Component → String
  | [] => ""
  | [c] => c.text
  | c :: cs => c.text ++ "/" ++ joinNames cs

/-- The plainest path with the given components. -/
def ofComponents : List Component → Path
  | .root :: cs => ⟨"/" ++ joinNames cs⟩
  | cs => ⟨joinNames cs⟩

/-- Two texts denote the same path. -/
def Same (p q : Path) : Prop := p.components = q.components

instance (p q : Path) : Decidable (p.Same q) :=
  inferInstanceAs (Decidable (p.components = q.components))

/-- A path is absolute when it starts at the root. -/
def isAbsolute (p : Path) : Bool :=
  p.text.toList.head? == some '/'

/-- `q` as seen from the directory `p`: an absolute `q` stands for itself. -/
def join (p q : Path) : Path :=
  if q.isAbsolute || p.text.isEmpty then q
  else if p.text.toList.getLast? == some '/' then ⟨p.text ++ q.text⟩
  else ⟨p.text ++ "/" ++ q.text⟩

/-- The directory of a path: everything but the last component, unless that is the root. -/
def parent? (p : Path) : Option Path :=
  match p.components.reverse with
  | [] => none
  | .root :: _ => none
  | _ :: rest => some (ofComponents rest.reverse)

/-- The directories that a path is in, the nearest one first. -/
def ancestors (p : Path) : List Path :=
  let proper := (List.range p.components.length).reverse.filter (0 < ·)
  proper.map (fun n ↦ ofComponents (p.components.take n))

/-- The last component, when it is a plain name. -/
def fileName? (p : Path) : Option String :=
  match p.components.getLast? with
  | some (.normal name) => some name
  | _ => none

/-- What follows the last dot of a name that does not start with that dot. -/
def extensionOf? (name : String) : Option String :=
  let tail := name.toList.reverse.takeWhile (· ≠ '.')
  let before := (name.toList.reverse.drop (tail.length + 1)).reverse
  if tail.length = name.length ∨ before = [] then none
  else some (String.ofList tail.reverse)

/-- The extension of the file name, without its dot. -/
def extension? (p : Path) : Option String :=
  p.fileName?.bind extensionOf?

/-- Adds an extension to a path that ends in a file name without one. -/
def addExtension (p : Path) (extension : String) : Path :=
  match p.fileName? with
  | none => p
  | some _ => if extension.isEmpty then p else ⟨p.text ++ "." ++ extension⟩

/-- Adds one component to a folded path, which is kept with its last component first. -/
def push : List Component → Component → List Component
  | stack, .root => .root :: stack
  | stack, .current => stack
  | .normal _ :: stack, .parent => stack
  | .root :: stack, .parent => .root :: stack
  | stack, .parent => .parent :: stack
  | stack, .normal name => .normal name :: stack

/-- Drops `.` components and folds every `..` into the name before it.  Nothing is above the root,
and a leading `..` of a relative path stays. -/
def fold (cs : List Component) : List Component :=
  (cs.foldl push []).reverse

/-- The path of folded components; the empty list is the current directory. -/
def ofFolded : List Component → Path
  | [] => ⟨"."⟩
  | cs => ofComponents cs

def normalize (p : Path) : Path :=
  ofFolded (fold p.components)

/-- The components that lead from the directory `base` to `target`, once their common beginning is
gone; `climbed` are the steps made so far.  There is no way when `base` climbs above a place that
`target` does not. -/
def climb : List Component → List Component → List Component → Option (List Component)
  | climbed, target, [] => some (climbed ++ target)
  | climbed, [], _ :: base => climb (climbed ++ [.parent]) [] base
  | climbed, t :: target, b :: base =>
    if climbed = [] ∧ t = b then climb climbed target base
    else if b = .current then climb (climbed ++ [t]) target base
    else if b = .parent then none
    else some (climbed ++ .parent :: base.map (fun _ ↦ .parent) ++ t :: target)

/-- `target` as seen from the directory `base`. -/
def relativeTo? (target base : Path) : Option Path :=
  if target.isAbsolute ≠ base.isAbsolute then
    if target.isAbsolute then some target else none
  else
    (climb [] target.components base.components).map ofComponents

/-- A file as seen from the project root; a relative file is already seen from there. -/
def projectPath (root file : Path) : Path :=
  if file.isAbsolute then (relativeTo? file root).getD file else file.normalize

/-- The name under which output maps list a file. -/
def resourceKey (p : Path) : String :=
  p.normalize.text

end Path

end StyleModules
