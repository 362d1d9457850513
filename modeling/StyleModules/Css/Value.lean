import StyleModules.Css.Part

/-!
# Values of declarations

A value that fits its property is kept by meaning, so that equal values are written alike.  Any
other value is kept as a list of parts.
-/

namespace StyleModules.Css

/-- A length or percentage of an inset property, or `auto`. -/
inductive Inset where
  | auto
  | length (n : Numeral) (unit : String)
  | percentage (n : Numeral)
deriving DecidableEq, Inhabited, Repr

/-- A picture: none, or one at an address. -/
inductive Image where
  | none
  | address (text : String)
deriving DecidableEq, Inhabited, Repr

/-- One layer of a background. -/
structure Layer where
  color : Option Color
  image : Image
  repetition : List String
  attachment : Option String
deriving DecidableEq, Inhabited, Repr

/-- A font family: a generic one, or one by name. -/
inductive Family where
  | generic (keyword : String)
  | named (name : String)
deriving DecidableEq, Inhabited, Repr

/-- Where a font comes from. -/
inductive FontSource where
  | address (text : String) (format : Option String)
  | installed (family : Family)
deriving DecidableEq, Inhabited, Repr

/-- The value of a declaration. -/
inductive Value where
  | parts (list : List Part)
  /-- Tokens among which a string is a name and no reference. -/
  | names (list : List Part)
  | color (c : Color)
  | inset (i : Inset)
  | insets (top right bottom left : Inset)
  | keyword (word : String)
  | image (i : Image)
  | images (list : List Image)
  | background (layers : List Layer)
  | families (list : List Family)
  | areas (rows : List String)
  | sources (list : List FontSource)
deriving DecidableEq, Inhabited, Repr

namespace Image

def mapAddress (f : String → String) : Image → Image
  | none => none
  | address text => address (f text)

def write (layout : Layout) : Image → String
  | none => "none"
  | address text => layout.address text

end Image

namespace Inset

/-- Zero goes without its unit. -/
def write : Inset → String
  | auto => "auto"
  | length n unit => if n.magnitude.digits = 0 then "0" else writeDimension n unit
  | percentage n => writeNumeral n ++ "%"

/-- Four insets, without those that repeat the opposite side or, for one of them, the top. -/
def writeAll (top right bottom left : Inset) : String :=
  let shown :=
    if left ≠ right then [top, right, bottom, left]
    else if bottom ≠ top then [top, right, bottom]
    else if right ≠ top then [top, right]
    else [top]
  " ".intercalate (shown.map write)

end Inset

namespace Layer

/-- The parts of a layer in the order they are written; what has its initial value is left out. -/
def pieces (layout : Layout) (l : Layer) : List String :=
  (match l.color with
    | some c => if c = .rgba 0 0 0 0 then [] else [c.text]
    | none => [])
  ++ (match l.image with
    | .none => []
    | image => [image.write layout])
  ++ (if l.repetition.isEmpty then [] else [" ".intercalate l.repetition])
  ++ l.attachment.toList

/-- A layer in which nothing is set has the shortest value there is. -/
def write (layout : Layout) (l : Layer) : String :=
  match l.pieces layout with
  | [] => if layout.isCompact then "0 0" else "none"
  | pieces => " ".intercalate pieces

end Layer

namespace Family

/-- Words that a family name must not be mistaken for. -/
def genericNames : List String :=
  ["serif", "sans-serif", "cursive", "fantasy", "monospace", "system-ui", "emoji", "math",
   "fangsong", "ui-serif", "ui-sans-serif", "ui-monospace", "ui-rounded", "initial", "inherit",
   "unset", "default", "revert", "revert-layer"]

/-- Those of the words that every property understands. -/
def everywhere : List String :=
  ["initial", "inherit", "unset", "default", "revert", "revert-layer"]

/-- A name as the identifiers between its blanks. -/
def plain (name : String) : String :=
  " ".intercalate ((name.splitOn " ").map writeIdentifier)

/-- A name goes without quotes if that is shorter and cannot be mistaken. -/
def writeName (name : String) : String :=
  if name ≠ "" ∧ !genericNames.contains name.toLower
      ∧ (plain name).utf8ByteSize < name.utf8ByteSize + 2 then plain name
  else writeQuoted name

def write : Family → String
  | generic keyword => keyword
  | named name => writeName name

end Family

namespace FontSource

def mapAddress (f : String → String) : FontSource → FontSource
  | address text format => address (f text) format
  | source => source

def write (layout : Layout) : FontSource → String
  | address text format =>
    layout.address text ++ (match format with
      | some f => " format(" ++ writeQuoted f ++ ")"
      | none => "")
  | installed family => "local(" ++ family.write ++ ")"

end FontSource

namespace Value

/-- The text of a value.  Rows of an area map after the first one start on lines of their own. -/
def write (layout : Layout) (indent : Nat) : Value → String
  | parts list => Part.write layout list
  | names list => Part.write layout list
  | color c => c.text
  | inset i => i.write
  | insets top right bottom left => Inset.writeAll top right bottom left
  | keyword word => word
  | image i => i.write layout
  | images list => layout.list (list.map (Image.write layout))
  | background layers => layout.list (layers.map (Layer.write layout))
  | families list => layout.list (list.map Family.write)
  | areas rows => (layout.newline (indent + 1)).intercalate (rows.map writeQuoted)
  | sources list => layout.list (list.map (FontSource.write layout))

/-- Changes the strings and addresses that can refer to files.  In values kept by meaning these
are the addresses only. -/
def mapReferences (onQuoted onAddress : String → String) : Value → Value
  | parts list => parts (list.map (Part.mapReferences onQuoted onAddress))
  | names list => names (list.map (Part.mapReferences id onAddress))
  | image i => image (i.mapAddress onAddress)
  | images list => images (list.map (Image.mapAddress onAddress))
  | background layers =>
    background (layers.map (fun l ↦ { l with image := l.image.mapAddress onAddress }))
  | sources list => sources (list.map (FontSource.mapAddress onAddress))
  | value => value

end Value

end StyleModules.Css
