import StyleModules.Css.Value
import StyleModules.Css.Part.Reader

/-!
# Reading values

What a property accepts decides how its value is read.  A value that does not fit is read as parts,
and so is every value of a property that is not listed here by what it accepts.
-/

namespace StyleModules.Css

def propertyNames : List String :=
  ["background-color", "background-image", "background-position-x", "background-position-y",
   "background-position", "background-size", "background-repeat", "background-attachment",
   "background-clip", "background-origin", "background", "box-shadow", "opacity", "color",
   "display", "visibility", "width", "height", "min-width", "min-height", "max-width", "max-height",
   "block-size", "inline-size", "min-block-size", "min-inline-size", "max-block-size",
   "max-inline-size", "box-sizing", "aspect-ratio", "overflow", "overflow-x", "overflow-y",
   "text-overflow", "position", "top", "bottom", "left", "right", "inset-block-start",
   "inset-block-end", "inset-inline-start", "inset-inline-end", "inset-block", "inset-inline",
   "inset", "border-spacing", "border-top-color", "border-bottom-color", "border-left-color",
   "border-right-color", "border-block-start-color", "border-block-end-color",
   "border-inline-start-color", "border-inline-end-color", "border-top-style",
   "border-bottom-style", "border-left-style", "border-right-style", "border-block-start-style",
   "border-block-end-style", "border-inline-start-style", "border-inline-end-style",
   "border-top-width", "border-bottom-width", "border-left-width", "border-right-width",
   "border-block-start-width", "border-block-end-width", "border-inline-start-width",
   "border-inline-end-width", "border-top-left-radius", "border-top-right-radius",
   "border-bottom-left-radius", "border-bottom-right-radius", "border-start-start-radius",
   "border-start-end-radius", "border-end-start-radius", "border-end-end-radius", "border-radius",
   "border-image-source", "border-image-outset", "border-image-repeat", "border-image-width",
   "border-image-slice", "border-image", "border-color", "border-style", "border-width",
   "border-block-color", "border-block-style", "border-block-width", "border-inline-color",
   "border-inline-style", "border-inline-width", "border", "border-top", "border-bottom",
   "border-left", "border-right", "border-block", "border-block-start", "border-block-end",
   "border-inline", "border-inline-start", "border-inline-end", "outline", "outline-color",
   "outline-style", "outline-width", "flex-direction", "flex-wrap", "flex-flow", "flex-grow",
   "flex-shrink", "flex-basis", "flex", "order", "align-content", "justify-content",
   "place-content", "align-self", "justify-self", "place-self", "align-items", "justify-items",
   "place-items", "row-gap", "column-gap", "gap", "box-orient", "box-direction",
   "box-ordinal-group", "box-align", "box-flex", "box-flex-group", "box-pack", "box-lines",
   "flex-pack", "flex-order", "flex-align", "flex-item-align", "flex-line-pack", "flex-positive",
   "flex-negative", "flex-preferred-size", "grid-template-columns", "grid-template-rows",
   "grid-auto-columns", "grid-auto-rows", "grid-auto-flow", "grid-template-areas", "grid-template",
   "grid", "grid-row-start", "grid-row-end", "grid-column-start", "grid-column-end", "grid-row",
   "grid-column", "grid-area", "margin-top", "margin-bottom", "margin-left", "margin-right",
   "margin-block-start", "margin-block-end", "margin-inline-start", "margin-inline-end",
   "margin-block", "margin-inline", "margin", "padding-top", "padding-bottom", "padding-left",
   "padding-right", "padding-block-start", "padding-block-end", "padding-inline-start",
   "padding-inline-end", "padding-block", "padding-inline", "padding", "scroll-margin-top",
   "scroll-margin-bottom", "scroll-margin-left", "scroll-margin-right", "scroll-margin-block-start",
   "scroll-margin-block-end", "scroll-margin-inline-start", "scroll-margin-inline-end",
   "scroll-margin-block", "scroll-margin-inline", "scroll-margin", "scroll-padding-top",
   "scroll-padding-bottom", "scroll-padding-left", "scroll-padding-right",
   "scroll-padding-block-start", "scroll-padding-block-end", "scroll-padding-inline-start",
   "scroll-padding-inline-end", "scroll-padding-block", "scroll-padding-inline", "scroll-padding",
   "font-weight", "font-size", "font-stretch", "font-family", "font-style", "font-variant-caps",
   "line-height", "font", "vertical-align", "font-palette", "transition-property",
   "transition-duration", "transition-delay", "transition-timing-function", "transition",
   "animation-name", "animation-duration", "animation-timing-function", "animation-iteration-count",
   "animation-direction", "animation-play-state", "animation-delay", "animation-fill-mode",
   "animation-composition", "animation-timeline", "animation-range-start", "animation-range-end",
   "animation-range", "animation", "transform", "transform-origin", "transform-style",
   "transform-box", "backface-visibility", "perspective", "perspective-origin", "translate",
   "rotate", "scale", "text-transform", "white-space", "tab-size", "word-break", "line-break",
   "hyphens", "overflow-wrap", "word-wrap", "text-align", "text-align-last", "text-justify",
   "word-spacing", "letter-spacing", "text-indent", "text-decoration-line", "text-decoration-style",
   "text-decoration-color", "text-decoration-thickness", "text-decoration",
   "text-decoration-skip-ink", "text-emphasis-style", "text-emphasis-color", "text-emphasis",
   "text-emphasis-position", "text-shadow", "text-size-adjust", "direction", "unicode-bidi",
   "box-decoration-break", "resize", "cursor", "caret-color", "caret-shape", "caret", "user-select",
   "accent-color", "appearance", "list-style-type", "list-style-image", "list-style-position",
   "list-style", "marker-side", "fill", "fill-rule", "fill-opacity", "stroke", "stroke-opacity",
   "stroke-width", "stroke-linecap", "stroke-linejoin", "stroke-miterlimit", "stroke-dasharray",
   "stroke-dashoffset", "marker-start", "marker-mid", "marker-end", "marker", "color-interpolation",
   "color-interpolation-filters", "color-rendering", "shape-rendering", "text-rendering",
   "image-rendering", "clip-path", "clip-rule", "mask-image", "mask-mode", "mask-repeat",
   "mask-position-x", "mask-position-y", "mask-position", "mask-clip", "mask-origin", "mask-size",
   "mask-composite", "mask-type", "mask", "mask-border-source", "mask-border-mode",
   "mask-border-slice", "mask-border-width", "mask-border-outset", "mask-border-repeat",
   "mask-border", "mask-source-type", "mask-box-image", "mask-box-image-source",
   "mask-box-image-slice", "mask-box-image-width", "mask-box-image-outset", "mask-box-image-repeat",
   "filter", "backdrop-filter", "z-index", "container-type", "container-name", "container",
   "view-transition-name", "color-scheme", "all"]

/-- Marks that browsers put in front of names of their own. -/
def vendorMarks : List String := ["-webkit-", "-moz-", "-o-", "-ms-"]

/-- A name after the mark of a browser, if it has one. -/
def withoutVendorMark (name : String) : String :=
  match vendorMarks.find? (fun m ↦ name.startsWith m) with
  | some m => String.ofList (name.toList.drop m.length)
  | none => name

/-- The name of a property: known names in lower case, all others as they are. -/
def propertyName (name : String) : String :=
  let lower := name.toLower
  if name.startsWith "--" then name
  else if propertyNames.contains (withoutVendorMark lower) then lower
  else name

/-- What a property accepts. -/
inductive Shape where
  | color
  | inset
  | insets
  | display
  | image
  | images
  | background
  | families
  | areas
  /-- Strings are names of lists, fonts, animations or areas. -/
  | names
deriving DecidableEq, Inhabited, Repr

/-- A property whose values can have quoted names in them. -/
def Shape.isNaming (name : String) : Bool :=
  ["list-style-type", "list-style", "font", "grid-template", "grid"].contains name
    || ["animation-name", "animation", "text-emphasis-style", "text-emphasis"].contains
      (withoutVendorMark name)

/-- The shape of a property's values, for those that are read by meaning. -/
def Shape.ofProperty? (name : String) : Option Shape :=
  if name = "color" ∨ name = "background-color" then some color
  else if ["top", "bottom", "left", "right"].contains name then some inset
  else if name = "inset" then some insets
  else if name = "display" then some display
  else if name = "list-style-image" then some image
  else if name = "background-image" ∨ name = "mask-image" then some images
  else if name = "background" then some background
  else if name = "font-family" then some families
  else if name = "grid-template-areas" then some areas
  else if isNaming name then some names
  else none

namespace Value

def displayNames : List String :=
  ["block", "inline", "none", "contents", "flow-root", "run-in", "table", "flex", "grid", "ruby",
   "math", "list-item", "inline-block", "inline-flex", "inline-grid", "inline-table",
   "table-row-group", "table-header-group", "table-footer-group", "table-row", "table-cell",
   "table-column-group", "table-column", "table-caption", "ruby-base", "ruby-text",
   "ruby-base-container", "ruby-text-container", "-webkit-box", "-moz-box", "-ms-flexbox"]

def repetitionNames : List String :=
  ["repeat-x", "repeat-y", "no-repeat", "repeat", "space", "round"]

def attachmentNames : List String := ["fixed", "local"]

def oneOf (names : List String) : Reader String := Reader.expect fun n ↦
  match n.token with
  | .word w => if names.contains w.toLower then some w.toLower else none
  | _ => none

def colorReader : Reader Color := Reader.expect fun n ↦
  match n with
  | .block l nodes _ =>
    match l.token with
    | .function name => Part.colorOfCall? name nodes
    | _ => none
  | .leaf l =>
    match l.token with
    | .word w => Color.ofWord? w
    | .hash digits _ => Color.ofDigits? digits
    | _ => none

/-- Takes an inset.  Only zero may go without a unit. -/
def insetReader : Reader Inset := Reader.expect fun n ↦
  match n.token with
  | .word w => if w.toLower = "auto" then some .auto else none
  | .number v => if v.magnitude.digits = 0 then some (.length v "px") else none
  | .percentage v => some (.percentage v)
  | .dimension v unit =>
    if Part.lengthUnits.contains unit.toLower then some (.length v unit.toLower) else none
  | _ => none

/-- Takes one to four insets; those left out repeat the opposite side or the top. -/
def insetsReader : Reader Value := do
  let top ← insetReader
  let right ← Reader.attempt insetReader
  let bottom ← Reader.attempt insetReader
  let left ← Reader.attempt insetReader
  let r := right.getD top
  pure (.insets top r (bottom.getD top) (left.getD r))

def addressReader : Reader String := Reader.expect fun n ↦
  match n with
  | .block l nodes _ =>
    match l.token with
    | .function name => if name.toLower = "url" then Part.addressOfCall? nodes else none
    | _ => none
  | .leaf l =>
    match l.token with
    | .address text => some text
    | _ => none

def imageReader : Reader Image :=
  Reader.orElse (do pure (.address (← addressReader)))
    (do
      let _ ← oneOf ["none"]
      pure .none)

/-- Takes the repetitions of a layer: one word for both directions or one for each. -/
def repetitionReader : Reader (List String) := do
  let first ← oneOf repetitionNames
  if first = "repeat-x" ∨ first = "repeat-y" then pure [first]
  else
    match ← Reader.attempt (oneOf ["repeat", "space", "round", "no-repeat"]) with
    | none => pure [first]
    | some second =>
      if first = second then pure [first]
      else if first = "repeat" ∧ second = "no-repeat" then pure ["repeat-x"]
      else if first = "no-repeat" ∧ second = "repeat" then pure ["repeat-y"]
      else pure [first, second]

/-- Takes one more part of a layer, each kind at most once. -/
def layerStep (l : Layer) (imageSet : Bool) : Reader (Layer × Bool) := do
  if !imageSet then
    if let some i ← Reader.attempt imageReader then
      return ({ l with image := i }, true)
  if l.repetition.isEmpty then
    if let some r ← Reader.attempt repetitionReader then
      return ({ l with repetition := r }, imageSet)
  if l.attachment.isNone then
    if let some a ← Reader.attempt (oneOf attachmentNames) then
      return ({ l with attachment := some a }, imageSet)
  if l.color.isNone then
    if let some c ← Reader.attempt colorReader then
      return ({ l with color := some c }, imageSet)
  Reader.fail .invalidDeclaration

/-- Takes the parts of a layer in any order. -/
def layerParts : Nat → Layer → Bool → Reader Layer
  | 0, l, _ => pure l
  | fuel + 1, l, imageSet => do
    match ← Reader.attempt (layerStep l imageSet) with
    | none => pure l
    | some (l', imageSet') => layerParts fuel l' imageSet'

/-- Reads a layer, which sets something. -/
def layerReader : Reader Layer := do
  let (l, imageSet) ← layerStep ⟨none, .none, [], none⟩ false
  layerParts 8 l imageSet

/-- Only the last layer has a colour, and repetition in both directions need not be said. -/
def checkedLayers (layers : List Layer) : Reader (List Layer) := do
  if layers.dropLast.any (fun l ↦ l.color.isSome) then Reader.fail .invalidDeclaration
  else pure (layers.map (fun l ↦
    { l with repetition := if l.repetition = ["repeat"] then [] else l.repetition }))

def words : Reader (List String) := do
  let first ← Reader.word
  let rest ← Reader.many Reader.word (← Reader.budget)
  pure (first :: rest)

def familyReader : Reader Family :=
  Reader.orElse
    (Reader.expect fun n ↦
      match n.token with
      | .quoted text => some (.named text)
      | _ => none)
    (do
      match ← words with
      | [w] =>
        if Family.everywhere.contains w.toLower then Reader.fail .invalidDeclaration
        else if Family.genericNames.contains w.toLower then pure (.generic w.toLower)
        else pure (.named w)
      | ws => pure (.named (" ".intercalate ws)))

/-- Takes a row of an area map: names and dots, one blank between them. -/
def areaRow : Reader String := Reader.expect fun n ↦
  match n.token with
  | .quoted text =>
    let spaced := String.ofList (text.toList.map (fun c ↦ if Lexer.isSpace c then ' ' else c))
    let cells := (spaced.splitOn " ").filter (· ≠ "")
    if cells.isEmpty then none
    else some (" ".intercalate (cells.map (fun c ↦ if c.toList.all (· = '.') then "." else c)))
  | _ => none

def areasReader : Reader Value :=
  Reader.orElse
    (do
      let _ ← oneOf ["none"]
      pure (.keyword "none"))
    (do
      let first ← areaRow
      let rest ← Reader.many areaRow (← Reader.budget)
      pure (.areas (first :: rest)))

/-- Reads the items of a list with commas between them. -/
def listOf {α : Type} (r : Reader α) : Reader (List α) := do
  Reader.commaSeparated r (← Reader.budget)

/-- A call that something else is put in for later. -/
def isVariable : Part → Bool
  | .token (.function f) => ["var", "env"].contains f.toLower
  | _ => false

/-- Reads tokens with names among them.  With a variable among them they could be anything. -/
def namesReader : Reader Value := do
  let list ← Part.reader
  if list.any isVariable then Reader.fail .invalidDeclaration else pure (.names list)

def ofShape : Shape → Reader Value
  | .color => do pure (.color (← colorReader))
  | .inset => do pure (.inset (← insetReader))
  | .insets => insetsReader
  | .display => do pure (.keyword (← oneOf displayNames))
  | .image => do pure (.image (← imageReader))
  | .images => do pure (.images (← listOf imageReader))
  | .background => do
    let layers ← listOf layerReader
    pure (.background (← checkedLayers layers))
  | .families => do pure (.families (← listOf familyReader))
  | .areas => areasReader
  | .names => namesReader

/-- Reads the value of a property: by meaning if it fits, otherwise as parts. -/
def reader (name : String) : Reader Value :=
  let asParts : Reader Value := do pure (.parts (← Part.reader))
  match Shape.ofProperty? name with
  | none => asParts
  | some shape => Reader.orElse (Reader.entirely (ofShape shape)) asParts

/-- Takes the format of a font, named by a string or a word. -/
def formatReader : Reader String := do
  let arguments ← Reader.call "format"
  Reader.within arguments (Reader.expect fun n ↦
    match n.token with
    | .quoted text => some text
    | .word w => some w.toLower
    | _ => none)

def sourceReader : Reader FontSource :=
  Reader.orElse
    (do
      let arguments ← Reader.call "local"
      pure (.installed (← Reader.within arguments familyReader)))
    (do
      let text ← addressReader
      pure (.address text (← Reader.attempt formatReader)))

def fontFaceReader (name : String) : Reader Value :=
  let asParts : Reader Value := do pure (.parts (← Part.reader))
  if name = "src" then
    Reader.orElse (Reader.entirely do pure (.sources (← listOf sourceReader))) asParts
  else if name = "font-family" then
    Reader.orElse (Reader.entirely do pure (.families [← familyReader])) asParts
  else asParts

end Value

end StyleModules.Css
