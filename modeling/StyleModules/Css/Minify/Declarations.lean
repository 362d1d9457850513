import StyleModules.Css.Rule

/-!
# Minifying declarations

Some properties belong to groups that are held back and written after all others, so that a later
declaration of a group replaces an earlier one.  Colours and custom properties keep the place of
their first declaration and the value of their last one.  Everything else stays where it is.
-/

namespace StyleModules.Css.Minify

/-- The properties that keep their first place and their last value. -/
def settledNames : List String :=
  ["color", "text-shadow", "filter", "backdrop-filter", "fill", "stroke", "caret-color", "caret"]

/-- What is known of the background. -/
structure Background where
  color : Option Color
  images : Option (List Image)
  layers : Option (List Layer)
deriving Inhabited

/-- What is known of the four insets. -/
structure Insets where
  top : Option Inset
  right : Option Inset
  bottom : Option Inset
  left : Option Inset
deriving Inhabited

/-- The groups of properties that are held back, in the order they are written. -/
inductive Group where
  | background
  | grid
  | font
  | list
  | display
  | inset
  | mask
deriving DecidableEq, Inhabited, Repr

/-- Declarations that are settled, and the groups held back. -/
structure State where
  settled : List Declaration
  background : Background
  grid : Option Value
  font : Option Value
  list : Option Value
  display : Option Value
  insets : Insets
  mask : Option Value
deriving Inhabited

namespace Background

def none : Background := ⟨.none, .none, .none⟩

/-- The layers with the images and the colour that are known. -/
def joined (color : Color) : List Image → List Layer → List Layer
  | [i], l :: _ => [{ l with image := i, color := some color }]
  | i :: is, l :: ls => { l with image := i, color := .none } :: joined color is ls
  | _, _ => []

/-- The declarations of a background: the shorthand if everything is known. -/
def declarations (b : Background) : List Declaration :=
  let parts : List Declaration :=
    (b.color.map (fun c ↦ (⟨"background-color", .color c⟩ : Declaration))).toList
      ++ (b.images.map (fun is ↦ (⟨"background-image", .images is⟩ : Declaration))).toList
  match b.color, b.images, b.layers with
  | some c, some is, some ls =>
    if is.length = ls.length then [⟨"background", .background (joined c is ls)⟩] else parts
  | _, _, _ => parts

/-- The colour of the last layer. -/
def baseColor (layers : List Layer) : Color :=
  ((layers.getLast?.bind Layer.color).getD (.rgba 0 0 0 0))

end Background

namespace Insets

def none : Insets := ⟨.none, .none, .none, .none⟩

/-- The declarations of the insets: the shorthand if all four are known. -/
def declarations (i : Insets) : List Declaration :=
  match i.top, i.right, i.bottom, i.left with
  | some t, some r, some b, some l => [⟨"inset", .insets t r b l⟩]
  | _, _, _, _ =>
    [("top", i.top), ("bottom", i.bottom), ("left", i.left), ("right", i.right)].filterMap
      (fun side ↦ side.2.map (fun v ↦ ⟨side.1, .inset v⟩))

def set (i : Insets) (name : String) (v : Inset) : Insets :=
  if name = "top" then { i with top := some v }
  else if name = "bottom" then { i with bottom := some v }
  else if name = "left" then { i with left := some v }
  else { i with right := some v }

end Insets

def Group.ofName? (name : String) : Option Group :=
  if ["background", "background-image", "background-color"].contains name then some .background
  else if name = "grid-template-areas" then some .grid
  else if name = "font-family" then some .font
  else if name = "list-style-image" then some .list
  else if name = "display" then some .display
  else if ["top", "bottom", "left", "right", "inset"].contains name then some .inset
  else if name = "mask-image" then some .mask
  else none

namespace State

def start : State := ⟨[], .none, none, none, none, none, .none, none⟩

def single (name : String) (v : Option Value) : List Declaration :=
  (v.map (fun v ↦ (⟨name, v⟩ : Declaration))).toList

def held (s : State) : Group → List Declaration
  | .background => s.background.declarations
  | .grid => single "grid-template-areas" s.grid
  | .font => single "font-family" s.font
  | .list => single "list-style-image" s.list
  | .display => single "display" s.display
  | .inset => s.insets.declarations
  | .mask => single "mask-image" s.mask

def forget (s : State) : Group → State
  | .background => { s with background := .none }
  | .grid => { s with grid := none }
  | .font => { s with font := none }
  | .list => { s with list := none }
  | .display => { s with display := none }
  | .inset => { s with insets := .none }
  | .mask => { s with mask := none }

def push (s : State) (d : Declaration) : State := { s with settled := s.settled ++ [d] }

def flush (s : State) (g : Group) : State :=
  { s.forget g with settled := s.settled ++ s.held g }

/-- Replaces the first settled declaration of a property, or settles a new one. -/
def settleOnce (s : State) (d : Declaration) : State :=
  if s.settled.any (fun e ↦ e.name == d.name) then { s with settled := replace s.settled }
  else s.push d
where
  /-- Replaces the first declaration of the same property. -/
  replace : List Declaration → List Declaration
    | [] => []
    | e :: es => if e.name == d.name then d :: es else e :: replace es

/-- Holds back a declaration of a group.  A value that does not fit settles the group. -/
def hold (s : State) (g : Group) (d : Declaration) : State :=
  match d.value with
  | .color c => { s with background := { s.background with color := some c } }
  | .background layers =>
    { s with background :=
        ⟨some (Background.baseColor layers), some (layers.map Layer.image), some layers⟩ }
  | .images is =>
    if g = .mask then { s with mask := some d.value }
    else { s with background := { s.background with images := some is } }
  | .inset v => { s with insets := s.insets.set d.name v }
  | .insets t r b l => { s with insets := ⟨some t, some r, some b, some l⟩ }
  | .keyword _ =>
    if g = .grid then { s with grid := some d.value } else { s with display := some d.value }
  | .areas _ => { s with grid := some d.value }
  | .families _ => { s with font := some d.value }
  | .image _ => { s with list := some d.value }
  | _ => (s.flush g).push d

def step (s : State) (d : Declaration) : State :=
  match Group.ofName? d.name with
  | some g => s.hold g d
  | none =>
    if d.name.startsWith "--" || settledNames.contains d.name then s.settleOnce d else s.push d

def finish (s : State) : List Declaration :=
  ([Group.background, .grid, .font, .list, .display, .inset, .mask].foldl flush s).settled

end State

def declarationList (ds : List Declaration) : List Declaration :=
  (ds.foldl State.step .start).finish

def declarations (d : Declarations) : Declarations :=
  ⟨declarationList d.normal, declarationList d.important⟩

end StyleModules.Css.Minify
