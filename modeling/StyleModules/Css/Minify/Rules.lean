import StyleModules.Css.Minify.Declarations
import StyleModules.Css.Rule.Writer
import StyleModules.Css.Selector.Reader

/-!
# Minifying rules

The rules of a list are taken one after the other.  A rule may join the last one that was kept, a
layer joins the first block of its name, and a style rule makes an earlier one superfluous that has
the same selectors and sets the same properties.  A superfluous rule leaves a gap, which keeps its
neighbours apart and the places of all others as they are.
-/

namespace StyleModules.Css.Minify

/-- What a style rule is remembered by. -/
structure Key where
  selectors : String
  properties : List String
deriving DecidableEq, Inhabited, Repr

/-- Rules that were kept, the last one first, with a gap for each that became superfluous; places
count from the first rule.  `known` are the places of style rules by what they were when kept. -/
structure Kept where
  rules : List (Option Rule)
  known : List (Key × Nat)
  /-- The layers that were named so far, with the places of their blocks. -/
  layers : List (String × Nat)
  /-- The animations by keyword and name, with their places. -/
  animations : List ((String × String) × Nat)
deriving Inhabited

/-- Replaces the rule at a place that counts from the first one. -/
def Kept.setAt (k : Kept) (place : Nat) (r : Option Rule) : Kept :=
  { k with rules := k.rules.set (k.rules.length - 1 - place) r }

/-- The rule at a place that counts from the first one. -/
def Kept.at? (k : Kept) (place : Nat) : Option Rule :=
  if place < k.rules.length then (k.rules[k.rules.length - 1 - place]?).join else none

def Kept.push (k : Kept) (r : Rule) : Kept := { k with rules := some r :: k.rules }

/-- A style rule without rules inside. -/
structure Plain where
  selectors : List Selector
  declarations : Declarations
deriving Inhabited

/-- The rule as a style rule without rules inside, if it is one. -/
def plain? : Rule → Option Plain
  | .block (.style selectors d) [] => some ⟨selectors, d⟩
  | _ => none

def Plain.rule (p : Plain) : Rule := .block (.style p.selectors p.declarations) []

def Plain.isCommon (p : Plain) : Bool :=
  p.selectors.all (fun s ↦ s.all Selector.Component.isCommon)

def sameDeclarations (a b : Declarations) : Bool :=
  a.pieces .compact 0 == b.pieces .compact 0

/-- A style rule joined with the one before it, if they have the same selectors or the same
declarations. -/
def join? (earlier later : Plain) : Option Plain :=
  if earlier.isCommon && later.isCommon then
    if Selector.sameList earlier.selectors later.selectors then
      some ⟨earlier.selectors, declarations
        ⟨earlier.declarations.normal ++ later.declarations.normal,
          earlier.declarations.important ++ later.declarations.important⟩⟩
    else if sameDeclarations earlier.declarations later.declarations then
      some ⟨earlier.selectors ++ later.selectors, earlier.declarations⟩
    else none
  else none

/-- Joins the last rules for as long as that is possible. -/
def joinBack : List (Option Rule) → List (Option Rule)
  | some r :: some q :: rest =>
    match plain? r, plain? q with
    | some later, some earlier =>
      match join? earlier later with
      | some joined => joinBack (some joined.rule :: rest)
      | none => some r :: some q :: rest
    | _, _ => some r :: some q :: rest
  | rules => rules
termination_by rules => rules.length

/-- What a style rule is remembered by. -/
def Plain.key (p : Plain) : Key :=
  ⟨Selector.writeList .compact p.selectors, p.declarations.all.map Declaration.name⟩

/-- Two style rules set the same properties of the same elements. -/
def duplicates (a b : Plain) : Bool :=
  Selector.sameList a.selectors b.selectors
    && a.declarations.normal.map Declaration.name == b.declarations.normal.map Declaration.name
    && a.declarations.important.map Declaration.name
        == b.declarations.important.map Declaration.name

/-- The remembered place of a rule that another one, which is kept by now, makes superfluous. -/
def Kept.superfluous? (k : Kept) (p : Plain) : Option (Key × Nat) :=
  k.known.find? (fun e ↦
    e.1 == p.key && ((k.at? e.2).bind plain?).any (fun other ↦ duplicates other p))

def Kept.pushPlain (k : Kept) (p : Plain) : Kept :=
  let place := k.rules.length
  let k := k.push p.rule
  let k := if place = 0 then k else
    match k.superfluous? p with
    | none => k
    | some e => { k.setAt e.2 none with known := k.known.erase e }
  { k with known := k.known ++ [(p.key, place)] }

/-- Takes a style rule whose contents are minified. -/
def Kept.addStyle (k : Kept) (head : Head) (children : List Rule) : Kept :=
  let r : Rule := .block head children
  let joined : Option (List (Option Rule)) :=
    match k.rules with
    | some last :: rest =>
      match plain? last, plain? r with
      | some earlier, some later =>
        (join? earlier later).map (fun j ↦ joinBack (some j.rule :: rest))
      | _, _ => none
    | _ => none
  match joined with
  | some rules => { k with rules := rules }
  | none =>
    if head.declarations.isEmpty && children.isEmpty then k
    else
      match plain? r with
      | some p => k.pushPlain p
      | none => k.push r

/-- An empty block for a layer that has none yet. -/
def Kept.nameLayer (k : Kept) (name : String) : Kept :=
  if k.layers.any (fun l ↦ l.1 == name) then k
  else { k with
    layers := k.layers ++ [(name, k.rules.length)]
    rules := some (.block (.layer (some name)) []) :: k.rules }

/-- Puts the rules of a layer into the first block of its name. -/
def Kept.addLayer (k : Kept) (name : String) (children : List Rule) : Kept :=
  match k.layers.find? (fun l ↦ l.1 == name) with
  | none => { k with
      layers := k.layers ++ [(name, k.rules.length)]
      rules := some (.block (.layer (some name)) children) :: k.rules }
  | some (_, place) =>
    match k.at? place with
    | some (.block head first) => k.setAt place (some (.block head (first ++ children)))
    | _ => k

/-- Takes an animation, which replaces an earlier one of its name. -/
def Kept.addAnimation (k : Kept) (keyword name : String) (frames : List Frame) : Kept :=
  let r : Rule := .statement (.keyframes keyword name
    (frames.map (fun f ↦ { f with declarations := declarations f.declarations })))
  match k.animations.find? (fun a ↦ a.1 == (keyword, name)) with
  | some (_, place) => k.setAt place (some r)
  | none => { k with
      animations := k.animations ++ [((keyword, name), k.rules.length)]
      rules := some r :: k.rules }

/-- Going through the layers of a list: the names that are declared, and whether a statement can
still take more names. -/
structure LayerPass where
  declared : List String
  opened : Option (List String)
  done : List Rule

def addName (name : String) : List Rule → List Rule
  | [] => []
  | .statement (.layers names) :: rest => .statement (.layers (names ++ [name])) :: rest
  | r :: rest => r :: addName name rest

/-- Takes one more rule; `done` has the last rule first.  An empty block becomes a statement, or
joins the one before it. -/
def LayerPass.step (p : LayerPass) (r : Rule) : LayerPass :=
  match r with
  | .block (.layer none) [] => p
  | .block (.layer (some name)) [] =>
    if p.declared.contains name then p
    else
      let declared := p.declared ++ [name]
      match p.opened with
      | some _ => { p with declared := declared, done := addName name p.done }
      | none => ⟨declared, some [], .statement (.layers [name]) :: p.done⟩
  | .block (.layer _) _ => { p with opened := none, done := r :: p.done }
  | .statement (.imported i) =>
    match i.layer with
    | none => { p with done := r :: p.done }
    | some none => { p with opened := none, done := r :: p.done }
    | some (some name) => ⟨p.declared ++ [name], none, r :: p.done⟩
  | _ => { p with done := r :: p.done }

/-- Makes statements of the empty layers of a list. -/
def layerPass (rules : List Rule) : List Rule :=
  (rules.foldl LayerPass.step ⟨[], none, []⟩).done.reverse

def sameHead (a b : Head) : Bool :=
  match a, b with
  | .media p, .media q => p == q
  | .supports p, .supports q => p == q
  | .container n p, .container m q => n == m && p == q
  | _, _ => false

/-- A conditional block that is dropped once it is minified. -/
def isIdle (head : Head) (children : List Rule) : Bool :=
  children.isEmpty || (match head with
    | .media queries => queries.all MediaQuery.matchesNever
    | _ => false)

/-- Blocks that join their neighbours and go when they are empty. -/
def isConditional : Head → Bool
  | .media _ => true
  | .supports _ => true
  | .container _ _ => true
  | _ => false

/-- Takes one more rule; `inside` minifies the rules of a block. -/
def Kept.step (inside : List Rule → List Rule) (k : Kept) (r : Rule) : Kept :=
  match r with
  | .statement (.layers names) => names.foldl Kept.nameLayer k
  | .statement (.keyframes keyword name frames) => k.addAnimation keyword name frames
  | .statement _ => k.push r
  | .block (.style selectors d) children =>
    k.addStyle (.style selectors (declarations d)) (inside children)
  | .block (.layer (some name)) children => k.addLayer name children
  | .block (.layer none) _ => k.push r
  | .block .startingStyle children =>
    let minified := inside children
    if minified.isEmpty then k else k.push (.block .startingStyle minified)
  | .block head children =>
    if isConditional head then
      let joined : Option Rule := match k.rules with
        | some (.block last first) :: _ =>
          if sameHead last head then some (.block last (inside (first ++ children))) else none
        | _ => none
      match joined with
      | some j => { k with rules := some j :: k.rules.tail }
      | none =>
        let minified := inside children
        if isIdle head minified then k else k.push (.block head minified)
    else k.push (.block head (inside children))

def insideLayers (inside : List Rule → List Rule) (rules : List Rule) : List Rule :=
  rules.map fun r ↦
    match r with
    | .block (.layer name) children => .block (.layer name) (inside children)
    | r => r

/-- Minifies a list of rules whose blocks are nested at most `depth` deep. -/
def rules : Nat → List Rule → List Rule
  | 0, rs => rs
  | depth + 1, rs =>
    let kept := rs.foldl (Kept.step (rules depth)) ⟨[], [], [], []⟩
    let remaining := kept.rules.reverse.filterMap id
    if kept.layers.isEmpty then remaining
    else layerPass (insideLayers (rules depth) remaining)

mutual

def depth : Rule → Nat
  | .statement _ => 0
  | .block _ children => depthOfAll children + 1

def depthOfAll : List Rule → Nat
  | [] => 0
  | r :: rs => max (depth r) (depthOfAll rs)

end

end StyleModules.Css.Minify
