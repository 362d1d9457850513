import StyleModules.Proofs.StyleEdits

/-!
# Edits of references

A declaration refers to files by the addresses in its value.  If the value is a list of parts, so may
the strings among them, unless these are names.  An edit of the references of a chunk changes these
texts where they stand, in all blocks at any depth.  It changes nothing else: an import that is kept
and a namespace have addresses too, and these stay as they are, like all selectors and conditions.
-/

namespace StyleModules

namespace Css

variable {onQuoted onAddress : String → String}

/-! ## What is edited -/

/-- The same part but for its text if it is a string or an address. -/
inductive Part.Rewritten (onQuoted onAddress : String → String) : Part → Part → Prop
  | quoted (text : String) :
      Rewritten onQuoted onAddress (.token (.quoted text)) (.token (.quoted (onQuoted text)))
  | address (text : String) :
      Rewritten onQuoted onAddress (.address text) (.address (onAddress text))
  | other {p : Part} (hquoted : ∀ text, p ≠ .token (.quoted text))
      (haddress : ∀ text, p ≠ .address text) : Rewritten onQuoted onAddress p p

inductive Image.Rewritten (onAddress : String → String) : Image → Image → Prop
  | none : Rewritten onAddress .none .none
  | address (text : String) : Rewritten onAddress (.address text) (.address (onAddress text))

inductive FontSource.Rewritten (onAddress : String → String) : FontSource → FontSource → Prop
  | address (text : String) (format : Option String) :
      Rewritten onAddress (.address text format) (.address (onAddress text) format)
  | installed (family : Family) : Rewritten onAddress (.installed family) (.installed family)

structure Layer.Rewritten (onAddress : String → String) (l l' : Layer) : Prop where
  color : l'.color = l.color
  image : l.image.Rewritten onAddress l'.image
  repetition : l'.repetition = l.repetition
  attachment : l'.attachment = l.attachment

/-- The same value but for its references. -/
inductive Value.Rewritten (onQuoted onAddress : String → String) : Value → Value → Prop
  | parts {ps ps' : List Part} (h : List.Forall₂ (Part.Rewritten onQuoted onAddress) ps ps') :
      Rewritten onQuoted onAddress (.parts ps) (.parts ps')
  | names {ps ps' : List Part} (h : List.Forall₂ (Part.Rewritten id onAddress) ps ps') :
      Rewritten onQuoted onAddress (.names ps) (.names ps')
  | color (c : Color) : Rewritten onQuoted onAddress (.color c) (.color c)
  | inset (i : Inset) : Rewritten onQuoted onAddress (.inset i) (.inset i)
  | insets (top right bottom left : Inset) :
      Rewritten onQuoted onAddress (.insets top right bottom left) (.insets top right bottom left)
  | keyword (word : String) : Rewritten onQuoted onAddress (.keyword word) (.keyword word)
  | image {i i' : Image} (h : i.Rewritten onAddress i') :
      Rewritten onQuoted onAddress (.image i) (.image i')
  | images {is is' : List Image} (h : List.Forall₂ (Image.Rewritten onAddress) is is') :
      Rewritten onQuoted onAddress (.images is) (.images is')
  | background {ls ls' : List Layer} (h : List.Forall₂ (Layer.Rewritten onAddress) ls ls') :
      Rewritten onQuoted onAddress (.background ls) (.background ls')
  | families (fs : List Family) : Rewritten onQuoted onAddress (.families fs) (.families fs)
  | areas (rows : List String) : Rewritten onQuoted onAddress (.areas rows) (.areas rows)
  | sources {ss ss' : List FontSource} (h : List.Forall₂ (FontSource.Rewritten onAddress) ss ss') :
      Rewritten onQuoted onAddress (.sources ss) (.sources ss')

structure Declaration.Rewritten (onQuoted onAddress : String → String) (d d' : Declaration) :
    Prop where
  name : d'.name = d.name
  value : d.value.Rewritten onQuoted onAddress d'.value

structure Declarations.Rewritten (onQuoted onAddress : String → String) (d d' : Declarations) :
    Prop where
  normal : List.Forall₂ (Declaration.Rewritten onQuoted onAddress) d.normal d'.normal
  important : List.Forall₂ (Declaration.Rewritten onQuoted onAddress) d.important d'.important

structure Frame.Rewritten (onQuoted onAddress : String → String) (f f' : Frame) : Prop where
  selectors : f'.selectors = f.selectors
  declarations : f.declarations.Rewritten onQuoted onAddress f'.declarations

/-- The same statement but for the references in its declarations or parts. -/
inductive Statement.Rewritten (onQuoted onAddress : String → String) :
    Statement → Statement → Prop
  | imported (i : Import) : Rewritten onQuoted onAddress (.imported i) (.imported i)
  | layers (names : List String) : Rewritten onQuoted onAddress (.layers names) (.layers names)
  | names (initial : Option String) (address : String) :
      Rewritten onQuoted onAddress (.names initial address) (.names initial address)
  | fontFace {ds ds' : List Declaration}
      (h : List.Forall₂ (Declaration.Rewritten onQuoted onAddress) ds ds') :
      Rewritten onQuoted onAddress (.fontFace ds) (.fontFace ds')
  | page (selectors : String) {d d' : Declarations} (h : d.Rewritten onQuoted onAddress d') :
      Rewritten onQuoted onAddress (.page selectors d) (.page selectors d')
  | keyframes (keyword name : String) {fs fs' : List Frame}
      (h : List.Forall₂ (Frame.Rewritten onQuoted onAddress) fs fs') :
      Rewritten onQuoted onAddress (.keyframes keyword name fs) (.keyframes keyword name fs')
  | statement (keyword : String) {front front' : List Part}
      (h : List.Forall₂ (Part.Rewritten onQuoted onAddress) front front') :
      Rewritten onQuoted onAddress (.other keyword front none) (.other keyword front' none)
  | block (keyword : String) {front front' block block' : List Part}
      (h : List.Forall₂ (Part.Rewritten onQuoted onAddress) front front')
      (hblock : List.Forall₂ (Part.Rewritten onQuoted onAddress) block block') :
      Rewritten onQuoted onAddress (.other keyword front (some block))
        (.other keyword front' (some block'))

/-- The same rule but for the references in the declarations and statements at any depth. -/
inductive Rule.Rewritten (onQuoted onAddress : String → String) : Rule → Rule → Prop
  | statement {s s' : Statement} (h : s.Rewritten onQuoted onAddress s') :
      Rewritten onQuoted onAddress (.statement s) (.statement s')
  | style (selectors : List Selector) {d d' : Declarations} (h : d.Rewritten onQuoted onAddress d')
      {children children' : List Rule}
      (hchildren : List.Forall₂ (Rewritten onQuoted onAddress) children children') :
      Rewritten onQuoted onAddress (.block (.style selectors d) children)
        (.block (.style selectors d') children')
  | group {head : Head} (hhead : ∀ selectors d, head ≠ .style selectors d)
      {children children' : List Rule}
      (hchildren : List.Forall₂ (Rewritten onQuoted onAddress) children children') :
      Rewritten onQuoted onAddress (.block head children) (.block head children')

theorem Part.rewritten_iff (p p' : Part) :
    p.Rewritten onQuoted onAddress p' ↔ p.mapReferences onQuoted onAddress = p' := by
  constructor
  · intro h
    cases h with
    | quoted | address => rfl
    | other hquoted haddress =>
      unfold mapReferences
      split
      next text => exact absurd rfl (hquoted text)
      next text => exact absurd rfl (haddress text)
      next => rfl
  · rintro rfl
    unfold mapReferences
    split
    next text => exact .quoted text
    next text => exact .address text
    next hquoted haddress => exact .other (fun text h ↦ hquoted text h) fun text h ↦ haddress text h

theorem Image.rewritten_iff (i i' : Image) :
    i.Rewritten onAddress i' ↔ i.mapAddress onAddress = i' := by
  constructor
  · rintro (_ | text) <;> rfl
  · rintro rfl
    cases i <;> constructor

theorem FontSource.rewritten_iff (s s' : FontSource) :
    s.Rewritten onAddress s' ↔ s.mapAddress onAddress = s' := by
  constructor
  · rintro (text | family) <;> rfl
  · rintro rfl
    cases s <;> constructor

theorem Layer.rewritten_iff (l l' : Layer) :
    l.Rewritten onAddress l' ↔ { l with image := l.image.mapAddress onAddress } = l' := by
  obtain ⟨color, image, repetition, attachment⟩ := l
  obtain ⟨color', image', repetition', attachment'⟩ := l'
  constructor
  · rintro ⟨rfl, himage, rfl, rfl⟩
    rw [(Image.rewritten_iff _ _).1 himage]
  · rintro ⟨⟩
    exact ⟨rfl, (Image.rewritten_iff _ _).2 rfl, rfl, rfl⟩

theorem Value.rewritten_iff (v v' : Value) :
    v.Rewritten onQuoted onAddress v' ↔ v.mapReferences onQuoted onAddress = v' := by
  constructor
  · intro h
    cases h with
    | parts h | names h =>
      exact congrArg _ ((forall₂_iff_map_eq Part.rewritten_iff _ _).1 h)
    | image h => exact congrArg _ ((Image.rewritten_iff _ _).1 h)
    | images h => exact congrArg _ ((forall₂_iff_map_eq Image.rewritten_iff _ _).1 h)
    | background h => exact congrArg _ ((forall₂_iff_map_eq Layer.rewritten_iff _ _).1 h)
    | sources h => exact congrArg _ ((forall₂_iff_map_eq FontSource.rewritten_iff _ _).1 h)
    | color | inset | insets | keyword | families | areas => rfl
  · rintro rfl
    cases v with
    | parts ps => exact .parts ((forall₂_iff_map_eq Part.rewritten_iff _ _).2 rfl)
    | names ps => exact .names ((forall₂_iff_map_eq Part.rewritten_iff _ _).2 rfl)
    | image i => exact .image ((Image.rewritten_iff _ _).2 rfl)
    | images is => exact .images ((forall₂_iff_map_eq Image.rewritten_iff _ _).2 rfl)
    | background ls => exact .background ((forall₂_iff_map_eq Layer.rewritten_iff _ _).2 rfl)
    | sources ss => exact .sources ((forall₂_iff_map_eq FontSource.rewritten_iff _ _).2 rfl)
    | color | inset | insets | keyword | families | areas => constructor

theorem Declaration.rewritten_iff (d d' : Declaration) :
    d.Rewritten onQuoted onAddress d' ↔ d.mapReferences onQuoted onAddress = d' := by
  obtain ⟨name, value⟩ := d
  obtain ⟨name', value'⟩ := d'
  constructor
  · rintro ⟨rfl, hvalue⟩
    rw [mapReferences, (Value.rewritten_iff _ _).1 hvalue]
  · rintro ⟨⟩
    exact ⟨rfl, (Value.rewritten_iff _ _).2 rfl⟩

theorem Declarations.rewritten_iff (d d' : Declarations) :
    d.Rewritten onQuoted onAddress d' ↔
      d.map (Declaration.mapReferences onQuoted onAddress) = d' := by
  have hlist : ∀ ds ds' : List Declaration,
      List.Forall₂ (Declaration.Rewritten onQuoted onAddress) ds ds' ↔
        ds.map (Declaration.mapReferences onQuoted onAddress) = ds' :=
    forall₂_iff_map_eq Declaration.rewritten_iff
  obtain ⟨normal, important⟩ := d
  obtain ⟨normal', important'⟩ := d'
  constructor
  · rintro ⟨hnormal, himportant⟩
    rw [map, (hlist _ _).1 hnormal, (hlist _ _).1 himportant]
  · rintro ⟨⟩
    exact ⟨(hlist _ _).2 rfl, (hlist _ _).2 rfl⟩

theorem Frame.rewritten_iff (f f' : Frame) : f.Rewritten onQuoted onAddress f' ↔
    { f with declarations := f.declarations.map (Declaration.mapReferences onQuoted onAddress) } =
      f' := by
  obtain ⟨selectors, declarations⟩ := f
  obtain ⟨selectors', declarations'⟩ := f'
  constructor
  · rintro ⟨rfl, hdeclarations⟩
    rw [(Declarations.rewritten_iff _ _).1 hdeclarations]
  · rintro ⟨⟩
    exact ⟨rfl, (Declarations.rewritten_iff _ _).2 rfl⟩

theorem Statement.rewritten_iff (s s' : Statement) :
    s.Rewritten onQuoted onAddress s' ↔ s.mapReferences onQuoted onAddress = s' := by
  have hparts : ∀ ps ps' : List Part,
      List.Forall₂ (Part.Rewritten onQuoted onAddress) ps ps' ↔
        ps.map (Part.mapReferences onQuoted onAddress) = ps' :=
    forall₂_iff_map_eq Part.rewritten_iff
  constructor
  · intro h
    cases h with
    | imported | layers | names => rfl
    | fontFace h => exact congrArg _ ((forall₂_iff_map_eq Declaration.rewritten_iff _ _).1 h)
    | page selectors h => exact congrArg _ ((Declarations.rewritten_iff _ _).1 h)
    | keyframes keyword name h =>
      exact congrArg _ ((forall₂_iff_map_eq Frame.rewritten_iff _ _).1 h)
    | statement keyword h => rw [mapReferences, (hparts _ _).1 h, Option.map_none]
    | block keyword h hblock =>
      rw [mapReferences, (hparts _ _).1 h, Option.map_some, (hparts _ _).1 hblock]
  · rintro rfl
    cases s with
    | imported i => exact .imported i
    | layers names => exact .layers names
    | names initial address => exact .names initial address
    | fontFace ds => exact .fontFace ((forall₂_iff_map_eq Declaration.rewritten_iff _ _).2 rfl)
    | page selectors d => exact .page selectors ((Declarations.rewritten_iff _ _).2 rfl)
    | keyframes keyword name fs =>
      exact .keyframes keyword name ((forall₂_iff_map_eq Frame.rewritten_iff _ _).2 rfl)
    | other keyword front block =>
      cases block with
      | none => exact .statement keyword ((hparts _ _).2 rfl)
      | some block => exact .block keyword ((hparts _ _).2 rfl) ((hparts _ _).2 rfl)

mutual

theorem Rule.rewritten_iff : ∀ r r' : Rule,
    r.Rewritten onQuoted onAddress r' ↔ r.mapReferences onQuoted onAddress = r'
  | .statement s, r' => by
    constructor
    · rintro ⟨h⟩
      exact congrArg _ ((Statement.rewritten_iff _ _).1 h)
    · rintro rfl
      exact .statement ((Statement.rewritten_iff _ _).2 rfl)
  | .block head children, r' => by
    have hinner := Rule.forall₂_rewritten_iff children
    constructor
    · intro h
      cases h with
      | style selectors h hchildren =>
        rw [Rule.mapReferences, Head.mapReferences, (Declarations.rewritten_iff _ _).1 h,
          (hinner _).1 hchildren]
      | group hhead hchildren =>
        have hsame : head.mapReferences onQuoted onAddress = head := by
          cases head with
          | style selectors d => exact absurd rfl (hhead selectors d)
          | _ => rfl
        rw [Rule.mapReferences, hsame, (hinner _).1 hchildren]
    · rintro rfl
      cases head with
      | style selectors d =>
        exact .style selectors ((Declarations.rewritten_iff _ _).2 rfl) ((hinner _).2 rfl)
      | _ => exact .group (by simp) ((hinner _).2 rfl)

theorem Rule.forall₂_rewritten_iff : ∀ rules rules' : List Rule,
    List.Forall₂ (Rule.Rewritten onQuoted onAddress) rules rules' ↔
      Rule.mapReferencesOfAll onQuoted onAddress rules = rules'
  | [], rules' => forall₂_nil_iff_eq rules'
  | r :: rules, rules' =>
    forall₂_cons_iff_eq (Rule.rewritten_iff r) (Rule.forall₂_rewritten_iff rules) rules'

end

/-! ## The addresses that are edited -/

def Part.addresses : Part → List String
  | address text => [text]
  | _ => []

def Image.addresses : Image → List String
  | none => []
  | address text => [text]

def FontSource.addresses : FontSource → List String
  | address text _ => [text]
  | installed _ => []

def Value.addresses : Value → List String
  | parts list | names list => list.flatMap Part.addresses
  | image i => i.addresses
  | images list => list.flatMap Image.addresses
  | background layers => layers.flatMap fun l ↦ l.image.addresses
  | sources list => list.flatMap FontSource.addresses
  | _ => []

def Declaration.addresses (d : Declaration) : List String := d.value.addresses

def Declarations.addresses (d : Declarations) : List String :=
  d.normal.flatMap Declaration.addresses ++ d.important.flatMap Declaration.addresses

/-- The address that a statement names by itself, if it is an import or a namespace. -/
def Statement.linked : Statement → List String
  | imported i => [i.address]
  | names _ address => [address]
  | _ => []

/-- The addresses in the declarations or parts of a statement. -/
def Statement.mentioned : Statement → List String
  | imported _ | layers _ | names _ _ => []
  | fontFace properties => properties.flatMap Declaration.addresses
  | page _ declarations => declarations.addresses
  | keyframes _ _ frames => frames.flatMap fun f ↦ f.declarations.addresses
  | other _ front block =>
    front.flatMap Part.addresses ++ (block.getD []).flatMap Part.addresses

def Statement.addresses (s : Statement) : List String := s.linked ++ s.mentioned

def Head.addresses : Head → List String
  | style _ declarations => declarations.addresses
  | _ => []

mutual

/-- What is found in the statements and heads of a rule, at any depth and in document order. -/
def Rule.gather (inStatement : Statement → List String) (inHead : Head → List String) :
    Rule → List String
  | .statement s => inStatement s
  | .block head children => inHead head ++ Rule.gatherOfAll inStatement inHead children

def Rule.gatherOfAll (inStatement : Statement → List String) (inHead : Head → List String) :
    List Rule → List String
  | [] => []
  | r :: rs => r.gather inStatement inHead ++ Rule.gatherOfAll inStatement inHead rs

end

section Addresses

variable (onQuoted onAddress : String → String)

theorem flatMap_addresses {α : Type} {addresses : α → List String} {change : α → α}
    (h : ∀ x, addresses (change x) = (addresses x).map onAddress) (xs : List α) :
    (xs.map change).flatMap addresses = (xs.flatMap addresses).map onAddress := by
  rw [List.flatMap_map, List.map_flatMap]
  exact List.flatMap_congr fun x _ ↦ h x

theorem Part.addresses_mapReferences (p : Part) :
    (p.mapReferences onQuoted onAddress).addresses = p.addresses.map onAddress := by
  cases p with
  | token t => cases t <;> rfl
  | address text => rfl
  | color c => rfl

theorem Image.addresses_mapAddress (i : Image) :
    (i.mapAddress onAddress).addresses = i.addresses.map onAddress := by
  cases i <;> rfl

theorem FontSource.addresses_mapAddress (s : FontSource) :
    (s.mapAddress onAddress).addresses = s.addresses.map onAddress := by
  cases s <;> rfl

theorem Declaration.addresses_mapReferences (d : Declaration) :
    (d.mapReferences onQuoted onAddress).addresses = d.addresses.map onAddress := by
  obtain ⟨name, value⟩ := d
  cases value with
  | parts list => exact flatMap_addresses _ (Part.addresses_mapReferences onQuoted onAddress) list
  | names list => exact flatMap_addresses _ (Part.addresses_mapReferences id onAddress) list
  | image i => exact i.addresses_mapAddress onAddress
  | images list => exact flatMap_addresses _ (Image.addresses_mapAddress onAddress) list
  | background layers =>
    exact flatMap_addresses _ (fun l : Layer ↦ l.image.addresses_mapAddress onAddress) layers
  | sources list => exact flatMap_addresses _ (FontSource.addresses_mapAddress onAddress) list
  | _ => rfl

theorem Declarations.addresses_mapReferences (d : Declarations) :
    (d.map (Declaration.mapReferences onQuoted onAddress)).addresses =
      d.addresses.map onAddress := by
  have hlist := flatMap_addresses onAddress (Declaration.addresses_mapReferences onQuoted onAddress)
  rw [addresses, map, hlist, hlist, addresses, List.map_append]

theorem Statement.linked_mapReferences (s : Statement) :
    (s.mapReferences onQuoted onAddress).linked = s.linked := by
  cases s <;> rfl

theorem Statement.mentioned_mapReferences (s : Statement) :
    (s.mapReferences onQuoted onAddress).mentioned = s.mentioned.map onAddress := by
  have hparts := flatMap_addresses onAddress (Part.addresses_mapReferences onQuoted onAddress)
  cases s with
  | fontFace properties =>
    exact flatMap_addresses _ (Declaration.addresses_mapReferences onQuoted onAddress) properties
  | page selectors d => exact d.addresses_mapReferences onQuoted onAddress
  | keyframes keyword name frames =>
    exact flatMap_addresses _
      (fun f : Frame ↦ f.declarations.addresses_mapReferences onQuoted onAddress) frames
  | other keyword front block =>
    cases block <;>
      simp only [mapReferences, mentioned, hparts, List.map_append, Option.map_none, Option.map_some,
        Option.getD_none, Option.getD_some, List.flatMap_nil, List.map_nil]
  | _ => rfl

theorem Head.addresses_mapReferences (h : Head) :
    (h.mapReferences onQuoted onAddress).addresses = h.addresses.map onAddress := by
  cases h with
  | style selectors d => exact d.addresses_mapReferences onQuoted onAddress
  | _ => rfl

variable {onQuoted onAddress} {R : String → String → Prop}
  {inStatement : Statement → List String} {inHead : Head → List String}

mutual

theorem Rule.gather_mapReferences
    (hstatement : ∀ s : Statement, List.Forall₂ R (inStatement s)
      (inStatement (s.mapReferences onQuoted onAddress)))
    (hhead : ∀ h : Head, List.Forall₂ R (inHead h) (inHead (h.mapReferences onQuoted onAddress))) :
    ∀ r : Rule, List.Forall₂ R (r.gather inStatement inHead)
      ((r.mapReferences onQuoted onAddress).gather inStatement inHead)
  | .statement s => hstatement s
  | .block head children =>
    List.rel_append (hhead head) (Rule.gatherOfAll_mapReferencesOfAll hstatement hhead children)

/-- What becomes of the texts in each statement and head becomes of those in all rules. -/
theorem Rule.gatherOfAll_mapReferencesOfAll
    (hstatement : ∀ s : Statement, List.Forall₂ R (inStatement s)
      (inStatement (s.mapReferences onQuoted onAddress)))
    (hhead : ∀ h : Head, List.Forall₂ R (inHead h) (inHead (h.mapReferences onQuoted onAddress))) :
    ∀ rules : List Rule, List.Forall₂ R (Rule.gatherOfAll inStatement inHead rules)
      (Rule.gatherOfAll inStatement inHead (Rule.mapReferencesOfAll onQuoted onAddress rules))
  | [] => .nil
  | r :: rules =>
    List.rel_append (Rule.gather_mapReferences hstatement hhead r)
      (Rule.gatherOfAll_mapReferencesOfAll hstatement hhead rules)

end

end Addresses

end Css

namespace StyleChunk

/-- The same chunk but for its references. -/
structure Rewritten (onQuoted onAddress : String → String) (c c' : StyleChunk) : Prop where
  file : c'.file = c.file
  comments : c'.sheet.comments = c.sheet.comments
  rules : List.Forall₂ (Css.Rule.Rewritten onQuoted onAddress) c.sheet.rules c'.sheet.rules

def addresses (c : StyleChunk) : List String :=
  Css.Rule.gatherOfAll Css.Statement.addresses Css.Head.addresses c.sheet.rules

/-- The addresses in the declarations and free-form parts of a chunk. -/
def mentioned (c : StyleChunk) : List String :=
  Css.Rule.gatherOfAll Css.Statement.mentioned Css.Head.addresses c.sheet.rules

/-- The addresses that the imports and namespaces of a chunk name. -/
def linked (c : StyleChunk) : List String :=
  Css.Rule.gatherOfAll Css.Statement.linked (fun _ ↦ []) c.sheet.rules

variable {onQuoted onAddress : String → String}

theorem rewritten_iff {c c' : StyleChunk} : c.Rewritten onQuoted onAddress c' ↔
    c' = c.mapRules (Css.Rule.mapReferencesOfAll onQuoted onAddress) := by
  obtain ⟨file, comments, rules⟩ := c
  obtain ⟨file', comments', rules'⟩ := c'
  constructor
  · rintro ⟨rfl, rfl, hrules⟩
    rw [mapRules, (Css.Rule.forall₂_rewritten_iff _ _).1 hrules]
  · rintro ⟨⟩
    exact ⟨rfl, rfl, (Css.Rule.forall₂_rewritten_iff _ _).2 rfl⟩

theorem Rewritten.mentioned_eq {c c' : StyleChunk} (h : c.Rewritten onQuoted onAddress c') :
    c'.mentioned = c.mentioned.map onAddress := by
  obtain rfl := rewritten_iff.1 h
  refine ((forall₂_iff_map_eq (fun _ _ ↦ Iff.rfl) _ _).1
    (Css.Rule.gatherOfAll_mapReferencesOfAll (fun s ↦ ?_) (fun head ↦ ?_) c.sheet.rules)).symm
  · rw [s.mentioned_mapReferences]
    exact (forall₂_iff_map_eq (fun _ _ ↦ Iff.rfl) _ _).2 rfl
  · rw [head.addresses_mapReferences]
    exact (forall₂_iff_map_eq (fun _ _ ↦ Iff.rfl) _ _).2 rfl

theorem Rewritten.linked_eq {c c' : StyleChunk} (h : c.Rewritten onQuoted onAddress c') :
    c'.linked = c.linked := by
  obtain rfl := rewritten_iff.1 h
  refine (List.forall₂_eq_eq_eq ▸ Css.Rule.gatherOfAll_mapReferencesOfAll (R := Eq) (fun s ↦ ?_)
    (fun _ ↦ .nil) c.sheet.rules : _ = _).symm
  rw [s.linked_mapReferences]
  exact List.forall₂_refl _

/-- An address is changed by the function, or it is left as it is. -/
theorem Rewritten.forall₂_addresses {c c' : StyleChunk} (h : c.Rewritten onQuoted onAddress c') :
    List.Forall₂ (fun text text' ↦ text' = text ∨ text' = onAddress text)
      c.addresses c'.addresses := by
  obtain rfl := rewritten_iff.1 h
  refine Css.Rule.gatherOfAll_mapReferencesOfAll (fun s ↦ ?_) (fun head ↦ ?_) c.sheet.rules
  · rw [Css.Statement.addresses, Css.Statement.addresses, s.linked_mapReferences,
      s.mentioned_mapReferences]
    exact List.rel_append (List.forall₂_same.2 fun _ _ ↦ .inl rfl)
      (List.forall₂_map_right_iff.2 (List.forall₂_same.2 fun _ _ ↦ .inr rfl))
  · rw [head.addresses_mapReferences]
    exact List.forall₂_map_right_iff.2 (List.forall₂_same.2 fun _ _ ↦ .inr rfl)

end StyleChunk

end StyleModules
