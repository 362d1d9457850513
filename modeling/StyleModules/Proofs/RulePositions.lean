import StyleModules.Css.Rule

/-!
# Positions of rules

A walk enters style rules and the conditional and grouping rules around them.  Every rule that it
meets has a position: the number of a rule in the list, then the number of a rule inside that one,
and so on.  The walk meets each position once, in the order of the positions, which is the order in
which the rules are written: a rule comes before the rules inside it.
-/

namespace StyleModules.Css

/-- The blocks whose rules a walk goes on to. -/
inductive Head.IsEntered : Head → Prop
  | style (selectors : List Selector) (declarations : Declarations) :
      IsEntered (.style selectors declarations)
  | media (queries : List MediaQuery) : IsEntered (.media queries)
  | supports (condition : Condition) : IsEntered (.supports condition)
  | layer (name : Option String) : IsEntered (.layer name)
  | container (name : Option String) (condition : Condition) : IsEntered (.container name condition)
  | mozDocument : IsEntered .mozDocument

theorem Head.isWalked_iff {head : Head} : head.isWalked = true ↔ head.IsEntered := by
  cases head with
  | startingStyle | scopes => exact iff_of_false Bool.false_ne_true nofun
  | style | media | supports | layer | container | mozDocument =>
    exact iff_of_true rfl (by constructor)

theorem Head.isWalked_eq_false_iff {head : Head} : head.isWalked = false ↔ ¬ head.IsEntered := by
  rw [← isWalked_iff, Bool.not_eq_true]

namespace Rule

/-- The rules inside a rule that a walk goes on to. -/
def inside : Rule → List Rule
  | .block (.style _ _) children | .block (.media _) children | .block (.supports _) children
  | .block (.layer _) children | .block (.container _ _) children
  | .block .mozDocument children => children
  | .statement _ | .block .startingStyle _ | .block (.scopes _ _) _ => []

theorem inside_statement (s : Statement) : (Rule.statement s).inside = [] := rfl

theorem inside_block (head : Head) (children : List Rule) :
    (Rule.block head children).inside = if head.isWalked then children else [] := by
  cases head <;> rfl

/-- The rule that a way through numbered rules leads to. -/
def at? : Rule → List Nat → Option Rule
  | r, [] => some r
  | r, n :: way => r.inside[n]?.bind fun next ↦ next.at? way

def atOf? (rules : List Rule) : List Nat → Option Rule
  | [] => none
  | n :: way => rules[n]?.bind fun r ↦ r.at? way

mutual

/-- The rules that a walk meets in a rule with the ways to them, that rule itself included. -/
def met : Rule → List (List Nat × Rule)
  | .statement s => [([], .statement s)]
  | .block head children =>
    ([], .block head children) :: (if head.isWalked then metFrom 0 children else [])

/-- The rules that a walk meets with their positions, if the first rule has some number. -/
def metFrom (first : Nat) : List Rule → List (List Nat × Rule)
  | [] => []
  | r :: rs => r.met.map (fun e ↦ (first :: e.1, e.2)) ++ metFrom (first + 1) rs

end

def metOfAll (rules : List Rule) : List (List Nat × Rule) := metFrom 0 rules

section Positions

variable {x : Rule} {way : List Nat}

theorem met_eq (r : Rule) : r.met = ([], r) :: metFrom 0 r.inside := by
  cases r with
  | statement s => simp [met, inside_statement, metFrom]
  | block head children => cases h : head.isWalked <;> simp [met, inside_block, metFrom, h]

theorem mem_metFrom_cons {first : Nat} {r : Rule} {rs : List Rule} :
    (way, x) ∈ metFrom first (r :: rs) ↔
      (∃ rest, way = first :: rest ∧ (rest, x) ∈ r.met) ∨ (way, x) ∈ metFrom (first + 1) rs := by
  rw [metFrom, List.mem_append, List.mem_map]
  constructor
  · rintro (⟨e, he, heq⟩ | h)
    · obtain ⟨rfl, rfl⟩ := Prod.mk.inj heq
      exact .inl ⟨e.1, rfl, he⟩
    · exact .inr h
  · rintro (⟨rest, rfl, h⟩ | h)
    · exact .inl ⟨_, h, rfl⟩
    · exact .inr h

mutual

/-- A walk meets what stands at some position, and nothing else. -/
theorem mem_met_iff : ∀ (r : Rule) (way : List Nat), (way, x) ∈ r.met ↔ r.at? way = some x
  | .statement s, way => by
    cases way <;> simp [met, at?, inside_statement, eq_comm]
  | .block head children, [] => by
    have hnone : ([], x) ∉ metFrom 0 children := fun h ↦ by
      obtain ⟨n, rest, hway, -⟩ := (mem_metFrom_iff children 0 []).1 h
      simp at hway
    cases h : head.isWalked <;> simp [met, at?, h, hnone, eq_comm]
  | .block head children, n :: way => by
    have hchildren := mem_metFrom_iff children 0 (n :: way)
    cases h : head.isWalked
    · simp [met, at?, inside_block, h]
    · simpa [met, at?, inside_block, h, and_assoc] using hchildren

theorem mem_metFrom_iff : ∀ (rules : List Rule) (first : Nat) (way : List Nat),
    (way, x) ∈ metFrom first rules ↔
      ∃ n rest, way = (first + n) :: rest ∧ (rules[n]?.bind fun r ↦ r.at? rest) = some x
  | [], first, way => by simp [metFrom]
  | r :: rules, first, way => by
    have hrest := mem_metFrom_iff rules (first + 1) way
    rw [mem_metFrom_cons, hrest]
    constructor
    · rintro (⟨rest, rfl, h⟩ | ⟨n, rest, rfl, h⟩)
      · exact ⟨0, rest, rfl, (mem_met_iff r rest).1 h⟩
      · exact ⟨n + 1, rest, by rw [Nat.add_right_comm, Nat.add_assoc], h⟩
    · rintro ⟨_ | n, rest, rfl, h⟩
      · exact .inl ⟨rest, rfl, (mem_met_iff r rest).2 h⟩
      · exact .inr ⟨n, rest, by rw [Nat.add_right_comm, Nat.add_assoc], h⟩

end

theorem mem_metOfAll_iff {rules : List Rule} :
    (way, x) ∈ metOfAll rules ↔ atOf? rules way = some x := by
  rw [metOfAll, mem_metFrom_iff]
  cases way with
  | nil => simp [atOf?]
  | cons n way => simp [atOf?, and_assoc]

mutual

theorem pairwise_met : ∀ r : Rule, r.met.Pairwise fun a b ↦ a.1 < b.1
  | .statement s => List.pairwise_singleton _ _
  | .block head children => by
    rw [met_eq, List.pairwise_cons]
    refine ⟨fun e he ↦ ?_, ?_⟩
    · obtain ⟨way, y⟩ := e
      obtain ⟨n, rest, rfl, -⟩ := (mem_metFrom_iff _ 0 way).1 he
      exact List.nil_lt_cons _ _
    · cases h : head.isWalked
      · simp [inside_block, h, metFrom]
      · simpa [inside_block, h] using pairwise_metFrom children 0

/-- A walk meets the positions in their order, so it meets none of them twice. -/
theorem pairwise_metFrom : ∀ (rules : List Rule) (first : Nat),
    (metFrom first rules).Pairwise fun a b ↦ a.1 < b.1
  | [], _ => List.Pairwise.nil
  | r :: rules, first => by
    rw [metFrom, List.pairwise_append, List.pairwise_map]
    refine ⟨(pairwise_met r).imp fun h ↦ List.cons_lt_cons_iff.2 (.inr ⟨rfl, h⟩),
      pairwise_metFrom rules (first + 1), ?_⟩
    rintro a ha ⟨way, y⟩ hb
    obtain ⟨e, -, rfl⟩ := List.mem_map.1 ha
    obtain ⟨n, rest, rfl, -⟩ := (mem_metFrom_iff rules (first + 1) way).1 hb
    exact List.cons_lt_cons_iff.2 (.inl (by omega))

end

end Positions

/-- The style rule that a block is with its head. -/
def styleOf? : Head → Option Style
  | .style selectors declarations => some ⟨selectors, declarations⟩
  | _ => none

def style? : Rule → Option Style
  | .statement _ => none
  | .block head _ => styleOf? head

@[simp]
theorem style?_block (head : Head) (children : List Rule) :
    (Rule.block head children).style? = styleOf? head := rfl

mutual

/-- The style rules among the rules that a walk meets are those that it collects. -/
theorem filterMap_style?_met : ∀ r : Rule, r.met.filterMap (fun e ↦ e.2.style?) = r.styles
  | .statement s => rfl
  | .block head children => by
    have hchildren := filterMap_style?_metFrom children 0
    cases head <;> simp [met, styles, styleOf?, Head.isWalked, List.filterMap_cons, hchildren]

theorem filterMap_style?_metFrom : ∀ (rules : List Rule) (first : Nat),
    (metFrom first rules).filterMap (fun e ↦ e.2.style?) = stylesOfAll rules
  | [], _ => rfl
  | r :: rules, first => by
    rw [metFrom, List.filterMap_append, List.filterMap_map, filterMap_style?_metFrom rules,
      stylesOfAll, ← filterMap_style?_met r]
    rfl

end

/-- The style rules that a walk meets with their positions. -/
def stylesMet (rules : List Rule) : List (List Nat × Style) :=
  (metOfAll rules).filterMap fun e ↦ e.2.style?.map fun s ↦ (e.1, s)

theorem mem_stylesMet_iff {rules : List Rule} {way : List Nat} {s : Style} :
    (way, s) ∈ stylesMet rules ↔ (atOf? rules way).bind style? = some s := by
  rw [stylesMet, List.mem_filterMap, Option.bind_eq_some_iff]
  constructor
  · rintro ⟨⟨way', r⟩, hr, hs⟩
    obtain ⟨s', hs', heq⟩ := Option.map_eq_some_iff.1 hs
    obtain ⟨rfl, rfl⟩ := Prod.mk.inj heq
    exact ⟨r, mem_metOfAll_iff.1 hr, hs'⟩
  · rintro ⟨r, hr, hs⟩
    exact ⟨(way, r), mem_metOfAll_iff.2 hr, Option.map_eq_some_iff.2 ⟨s, hs, rfl⟩⟩

theorem pairwise_stylesMet (rules : List Rule) :
    (stylesMet rules).Pairwise fun a b ↦ a.1 < b.1 := by
  refine (pairwise_metFrom rules 0).filterMap _ fun a b hab x hx y hy ↦ ?_
  obtain ⟨s, -, rfl⟩ := Option.map_eq_some_iff.1 hx
  obtain ⟨t, -, rfl⟩ := Option.map_eq_some_iff.1 hy
  exact hab

theorem map_snd_stylesMet (rules : List Rule) :
    (stylesMet rules).map Prod.snd = stylesOfAll rules := by
  have hsecond : (fun e : List Nat × Rule ↦
      Option.map Prod.snd (e.2.style?.map fun s ↦ (e.1, s))) = fun e ↦ e.2.style? := by
    funext e
    rw [Option.map_map]
    exact Option.map_id'
  rw [stylesMet, List.map_filterMap, hsecond, metOfAll, filterMap_style?_metFrom]

section Editing

variable {f : Style → Style}

theorem mapStylesOfAll_eq_map (rules : List Rule) :
    mapStylesOfAll f rules = rules.map (mapStyles f) := by
  induction rules with
  | nil => rfl
  | cons r rs ih => rw [mapStylesOfAll, ih, List.map_cons]

theorem inside_mapStyles (r : Rule) : (r.mapStyles f).inside = mapStylesOfAll f r.inside := by
  cases r with
  | statement s => rfl
  | block head children => cases head <;> rfl

theorem style?_mapStyles (r : Rule) : (r.mapStyles f).style? = r.style?.map f := by
  cases r with
  | statement s => rfl
  | block head children => cases head <;> rfl

theorem at?_mapStyles (way : List Nat) (r : Rule) :
    (r.mapStyles f).at? way = (r.at? way).map (mapStyles f) := by
  induction way generalizing r with
  | nil => rfl
  | cons n way ih =>
    rw [at?, at?, inside_mapStyles, mapStylesOfAll_eq_map, List.getElem?_map]
    cases r.inside[n]? with
    | none => rfl
    | some next => exact ih next

/-- Editing the style rules moves no rule. -/
theorem atOf?_mapStylesOfAll (rules : List Rule) (way : List Nat) :
    atOf? (mapStylesOfAll f rules) way = (atOf? rules way).map (mapStyles f) := by
  cases way with
  | nil => rfl
  | cons n way =>
    rw [atOf?, atOf?, mapStylesOfAll_eq_map, List.getElem?_map]
    cases rules[n]? with
    | none => rfl
    | some r => exact at?_mapStyles way r

end Editing

end Rule

end StyleModules.Css
