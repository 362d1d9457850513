import Mathlib.Data.List.Forall2
import StyleModules.Proofs.RulePositions
import StyleModules.Transform.DiscardEmpty

/-!
# Filtering rules

Filtering goes through a tree of rules from the inside to the outside.  Every rule that a walk meets
is tested once, after the rules inside it were filtered, and what is left are the rules that passed,
in their order and with what is left inside them.  They would all pass again, so filtering twice is
filtering once.

Blocks in which nothing is left are discarded this way.  No empty block remains where a walk comes,
and no declaration is lost: each one stands under the same rules as before, and in the same order.
Starting styles and scopes are not entered; they stay as they are, with all that they hold.
-/

namespace StyleModules.Css.Rule

variable {keep : Rule → Bool}

/-! ## Testing with effects -/

section Effects

variable {m : Type → Type} [Monad m]

mutual

/-- Filters the rules inside a rule by a test that can have effects. -/
def retainInsideM (keep : Rule → m Bool) : Rule → m Rule
  | .statement s => pure (.statement s)
  | .block head children =>
    if head.isWalked then do return .block head (← retainM keep children)
    else pure (.block head children)

def retainInsidesM (keep : Rule → m Bool) : List Rule → m (List Rule)
  | [] => pure []
  | r :: rs => do return (← retainInsideM keep r) :: (← retainInsidesM keep rs)

/-- Filters rules by a test that can have effects: first the inside of each rule, then the rules. -/
def retainM (keep : Rule → m Bool) : List Rule → m (List Rule)
  | [] => pure []
  | r :: rs => do List.filterM keep ((← retainInsideM keep r) :: (← retainInsidesM keep rs))

end

end Effects

/-- A test that writes down what it is asked for. -/
def logged (keep : Rule → Bool) (r : Rule) : StateM (List Rule) Bool := do
  modify (· ++ [r])
  return keep r

theorem run_filterAuxM_logged (rs kept log : List Rule) :
    (List.filterAuxM (logged keep) rs kept).run log =
      pure ((rs.filter keep).reverse ++ kept, log ++ rs) := by
  induction rs generalizing kept log with
  | nil => simp [List.filterAuxM]
  | cons r rs ih =>
    cases h : keep r <;> simp [List.filterAuxM, logged, h, ih]

theorem run_filterM_logged (rs log : List Rule) :
    (List.filterM (logged keep) rs).run log = pure (rs.filter keep, log ++ rs) := by
  simp [List.filterM, run_filterAuxM_logged]

theorem retain_eq_filter (rules : List Rule) :
    retain keep rules = (rules.map (retainInside keep)).filter keep := by
  induction rules with
  | nil => rfl
  | cons r rs ih => rw [retain, List.map_cons, List.filter_cons, ih]

mutual

theorem run_retainInsideM_logged : ∀ (r : Rule) (log : List Rule),
    (retainInsideM (logged keep) r).run log =
      pure (retainInside keep r, log ++ testedInside keep r)
  | .statement s, log => by simp [retainInsideM, retainInside, testedInside]
  | .block head children, log => by
    have hchildren := run_retainM_logged children log
    cases h : head.isWalked <;>
      simp [retainInsideM, retainInside, testedInside, h, hchildren]

theorem run_retainInsidesM_logged : ∀ (rules log : List Rule),
    (retainInsidesM (logged keep) rules).run log =
      pure (rules.map (retainInside keep), log ++ testedInsides keep rules)
  | [], log => by simp [retainInsidesM, testedInsides]
  | r :: rs, log => by
    simp [retainInsidesM, testedInsides, run_retainInsideM_logged r, run_retainInsidesM_logged rs]

/-- Filtering with a test that writes down what it is asked for leaves the same rules, and the tests
are those that are listed. -/
theorem run_retainM_logged : ∀ (rules log : List Rule),
    (retainM (logged keep) rules).run log = pure (retain keep rules, log ++ tested keep rules)
  | [], log => by simp [retainM, retain, tested]
  | r :: rs, log => by
    simp [retainM, tested, retain_eq_filter, run_retainInsideM_logged r,
      run_retainInsidesM_logged rs, run_filterM_logged]

end

theorem tested_eq (rules : List Rule) :
    tested keep rules = testedInsides keep rules ++ rules.map (retainInside keep) := by
  cases rules with
  | nil => rfl
  | cons r rs => rfl

mutual

theorem testedInside_perm : ∀ r : Rule, (testedInside keep r).Perm
    ((metFrom 0 r.inside).map fun e ↦ retainInside keep e.2)
  | .statement s => List.Perm.nil
  | .block head children => by
    cases h : head.isWalked
    · simp [testedInside, inside_block, metFrom, h]
    · simpa [testedInside, inside_block, h, tested_eq] using testedInsides_perm children 0

theorem testedInsides_perm : ∀ (rules : List Rule) (first : Nat),
    (testedInsides keep rules ++ rules.map (retainInside keep)).Perm
      ((metFrom first rules).map fun e ↦ retainInside keep e.2)
  | [], _ => List.Perm.nil
  | r :: rs, first => by
    have hmet : (metFrom first (r :: rs)).map (fun e ↦ retainInside keep e.2) =
        retainInside keep r :: (((metFrom 0 r.inside).map fun e ↦ retainInside keep e.2) ++
          (metFrom (first + 1) rs).map fun e ↦ retainInside keep e.2) := by
      simp [metFrom, met_eq, Function.comp_def]
    rw [hmet, testedInsides, List.map_cons]
    refine List.perm_middle.trans (List.Perm.cons _ ?_)
    rw [List.append_assoc]
    exact (testedInside_perm r).append (testedInsides_perm rs (first + 1))

end

/-- Every rule that a walk meets is tested once, after the rules inside it were filtered. -/
theorem tested_perm (rules : List Rule) :
    (tested keep rules).Perm ((metOfAll rules).map fun e ↦ retainInside keep e.2) :=
  tested_eq rules ▸ testedInsides_perm rules 0

/-! ## What is left -/

mutual

/-- What is left of a rule once the rules inside it are filtered. -/
inductive LeftInside (keep : Rule → Bool) : Rule → Rule → Prop
  | statement (s : Statement) : LeftInside keep (.statement s) (.statement s)
  | walked {head : Head} (hentered : head.IsEntered) {children left : List Rule}
      (h : Left keep children left) : LeftInside keep (.block head children) (.block head left)
  | apart {head : Head} (hentered : ¬ head.IsEntered) (children : List Rule) :
      LeftInside keep (.block head children) (.block head children)

/-- What is left of some rules: those that pass with what is left inside them. -/
inductive Left (keep : Rule → Bool) : List Rule → List Rule → Prop
  | nil : Left keep [] []
  | kept {r r' : Rule} {rs rs' : List Rule} (hinside : LeftInside keep r r')
      (hkeep : keep r' = true) (hrest : Left keep rs rs') : Left keep (r :: rs) (r' :: rs')
  | removed {r r' : Rule} {rs rs' : List Rule} (hinside : LeftInside keep r r')
      (hkeep : keep r' = false) (hrest : Left keep rs rs') : Left keep (r :: rs) rs'

end

mutual

theorem leftInside_iff : ∀ r r' : Rule, LeftInside keep r r' ↔ retainInside keep r = r'
  | .statement s, r' => by
    constructor
    · intro h
      cases h
      rfl
    · rintro rfl
      exact .statement s
  | .block head children, r' => by
    have hchildren := left_iff children
    cases hwalked : head.isWalked
    · have hapart : ¬ head.IsEntered := Head.isWalked_eq_false_iff.1 hwalked
      rw [retainInside, if_neg (by simp [hwalked])]
      constructor
      · intro h
        cases h with
        | walked hentered _ => exact absurd hentered hapart
        | apart => rfl
      · rintro rfl
        exact .apart hapart children
    · have hentered : head.IsEntered := Head.isWalked_iff.1 hwalked
      rw [retainInside, if_pos hwalked]
      constructor
      · intro h
        cases h with
        | walked _ h => rw [(hchildren _).1 h]
        | apart hapart _ => exact absurd hentered hapart
      · rintro rfl
        exact .walked hentered ((hchildren _).2 rfl)

/-- Filtering leaves exactly what is left from the inside to the outside. -/
theorem left_iff : ∀ rules rules' : List Rule, Left keep rules rules' ↔ retain keep rules = rules'
  | [], rules' => by
    constructor
    · intro h
      cases h
      rfl
    · rintro rfl
      exact .nil
  | r :: rs, rules' => by
    have hinside := leftInside_iff r
    have hrest := left_iff rs
    rw [retain]
    constructor
    · intro h
      cases h with
      | kept h hkeep hrs =>
        obtain rfl := (hinside _).1 h
        rw [if_pos hkeep, (hrest _).1 hrs]
      | removed h hkeep hrs =>
        obtain rfl := (hinside _).1 h
        rw [if_neg (by simp [hkeep]), (hrest _).1 hrs]
    · rintro rfl
      split
      next hkeep => exact .kept ((hinside _).2 rfl) hkeep ((hrest _).2 rfl)
      next hkeep =>
        exact .removed ((hinside _).2 rfl) (by simpa using hkeep) ((hrest _).2 rfl)

end

theorem inside_retainInside (r : Rule) : (retainInside keep r).inside = retain keep r.inside := by
  cases r with
  | statement s => rfl
  | block head children => cases h : head.isWalked <;> simp [retainInside, inside_block, retain, h]

/-- Whatever is left passes, as it is in the end. -/
theorem keep_of_atOf?_retain {x : Rule} : ∀ (way : List Nat) {rules : List Rule},
    atOf? (retain keep rules) way = some x → keep x = true
  | [], _, h => by simp [atOf?] at h
  | n :: way, rules, h => by
    rw [atOf?, retain_eq_filter, Option.bind_eq_some_iff] at h
    obtain ⟨y, hy, hx⟩ := h
    obtain ⟨hmem, hkeep⟩ := List.mem_filter.1 (List.mem_of_getElem? hy)
    obtain ⟨r, -, rfl⟩ := List.mem_map.1 hmem
    cases way with
    | nil =>
      obtain rfl := Option.some.inj hx
      exact hkeep
    | cons k way =>
      rw [at?, inside_retainInside] at hx
      exact keep_of_atOf?_retain (k :: way) hx

mutual

theorem retainInside_eq_self : ∀ r : Rule,
    (∀ way x, atOf? r.inside way = some x → keep x = true) → retainInside keep r = r
  | .statement s, _ => rfl
  | .block head children, h => by
    cases hwalked : head.isWalked
    · simp [retainInside, hwalked]
    · simp only [inside_block, hwalked, if_true] at h
      simp [retainInside, hwalked, retain_eq_self children h]

theorem retain_eq_self : ∀ rules : List Rule,
    (∀ way x, atOf? rules way = some x → keep x = true) → retain keep rules = rules
  | [], _ => rfl
  | r :: rs, h => by
    have hfirst : keep r = true := h [0] r rfl
    have hinside : retainInside keep r = r := retainInside_eq_self r fun way x hx ↦ by
      cases way with
      | nil => simp [atOf?] at hx
      | cons n way => exact h (0 :: n :: way) x hx
    have hrest : retain keep rs = rs := retain_eq_self rs fun way x hx ↦ by
      cases way with
      | nil => simp [atOf?] at hx
      | cons n way => exact h ((n + 1) :: way) x hx
    rw [retain, hinside, if_pos hfirst, hrest]

end

/-- Filtering changes nothing exactly where every rule that a walk meets passes. -/
theorem retain_eq_self_iff {rules : List Rule} :
    retain keep rules = rules ↔ ∀ way x, atOf? rules way = some x → keep x = true :=
  ⟨fun h way _ hx ↦ keep_of_atOf?_retain way (h.symm ▸ hx), retain_eq_self rules⟩

theorem retain_retain (rules : List Rule) : retain keep (retain keep rules) = retain keep rules :=
  retain_eq_self_iff.2 fun way _ ↦ keep_of_atOf?_retain way

/-- A rule is another one or stands somewhere inside it, whatever the blocks in between. -/
inductive StandsIn (x : Rule) : Rule → Prop
  | here : StandsIn x x
  | inside {head : Head} {children : List Rule} {r : Rule} (hr : r ∈ children) (h : StandsIn x r) :
      StandsIn x (.block head children)

/-- A rule stands inside another one, in a block that a walk does not enter. -/
inductive IsHidden (x : Rule) : Rule → Prop
  | apart {head : Head} (hentered : ¬ head.IsEntered) {children : List Rule} {r : Rule}
      (hr : r ∈ children) (h : StandsIn x r) : IsHidden x (.block head children)
  | inside {head : Head} {children : List Rule} {r : Rule} (hr : r ∈ children)
      (h : IsHidden x r) : IsHidden x (.block head children)

theorem IsHidden.standsIn {x r : Rule} (h : x.IsHidden r) : x.StandsIn r := by
  induction h with
  | apart _ hr h => exact .inside hr h
  | inside hr _ ih => exact .inside hr ih

/-- A rule stands where a walk meets it, or it is hidden. -/
theorem StandsIn.met_or_isHidden {x r : Rule} (h : x.StandsIn r) :
    (∃ way, r.at? way = some x) ∨ x.IsHidden r := by
  induction h with
  | here => exact .inl ⟨[], rfl⟩
  | @inside head children r hr h ih =>
    cases hwalked : head.isWalked with
    | false => exact .inr (.apart (Head.isWalked_eq_false_iff.1 hwalked) hr h)
    | true =>
      refine ih.imp (fun ⟨way, hway⟩ ↦ ?_) (.inside hr)
      obtain ⟨n, hn⟩ := List.mem_iff_getElem?.1 hr
      exact ⟨n :: way, by rw [at?, inside_block, if_pos hwalked, hn, Option.bind_some, hway]⟩

theorem isHidden_block_iff {x : Rule} {head : Head} {children : List Rule}
    (hentered : head.IsEntered) :
    x.IsHidden (.block head children) ↔ ∃ r ∈ children, x.IsHidden r := by
  constructor
  · intro h
    cases h with
    | apart hapart _ _ => exact absurd hentered hapart
    | inside hr h => exact ⟨_, hr, h⟩
  · rintro ⟨r, hr, h⟩
    exact .inside hr h

end StyleModules.Css.Rule

namespace StyleModules.Css

/-- The declarations in a statement in the order they are written. -/
def Statement.declarations : Statement → List Declaration
  | .fontFace properties => properties
  | .page _ declarations => declarations.all
  | .keyframes _ _ frames => frames.flatMap fun f ↦ f.declarations.all
  | _ => []

namespace Rule

mutual

/-- The declarations in a rule in the order they are written, each with the rules that it stands in,
the outermost first.  A rule is told by what stands in front of its block.  All blocks are entered. -/
def declared (above : List Rule) : Rule → List (List Rule × Declaration)
  | .statement s => s.declarations.map fun d ↦ (above ++ [.statement s], d)
  | .block head children =>
    (head.declarations.all.map fun d ↦ (above ++ [.block head []], d))
      ++ declaredOfAll (above ++ [.block head []]) children

/-- The declarations in some rules, each with the rules that it stands in. -/
def declaredOfAll (above : List Rule) : List Rule → List (List Rule × Declaration)
  | [] => []
  | r :: rs => r.declared above ++ declaredOfAll above rs

end

/-- There is nothing in the rule: a style rule without declarations and without rules, a block of
conditional or grouped rules without rules, a font without properties. -/
inductive IsHollow : Rule → Prop
  | style (selectors : List Selector) : IsHollow (.block (.style selectors .empty) [])
  | media (queries : List MediaQuery) : IsHollow (.block (.media queries) [])
  | supports (condition : Condition) : IsHollow (.block (.supports condition) [])
  | layer (name : Option String) : IsHollow (.block (.layer name) [])
  | container (name : Option String) (condition : Condition) :
      IsHollow (.block (.container name condition) [])
  | mozDocument : IsHollow (.block .mozDocument [])
  | fontFace : IsHollow (.statement (.fontFace []))

theorem IsHollow.declared_eq {r : Rule} (h : r.IsHollow) (above : List Rule) :
    r.declared above = [] := by
  cases h <;> rfl

theorem IsHollow.not_isHidden {x r : Rule} (h : r.IsHollow) : ¬ x.IsHidden r := by
  rintro (⟨-, hr, -⟩ | ⟨hr, -⟩)
  all_goals
    cases h
    all_goals exact List.not_mem_nil hr

end Rule

end StyleModules.Css

/-! ## Discarding -/

namespace StyleModules.Transform.DiscardEmpty

open Css

/-- The rules that are discarded are those with nothing in them. -/
theorem keeps_eq_false_iff (r : Rule) : keeps r = false ↔ r.IsHollow := by
  constructor
  · intro h
    match r with
    | .block (.style selectors ⟨normal, important⟩) children =>
      simp only [keeps, Declarations.isEmpty, Bool.or_eq_false_iff, Bool.not_eq_false',
        Bool.and_eq_true, List.isEmpty_iff] at h
      obtain ⟨⟨rfl, rfl⟩, rfl⟩ := h
      exact .style selectors
    | .block (.media _) children | .block (.supports _) children | .block (.layer _) children
    | .block (.container _ _) children | .block .mozDocument children =>
      obtain rfl : children = [] := by simpa [keeps, Head.isWalked] using h
      constructor
    | .block .startingStyle children | .block (.scopes _ _) children =>
      simp [keeps, Head.isWalked] at h
    | .statement (.fontFace properties) =>
      obtain rfl : properties = [] := by simpa [keeps] using h
      exact .fontFace
    | .statement (.imported _) | .statement (.layers _) | .statement (.names _ _)
    | .statement (.page _ _) | .statement (.keyframes _ _ _) | .statement (.other _ _ _) =>
      simp [keeps] at h
  · intro h
    cases h <;> rfl

mutual

theorem declared_retainInside : ∀ (r : Rule) (above : List Rule),
    (Rule.retainInside keeps r).declared above = r.declared above
  | .statement s, _ => rfl
  | .block head children, above => by
    cases h : head.isWalked <;>
      simp [Rule.retainInside, Rule.declared, h, declaredOfAll_retain children]

/-- Discarding what is empty loses no declaration and moves none. -/
theorem declaredOfAll_retain : ∀ (rules above : List Rule),
    Rule.declaredOfAll above (Rule.retain keeps rules) = Rule.declaredOfAll above rules
  | [], _ => rfl
  | r :: rs, above => by
    have hfirst := declared_retainInside r above
    have hrest := declaredOfAll_retain rs above
    rw [Rule.retain]
    split
    next => rw [Rule.declaredOfAll, Rule.declaredOfAll, hfirst, hrest]
    next hkeep =>
      have hhollow := (keeps_eq_false_iff _).1 (by simpa using hkeep)
      rw [hhollow.declared_eq] at hfirst
      rw [Rule.declaredOfAll, ← hfirst, hrest, List.nil_append]

end

variable {x : Rule}

mutual

theorem isHidden_retainInside_iff : ∀ r : Rule,
    x.IsHidden (Rule.retainInside keeps r) ↔ x.IsHidden r
  | .statement s => Iff.rfl
  | .block head children => by
    cases hwalked : head.isWalked with
    | false => rw [Rule.retainInside, if_neg (by simp [hwalked])]
    | true =>
      have hentered : head.IsEntered := Head.isWalked_iff.1 hwalked
      rw [Rule.retainInside, if_pos hwalked, Rule.isHidden_block_iff hentered,
        Rule.isHidden_block_iff hentered, exists_isHidden_retain_iff children]

/-- Discarding reaches no rule that is hidden, and loses none: what it removes is empty. -/
theorem exists_isHidden_retain_iff : ∀ rules : List Rule,
    (∃ r ∈ Rule.retain keeps rules, x.IsHidden r) ↔ ∃ r ∈ rules, x.IsHidden r
  | [] => Iff.rfl
  | r :: rs => by
    have hfirst := isHidden_retainInside_iff r
    have hrest := exists_isHidden_retain_iff rs
    rw [Rule.retain]
    split
    next => simp only [List.exists_mem_cons_iff, hfirst, hrest]
    next hkeep =>
      have hhollow := (keeps_eq_false_iff _).1 (by simpa using hkeep)
      rw [List.exists_mem_cons_iff, hrest, ← hfirst, or_iff_right hhollow.not_isHidden]

end

/-- The same chunk but for what is empty: an empty rule is left only where no walk comes, and all
that stood there is left.  Every declaration still stands under the same rules. -/
structure Cleared (c c' : StyleChunk) : Prop where
  file : c'.file = c.file
  comments : c'.sheet.comments = c.sheet.comments
  not_isHollow : ∀ way r, Rule.atOf? c'.sheet.rules way = some r → ¬ r.IsHollow
  isHollow : ∀ x : Rule, x.IsHollow →
    ((∃ r ∈ c'.sheet.rules, x.StandsIn r) ↔ ∃ r ∈ c.sheet.rules, x.IsHidden r)
  declared : Rule.declaredOfAll [] c'.sheet.rules = Rule.declaredOfAll [] c.sheet.rules

/-- No rule of the chunk is empty, wherever it stands. -/
def IsClear (c : StyleChunk) : Prop :=
  ∀ x : Rule, x.IsHollow → ¬ ∃ r ∈ c.sheet.rules, x.StandsIn r

/-- No rule of the chunk is empty in the blocks that a walk does not enter. -/
def HidesNone (c : StyleChunk) : Prop :=
  ∀ x : Rule, x.IsHollow → ¬ ∃ r ∈ c.sheet.rules, x.IsHidden r

theorem Cleared.isClear_iff {c c' : StyleChunk} (h : Cleared c c') : IsClear c' ↔ HidesNone c :=
  forall₂_congr fun x hx ↦ not_congr (h.isHollow x hx)

theorem not_isHollow_of_atOf?_retain {rules : List Rule} {way : List Nat}
    (h : Rule.atOf? (Rule.retain keeps rules) way = some x) : ¬ x.IsHollow := fun hhollow ↦ by
  have hkeep : keeps x = true := Rule.keep_of_atOf?_retain way h
  rw [(keeps_eq_false_iff x).2 hhollow] at hkeep
  exact Bool.false_ne_true hkeep

theorem exists_standsIn_retain_iff {rules : List Rule} (hhollow : x.IsHollow) :
    (∃ r ∈ Rule.retain keeps rules, x.StandsIn r) ↔ ∃ r ∈ rules, x.IsHidden r := by
  rw [← exists_isHidden_retain_iff]
  refine exists_congr fun r ↦ and_congr_right fun hr ↦ ⟨fun h ↦ ?_, Rule.IsHidden.standsIn⟩
  refine h.met_or_isHidden.resolve_left ?_
  rintro ⟨way, hway⟩
  obtain ⟨n, hn⟩ := List.mem_iff_getElem?.1 hr
  have hposition : Rule.atOf? (Rule.retain keeps rules) (n :: way) = some x := by
    rw [Rule.atOf?, hn, Option.bind_some, hway]
  exact not_isHollow_of_atOf?_retain hposition hhollow

theorem cleared_mapRules (c : StyleChunk) : Cleared c (c.mapRules (Rule.retain keeps)) where
  file := rfl
  comments := rfl
  not_isHollow _ _ h := not_isHollow_of_atOf?_retain h
  isHollow _ h := exists_standsIn_retain_iff h
  declared := declaredOfAll_retain c.sheet.rules []

/-- Filtering tests every rule that a walk meets once, with what is left inside it, and leaves those
that pass in their order; they all pass again, so filtering a second time changes nothing.
Discarding what is empty this way loses no declaration, and leaves no empty rule but those in the
blocks that a walk does not enter, which all stay: at the end none is left anywhere exactly if no
such block held one. -/
theorem retain_discards (keep : Rule → Bool) (rules : List Rule) (j : Job) :
    ((∀ log, Id.run ((Rule.retainM (Rule.logged keep) rules).run log) =
        (Rule.retain keep rules, log ++ Rule.tested keep rules)) ∧
      (Rule.tested keep rules).Perm
        ((Rule.metOfAll rules).map fun e ↦ Rule.retainInside keep e.2) ∧
      (∀ r r', Rule.LeftInside keep r r' ↔ Rule.retainInside keep r = r') ∧
      (∀ rules', Rule.Left keep rules rules' ↔ Rule.retain keep rules = rules') ∧
      (∀ way r, Rule.atOf? (Rule.retain keep rules) way = some r → keep r = true) ∧
      Rule.retain keep (Rule.retain keep rules) = Rule.retain keep rules) ∧
    ∃ j', transform.run j = (j', none) ∧
      j'.stylesheet.source = j.stylesheet.source ∧
      List.Forall₂ Cleared j.stylesheet.chunks j'.stylesheet.chunks ∧
      ((∀ c ∈ j'.stylesheet.chunks, IsClear c) ↔ ∀ c ∈ j.stylesheet.chunks, HidesNone c) := by
  refine ⟨⟨fun log ↦ ?_, Rule.tested_perm rules, Rule.leftInside_iff, Rule.left_iff rules,
    fun way _ ↦ Rule.keep_of_atOf?_retain way, Rule.retain_retain rules⟩, _, rfl, rfl, ?_, ?_⟩
  · rw [Rule.run_retainM_logged, Id.run_pure]
  · exact List.forall₂_map_right_iff.2 (List.forall₂_same.2 fun c _ ↦ cleared_mapRules c)
  · exact List.forall_mem_map.trans (forall₂_congr fun c _ ↦ (cleared_mapRules c).isClear_iff)

/-- An empty style rule for the start of a transition is left, though there is nothing in it. -/
theorem empty_starting_style_left :
    let rules : List Rule := [.block .startingStyle [.block (.style [[.className "a"]] .empty) [],
      .block (.style [[.className "b"]] ⟨[⟨"color", .keyword "red"⟩], []⟩) []]]
    Rule.retain keeps rules = rules ∧ (∃ r ∈ rules, ∃ x : Rule, x.IsHollow ∧ x.StandsIn r) ∧
      (StyleChunk.read none "@starting-style\x7b.a\x7b\x7d.b\x7bcolor:red\x7d\x7d").toOption.map
          (fun c ↦ (c.mapRules (Rule.retain keeps)).code) =
        some "@starting-style \x7b\n  .a \x7b\n  \x7d\n\n  .b \x7b\n    color: red;\n  \x7d\n\x7d\n" := by
  intro rules
  exact ⟨rfl, ⟨_, List.mem_singleton_self _, _, .style [[.className "a"]],
    .inside List.mem_cons_self .here⟩, by decide +kernel⟩

end StyleModules.Transform.DiscardEmpty
