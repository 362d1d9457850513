import Mathlib.Data.List.Forall2
import StyleModules.Css.Selector

/-!
# Classes of selectors

A class occurs in a component that names it, and in a logical pseudo-class if it occurs in one of the
selectors inside.  The classes of a selector list are listed each once, and those are the classes that
occur.  Renaming goes through the components on its own; it changes the classes that occur and nothing
else, so the list of a renamed selector is the renamed list.
-/

namespace StyleModules

section Pointwise

variable {α : Type} {R : α → α → Prop}

/-- If one thing is related to another exactly if a function takes it there, so is a list. -/
theorem forall₂_iff_map_eq {f : α → α} (h : ∀ x y, R x y ↔ f x = y) (xs ys : List α) :
    List.Forall₂ R xs ys ↔ xs.map f = ys := by
  have hR : R = fun x y ↦ f x = y := by
    funext x y
    exact propext (h x y)
  rw [hR, ← List.forall₂_map_left_iff, List.forall₂_eq_eq_eq]

theorem forall₂_nil_iff_eq (ys : List α) : List.Forall₂ R [] ys ↔ [] = ys :=
  List.forall₂_nil_left_iff.trans eq_comm

/-- The same where the function goes through the list on its own. -/
theorem forall₂_cons_iff_eq {x y : α} {xs ys : List α} (hfirst : ∀ z, R x z ↔ y = z)
    (hrest : ∀ zs, List.Forall₂ R xs zs ↔ ys = zs) (zs : List α) :
    List.Forall₂ R (x :: xs) zs ↔ y :: ys = zs := by
  simp only [List.forall₂_cons_left_iff, hfirst, hrest]
  constructor
  · rintro ⟨_, _, rfl, rfl, rfl⟩
    rfl
  · rintro rfl
    exact ⟨_, _, rfl, rfl, rfl⟩

end Pointwise

namespace Css

variable {f : String → String} {name : String}

inductive Component.HasClass (name : String) : Component → Prop
  | className : HasClass name (.className name)
  | logical {kind : Logical} {alternatives : List (List Component)} {s : List Component}
      {c : Component} (hs : s ∈ alternatives) (hc : c ∈ s) (h : HasClass name c) :
      HasClass name (.logical kind alternatives)

/-- A class occurs somewhere in a selector list. -/
def Selector.HasClass (name : String) (selectors : List Selector) : Prop :=
  ∃ s ∈ selectors, ∃ c ∈ s, c.HasClass name

theorem Component.classes_of_isCombinator {c : Component} (h : c.isCombinator = true) :
    c.classes = [] := by
  cases c <;> first | rfl | exact absurd h Bool.false_ne_true

mutual

theorem Component.mem_classes_iff : ∀ c : Component, name ∈ c.classes ↔ c.HasClass name
  | .className other => by
    rw [classes, List.mem_singleton]
    constructor
    · rintro rfl
      exact .className
    · rintro ⟨⟩
      rfl
  | .logical kind alternatives => by
    rw [classes, Component.mem_classesOfEach_iff alternatives]
    constructor
    · rintro ⟨s, hs, c, hc, h⟩
      exact .logical hs hc h
    · intro h
      cases h with
      | logical hs hc h => exact ⟨_, hs, _, hc, h⟩
  | .combinator _ | .universal | .nesting | .element _ | .id _ | .withAttribute _ _
  | .pseudoClass _ | .pseudoClassCall _ _ | .pseudoElement _ | .pseudoElementCall _ _
  | .nth _ _ _ | .outside _ _ => iff_of_false List.not_mem_nil nofun

theorem Component.mem_classesOfAll_iff : ∀ (s : List Component) (compound : List String),
    name ∈ classesOfAll compound s ↔ name ∈ compound ∨ ∃ c ∈ s, c.HasClass name
  | [], compound => by simp [classesOfAll]
  | c :: s, compound => by
    have hc := Component.mem_classes_iff c
    rw [classesOfAll]
    split
    next hcombinator =>
      rw [Component.classes_of_isCombinator hcombinator] at hc
      simp [Component.mem_classesOfAll_iff s, ← hc, or_comm]
    next => simp [Component.mem_classesOfAll_iff s, ← hc, or_assoc]

theorem Component.mem_classesOfEach_iff : ∀ ss : List (List Component),
    name ∈ classesOfEach ss ↔ ∃ s ∈ ss, ∃ c ∈ s, c.HasClass name
  | [] => by simp [classesOfEach]
  | s :: ss => by
    simp [classesOfEach, Component.mem_classesOfAll_iff s, Component.mem_classesOfEach_iff ss]

end

/-- The classes that are listed are those that occur. -/
theorem Selector.mem_localClasses_iff (selectors : List Selector) :
    name ∈ localClasses selectors ↔ HasClass name selectors := by
  rw [localClasses, List.mem_eraseDups, Component.mem_classesOfEach_iff]
  rfl

theorem nodup_eraseDups : ∀ names : List String, names.eraseDups.Nodup
  | [] => List.nodup_nil
  | name :: names => by
    have hshorter : (names.filter fun n ↦ !n == name).length < names.length + 1 :=
      Nat.lt_succ_of_le (List.length_filter_le _ _)
    rw [List.eraseDups_cons, List.nodup_cons]
    exact ⟨by simp [List.mem_eraseDups], nodup_eraseDups (names.filter fun n ↦ !n == name)⟩
termination_by names => names.length

theorem Selector.nodup_localClasses (selectors : List Selector) : (localClasses selectors).Nodup :=
  nodup_eraseDups _

/-- The same component but for its local classes, which a function renames.  These are the class
itself and those inside of the logical pseudo-classes. -/
inductive Component.Renamed (f : String → String) : Component → Component → Prop
  | className (name : String) : Renamed f (.className name) (.className (f name))
  | logical (kind : Logical) {alternatives alternatives' : List (List Component)}
      (h : List.Forall₂ (List.Forall₂ (Renamed f)) alternatives alternatives') :
      Renamed f (.logical kind alternatives) (.logical kind alternatives')
  | other (c : Component) (hclass : ∀ name, c ≠ .className name)
      (hlogical : ∀ kind alternatives, c ≠ .logical kind alternatives) : Renamed f c c

mutual

theorem Component.renamed_iff : ∀ c c' : Component, Renamed f c c' ↔ c.mapClasses f = c'
  | .className name, c' => by
    constructor
    · intro h
      cases h with
      | className => rfl
      | other _ hclass _ => exact absurd rfl (hclass name)
    · rintro rfl
      exact .className name
  | .logical kind alternatives, c' => by
    have hinner := Component.forall₂_forall₂_renamed_iff alternatives
    constructor
    · intro h
      cases h with
      | logical _ h => exact congrArg (Component.logical kind) ((hinner _).1 h)
      | other _ _ hlogical => exact absurd rfl (hlogical kind alternatives)
    · rintro rfl
      exact .logical kind ((hinner _).2 rfl)
  | .combinator _, c' | .universal, c' | .nesting, c' | .element _, c' | .id _, c'
  | .withAttribute _ _, c' | .pseudoClass _, c' | .pseudoClassCall _ _, c' | .pseudoElement _, c'
  | .pseudoElementCall _ _, c' | .nth _ _ _, c' | .outside _ _, c' => by
    constructor
    · intro h
      cases h
      rfl
    · rintro rfl
      exact .other _ (by simp) (by simp)

theorem Component.forall₂_renamed_iff : ∀ s s' : List Component,
    List.Forall₂ (Renamed f) s s' ↔ mapClassesOfAll f s = s'
  | [], s' => forall₂_nil_iff_eq s'
  | c :: s, s' =>
    forall₂_cons_iff_eq (Component.renamed_iff c) (Component.forall₂_renamed_iff s) s'

theorem Component.forall₂_forall₂_renamed_iff : ∀ ss ss' : List (List Component),
    List.Forall₂ (List.Forall₂ (Renamed f)) ss ss' ↔ mapClassesOfEach f ss = ss'
  | [], ss' => forall₂_nil_iff_eq ss'
  | s :: ss, ss' =>
    forall₂_cons_iff_eq (Component.forall₂_renamed_iff s)
      (Component.forall₂_forall₂_renamed_iff ss) ss'

end

theorem Component.isCombinator_mapClasses (c : Component) :
    (c.mapClasses f).isCombinator = c.isCombinator := by
  cases c <;> rfl

mutual

theorem Component.classes_mapClasses : ∀ c : Component, (c.mapClasses f).classes = c.classes.map f
  | .className _ => rfl
  | .logical _ alternatives => Component.classesOfEach_mapClassesOfEach alternatives
  | .combinator _ | .universal | .nesting | .element _ | .id _ | .withAttribute _ _
  | .pseudoClass _ | .pseudoClassCall _ _ | .pseudoElement _ | .pseudoElementCall _ _
  | .nth _ _ _ | .outside _ _ => rfl

theorem Component.classesOfAll_mapClassesOfAll : ∀ (s : List Component) (compound : List String),
    classesOfAll (compound.map f) (mapClassesOfAll f s) = (classesOfAll compound s).map f
  | [], _ => rfl
  | c :: s, compound => by
    rw [mapClassesOfAll, classesOfAll, classesOfAll, Component.isCombinator_mapClasses]
    split
    next => rw [List.map_append, ← Component.classesOfAll_mapClassesOfAll s, List.map_nil]
    next =>
      rw [Component.classes_mapClasses c, ← List.map_append,
        Component.classesOfAll_mapClassesOfAll s]

/-- The two walks through a selector meet the same classes in the same order. -/
theorem Component.classesOfEach_mapClassesOfEach : ∀ ss : List (List Component),
    classesOfEach (mapClassesOfEach f ss) = (classesOfEach ss).map f
  | [] => rfl
  | s :: ss => by
    rw [mapClassesOfEach, classesOfEach, classesOfEach, List.map_append,
      ← Component.classesOfAll_mapClassesOfAll s, List.map_nil,
      Component.classesOfEach_mapClassesOfEach ss]

end

/-- Repetitions can be dropped before a filter or behind it. -/
theorem eraseDups_filter (p : String → Bool) : ∀ l : List String,
    (l.filter p).eraseDups = l.eraseDups.filter p
  | [] => rfl
  | a :: l => by
    have hshorter : (l.filter fun b ↦ !b == a).length < l.length + 1 :=
      Nat.lt_succ_of_le (List.length_filter_le _ _)
    have ih := eraseDups_filter p (l.filter fun b ↦ !b == a)
    rw [List.eraseDups_cons, List.filter_cons, List.filter_cons, ← ih, List.filter_filter]
    split
    next =>
      rw [List.eraseDups_cons, List.filter_filter]
      simp only [Bool.and_comm]
    next ha =>
      have hne : ∀ b, p b = true → b ≠ a := fun b hb heq ↦ ha (heq ▸ hb)
      refine congrArg List.eraseDups (List.filter_congr fun b _ ↦ ?_)
      cases hb : p b <;> simp [hne b, hb]
termination_by l => l.length

/-- Repetitions that are there before a function is applied can be dropped first. -/
theorem eraseDups_map (f : String → String) : ∀ l : List String,
    (l.map f).eraseDups = (l.eraseDups.map f).eraseDups
  | [] => rfl
  | a :: l => by
    have hshorter : (l.filter fun b ↦ !f b == f a).length < l.length + 1 :=
      Nat.lt_succ_of_le (List.length_filter_le _ _)
    have hcomp : ((fun b ↦ !b == f a) ∘ f) = fun b ↦ !f b == f a := rfl
    have hfilter : (l.filter fun b ↦ !b == a).filter (fun b ↦ !f b == f a) =
        l.filter fun b ↦ !f b == f a := by
      rw [List.filter_filter]
      refine List.filter_congr fun b _ ↦ ?_
      by_cases hb : b = a <;> simp [hb]
    rw [List.map_cons, List.eraseDups_cons, List.eraseDups_cons, List.map_cons,
      List.eraseDups_cons, List.filter_map, List.filter_map, hcomp, ← eraseDups_filter, hfilter,
      eraseDups_map f (l.filter fun b ↦ !f b == f a)]
termination_by l => l.length

theorem Selector.localClasses_mapClasses (f : String → String) (selectors : List Selector) :
    localClasses (mapClasses f selectors) = ((localClasses selectors).map f).eraseDups := by
  rw [localClasses, mapClasses, Component.classesOfEach_mapClassesOfEach, eraseDups_map]
  rfl

theorem Selector.hasClass_mapClasses_iff (f : String → String) (selectors : List Selector) :
    HasClass name (mapClasses f selectors) ↔ ∃ old, HasClass old selectors ∧ name = f old := by
  simp only [← mem_localClasses_iff, localClasses_mapClasses, List.mem_eraseDups, List.mem_map,
    eq_comm]

end Css

end StyleModules
