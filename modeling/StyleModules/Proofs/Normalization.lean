import Mathlib.Logic.Relation
import StyleModules.Proofs.Location

/-!
# Normal forms of paths

Three rules make a path shorter without leading anywhere else: a dot is dropped, a name is dropped
together with the step upwards behind it, and so is a step upwards behind the root.  Normalizing
applies them until none is left to apply, so that paths have the same normal form exactly if rules
lead from one to the other.

A path that is followed from another one continues its components, and the rules can be applied on
both sides of the place where the two meet.  So it makes no difference if either of them is
normalized first.
-/

namespace StyleModules.Path

open Relation

variable {p q : Path} {cs ds stack : List Component}

/-- One place of a path becomes shorter. -/
inductive Shortens : List Component → List Component → Prop
  | dot (front back : List Component) : Shortens (front ++ .current :: back) (front ++ back)
  | detour (front : List Component) (name : String) (back : List Component) :
      Shortens (front ++ .normal name :: .parent :: back) (front ++ back)
  | aboveRoot (front back : List Component) :
      Shortens (front ++ .root :: .parent :: back) (front ++ .root :: back)

/-- The rules do not show once a path is folded, whatever is in front of it. -/
theorem Shortens.foldl_push_eq (h : Shortens cs ds) (stack : List Component) :
    cs.foldl push stack = ds.foldl push stack := by
  cases h with
  | dot front back =>
    rw [List.foldl_append, List.foldl_cons, List.foldl_append]
    generalize front.foldl push stack = top
    cases top <;> rfl
  | detour front name back =>
    rw [List.foldl_append, List.foldl_cons, List.foldl_cons, List.foldl_append, push_name]
    rfl
  | aboveRoot front back =>
    rw [List.foldl_append, List.foldl_cons, List.foldl_cons, List.foldl_append, List.foldl_cons]
    generalize front.foldl push stack = top
    cases top <;> rfl

theorem foldl_push_eq_of_eqvGen (h : EqvGen Shortens cs ds) (stack : List Component) :
    cs.foldl push stack = ds.foldl push stack := by
  induction h with
  | rel _ _ h => exact h.foldl_push_eq stack
  | refl _ => rfl
  | symm _ _ _ ih => exact ih.symm
  | trans _ _ _ _ _ ih₁ ih₂ => exact ih₁.trans ih₂

/-- What becomes of a component that is added to a folded path. -/
theorem push_cases (stack : List Component) (c : Component) :
    push stack c = c :: stack ∨ (c = .current ∧ push stack c = stack) ∨
      (∃ name rest, c = .parent ∧ stack = .normal name :: rest ∧ push stack c = rest) ∨
      ∃ rest, c = .parent ∧ stack = .root :: rest ∧ push stack c = stack := by
  cases stack with
  | nil => cases c <;> simp [push]
  | cons top rest => cases c <;> cases top <;> simp [push]

/-- Adding a component to a folded path applies one rule at most. -/
theorem shortens_push (stack : List Component) (c : Component) (back : List Component) :
    ReflGen Shortens (stack.reverse ++ c :: back) ((push stack c).reverse ++ back) := by
  have hbehind : ∀ (top : Component) (rest tail : List Component),
      (top :: rest).reverse ++ tail = rest.reverse ++ top :: tail := by
    intro top rest tail
    rw [List.reverse_cons, List.append_assoc, List.singleton_append]
  rcases push_cases stack c with h | ⟨rfl, h⟩ | ⟨name, rest, rfl, rfl, h⟩ | ⟨rest, rfl, rfl, h⟩
  · rw [h, hbehind]
  · rw [h]
    exact .single (.dot stack.reverse back)
  · rw [h, hbehind]
    exact .single (.detour rest.reverse name back)
  · rw [h, hbehind, hbehind]
    exact .single (.aboveRoot rest.reverse back)

/-- Folding applies rules, one component after the other. -/
theorem shortens_foldl_push (cs stack : List Component) :
    ReflTransGen Shortens (stack.reverse ++ cs) (cs.foldl push stack).reverse := by
  induction cs generalizing stack with
  | nil => rw [List.append_nil, List.foldl_nil]
  | cons c cs ih => exact (shortens_push stack c cs).to_reflTransGen.trans (ih (push stack c))

theorem shortens_fold (cs : List Component) : ReflTransGen Shortens cs (fold cs) :=
  shortens_foldl_push cs []

theorem eqvGen_fold (cs : List Component) : EqvGen Shortens cs (fold cs) :=
  EqvGen.reflTransGen_le_eqvGen Shortens _ _ (shortens_fold cs)

theorem fold_eq_fold_iff : fold cs = fold ds ↔ EqvGen Shortens cs ds := by
  constructor
  · intro h
    have hcs : EqvGen Shortens cs (fold ds) := h ▸ eqvGen_fold cs
    exact hcs.trans _ _ _ ((eqvGen_fold ds).symm _ _)
  · intro h
    rw [fold, fold, foldl_push_eq_of_eqvGen h]

theorem foldl_push_fold (cs stack : List Component) :
    (fold cs).foldl push stack = cs.foldl push stack :=
  (foldl_push_eq_of_eqvGen (eqvGen_fold cs) stack).symm

/-- A slash at the end of a path does not show in its components. -/
theorem componentsOfText_slash {text : List Char} (h : text ≠ []) :
    componentsOfText (text ++ ['/']) = componentsOfText text := by
  have hempty : segments [] = [[]] := rfl
  cases text with
  | nil => exact absurd rfl h
  | cons c text =>
    by_cases hc : c = '/'
    · subst hc
      rw [List.cons_append, componentsOfText, componentsOfText, segments_append_slash,
        List.filterMap_append, hempty, List.filterMap_cons_none (by rfl), List.filterMap_nil,
        List.append_nil]
    · obtain ⟨s, ss, hs⟩ := List.exists_cons_of_ne_nil (segments_ne_nil (c :: text))
      have hlong : segments (c :: text ++ ['/']) = s :: (ss ++ [[]]) := by
        rw [segments_append_slash, hs, hempty, List.cons_append]
      have hlast : (ss ++ [[]]).filterMap component? = ss.filterMap component? := by
        rw [List.filterMap_append, List.filterMap_cons_none (by rfl), List.filterMap_nil,
          List.append_nil]
      rw [componentsOfText_relative (by simpa using hc),
        componentsOfText_relative (by simpa using hc), hlong, hs]
      by_cases hdot : s = ['.']
      · rw [hdot]
        exact congrArg _ hlast
      · split
        next heq => exact absurd (List.cons.inj heq).1 hdot
        next =>
          split
          next heq => exact absurd (List.cons.inj heq).1 hdot
          next => rw [List.filterMap_cons, List.filterMap_cons, hlast]

/-- A relative path continues a path with its steps. -/
theorem components_join_eq (hp : p.text.isEmpty = false) (hq : q.isAbsolute = false) :
    (p.join q).components = p.components ++ q.steps := by
  obtain ⟨above, habove⟩ := components_join hp
  have hself : (p.join ⟨""⟩).components = above := (habove ⟨""⟩ rfl).trans (List.append_nil above)
  have hne : p.text.toList ≠ [] := fun h ↦ by simp [String.toList_eq_nil_iff.1 h] at hp
  have hjoin : (p.join ⟨""⟩).components = p.components := by
    by_cases hslash : p.text.toList.getLast? = some '/'
    · simp [join, isAbsolute, hp, hslash]
    · have htext : (p.join ⟨""⟩).text.toList = p.text.toList ++ ['/'] := by
        simp [join, isAbsolute, hp, hslash]
      rw [components, htext, componentsOfText_slash hne, components]
  rw [habove q hq, ← hself, hjoin, steps]

theorem filter_eq_self_of_isStep (h : ∀ c ∈ cs, c.IsStep) :
    cs.filter (fun c ↦ c != .root && c != .current) = cs := by
  refine List.filter_eq_self.2 fun c hc ↦ ?_
  rcases h c hc with rfl | ⟨n, rfl, -⟩ <;> simp

/-- Only the steps of a relative path are folded. -/
theorem foldl_push_components (hp : p.isAbsolute = false) (stack : List Component) :
    p.components.foldl push stack = p.steps.foldl push stack := by
  have hcomponents := areComponents_components p
  rw [isAbsolute_eq] at hp
  rw [steps_eq]
  generalize p.components = cs at hcomponents hp
  cases hcomponents with
  | absolute h => simp at hp
  | current h =>
    rw [List.filter_cons_of_neg (by simp), filter_eq_self_of_isStep h, List.foldl_cons]
    cases stack <;> rfl
  | relative h => rw [filter_eq_self_of_isStep h]

/-- A relative path is folded on top of the path that it is followed from. -/
theorem foldl_push_join (hq : q.isAbsolute = false) (p : Path) :
    (p.join q).components.foldl push [] = q.components.foldl push (p.components.foldl push []) := by
  cases hempty : p.text.isEmpty with
  | true =>
    have hnil : p.components = [] := by
      rw [components, String.isEmpty_iff.1 hempty]
      rfl
    rw [join, hempty, Bool.or_true, if_pos rfl, hnil, List.foldl_nil]
  | false => rw [components_join_eq hempty hq, List.foldl_append, foldl_push_components hq]

theorem fold_normalize (p : Path) : fold p.normalize.components = fold p.components :=
  (areComponents_components p).areFolded_fold.fold_components

theorem foldl_push_normalize (p : Path) (stack : List Component) :
    p.normalize.components.foldl push stack = p.components.foldl push stack := by
  rw [← foldl_push_fold, fold_normalize, foldl_push_fold]

theorem root_mem_foldl_push :
    .root ∈ cs.foldl push stack ↔ .root ∈ cs ∨ .root ∈ stack := by
  induction cs generalizing stack with
  | nil => simp
  | cons c cs ih =>
    have hpush : .root ∈ push stack c ↔ .root = c ∨ .root ∈ stack := by
      rcases push_cases stack c with h | ⟨rfl, h⟩ | ⟨name, rest, rfl, rfl, h⟩ | ⟨rest, rfl, rfl, h⟩
      all_goals simp [h]
    rw [List.foldl_cons, ih, hpush, List.mem_cons]
    tauto

theorem isAbsolute_iff_root_mem (p : Path) : p.isAbsolute = true ↔ .root ∈ p.components := by
  have hstep : ∀ {cs : List Component}, (∀ c ∈ cs, c.IsStep) → .root ∉ cs := by
    intro cs h hroot
    rcases h _ hroot with heq | ⟨n, heq, -⟩ <;> simp at heq
  have hcomponents := areComponents_components p
  rw [isAbsolute_eq, beq_iff_eq]
  generalize p.components = cs at hcomponents
  cases hcomponents with
  | absolute h => simp
  | current h => simp [hstep h]
  | relative h => exact iff_of_false (fun heq ↦ hstep h (List.mem_of_head? heq)) (hstep h)

/-- The root stays, and no other path gets one. -/
theorem isAbsolute_normalize (p : Path) : p.normalize.isAbsolute = p.isAbsolute := by
  have hroot : ∀ p : Path, p.isAbsolute = true ↔ .root ∈ fold p.components := by
    intro p
    rw [isAbsolute_iff_root_mem, fold, List.mem_reverse, root_mem_foldl_push]
    simp
  rw [Bool.eq_iff_iff, hroot, hroot, fold_normalize]

theorem normalize_eq_normalize_iff :
    p.normalize = q.normalize ↔ EqvGen Shortens p.components q.components := by
  rw [← fold_eq_fold_iff]
  refine ⟨fun h ↦ ?_, fun h ↦ by rw [normalize, normalize, h]⟩
  rw [← fold_normalize, h, fold_normalize]

theorem normalize_join (p q : Path) : (p.normalize.join q).normalize = (p.join q).normalize := by
  cases hq : q.isAbsolute with
  | true => rw [join_of_isAbsolute hq, join_of_isAbsolute hq]
  | false =>
    have hfold : fold (p.normalize.join q).components = fold (p.join q).components := by
      rw [fold, fold, foldl_push_join hq, foldl_push_join hq, foldl_push_normalize]
    exact congrArg ofFolded hfold

theorem join_normalize (p q : Path) : (p.join q.normalize).normalize = (p.join q).normalize := by
  have hnormal := isAbsolute_normalize q
  cases hq : q.isAbsolute with
  | true =>
    rw [join_of_isAbsolute hq, join_of_isAbsolute (hnormal.trans hq), normalize_normalize]
  | false =>
    have hfold : fold (p.join q.normalize).components = fold (p.join q).components := by
      rw [fold, fold, foldl_push_join (hnormal.trans hq), foldl_push_join hq, foldl_push_normalize]
    exact congrArg ofFolded hfold

/-- The plainest spelling of a dot, or of names behind the root or behind some steps upwards. -/
structure IsNormal (p : Path) : Prop where
  plain : p.IsPlain
  folded : p.components = [.current] ∨ (p.components ≠ [] ∧ AreFolded p.components)

theorem isNormal_normalize (p : Path) : p.normalize.IsNormal := by
  refine ⟨isPlain_normalize p, ?_⟩
  have hfolded := (areComponents_components p).areFolded_fold
  unfold normalize
  cases hfold : fold p.components with
  | nil => exact .inl rfl
  | cons c cs =>
    rw [hfold] at hfolded
    have hcomponents : (ofFolded (c :: cs)).components = c :: cs :=
      hfolded.areComponents.components_ofComponents
    rw [hcomponents]
    exact .inr ⟨List.cons_ne_nil c cs, hfolded⟩

theorem IsNormal.normalize_eq (h : p.IsNormal) : p.normalize = p := by
  have hplain : ofComponents p.components = p := h.plain.symm
  rcases h.folded with hdot | ⟨hne, hfolded⟩
  · rw [← hplain, hdot]
    rfl
  · rw [normalize, hfolded.fold_eq]
    obtain ⟨c, cs, hcs⟩ := List.exists_cons_of_ne_nil hne
    calc
      ofFolded p.components = ofComponents p.components := by rw [hcs, ofFolded]; simp
      _ = p := hplain

/-- Normalizing leads to a normal form and leaves normal forms as they are.  It decides whether
rules lead from one path to another, and a join keeps its normal form if either side of it is
normalized first. -/
theorem normalize_canonical (p q : Path) :
    p.normalize.IsNormal ∧ (p.IsNormal ↔ p.normalize = p) ∧
      p.normalize.normalize = p.normalize ∧
      (p.normalize = q.normalize ↔ EqvGen Shortens p.components q.components) ∧
      (p.normalize.join q).normalize = (p.join q).normalize ∧
      (p.join q.normalize).normalize = (p.join q).normalize :=
  ⟨isNormal_normalize p, ⟨IsNormal.normalize_eq, fun h ↦ h ▸ isNormal_normalize p⟩,
    normalize_normalize p, normalize_eq_normalize_iff, normalize_join p q, join_normalize p q⟩

end StyleModules.Path
