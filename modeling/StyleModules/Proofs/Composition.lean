import Mathlib.Data.List.Induction
import StyleModules.Composition
import StyleModules.Proofs.PathMap

/-!
# What compositions list

A composition is built declaration by declaration.  A declaration adds names to the entries of its
classes, behind those that are there and each name once, so no name that was listed for a class is
lost on the way.  In the end a class lists all that its declarations compose.
-/

namespace StyleModules.Composition

variable {own : String → String} {exported : String → String → List String} {k : Composition}
  {names more : List String} {name target : String}

theorem addNames_cons (names : List String) (n : String) (more : List String) :
    addNames names (n :: more) =
      if n ∈ names then addNames names more else addNames (names ++ [n]) more := by
  unfold addNames
  rw [List.foldl_cons]
  simp only [List.contains_iff_mem]
  split <;> rfl

/-- Names are added behind those that are there, and each name once. -/
theorem exists_addNames_eq_append (names more : List String) :
    ∃ new, addNames names more = names ++ new ∧ new.Nodup ∧ ∀ n ∈ new, n ∉ names := by
  induction more generalizing names with
  | nil => exact ⟨[], (List.append_nil _).symm, List.nodup_nil, List.forall_mem_nil _⟩
  | cons n more ih =>
    rw [addNames_cons]
    split
    next => exact ih names
    next hn =>
      obtain ⟨new, hnew, hnodup, hfresh⟩ := ih (names ++ [n])
      refine ⟨n :: new, hnew.trans (List.append_cons ..).symm,
        List.nodup_cons.2 ⟨fun h ↦ hfresh n h (by simp), hnodup⟩, List.forall_mem_cons.2 ⟨hn, ?_⟩⟩
      exact fun m hm hmem ↦ hfresh m hm (List.mem_append_left _ hmem)

theorem mem_addNames : name ∈ addNames names more ↔ name ∈ names ∨ name ∈ more := by
  induction more generalizing names with
  | nil => simp [addNames]
  | cons n more ih =>
    rw [addNames_cons]
    split
    next hn =>
      rw [ih, List.mem_cons]
      grind
    next => rw [ih, List.mem_append, List.mem_singleton, or_assoc, List.mem_cons]

theorem addNames_eq_self (h : ∀ n ∈ more, n ∈ names) : addNames names more = names := by
  obtain ⟨new, hnew, -, hfresh⟩ := exists_addNames_eq_append names more
  rw [hnew, List.append_right_eq_self, List.eq_nil_iff_forall_not_mem]
  intro n hn
  have hmem : n ∈ names ∨ n ∈ more := mem_addNames.1 (hnew ▸ List.mem_append_right names hn)
  exact hfresh n hn (hmem.elim id (h n))

/-- What a class has after names were added to some classes. -/
theorem get?_foldl_alter (hk : k.IsSorted) (own : String → String) (targets more : List String) :
    let k' : Composition := targets.foldl
      (fun k t ↦ k.alter t fun known ↦ addNames (known.getD [own t]) more) k
    k'.IsSorted ∧ ∀ t, k'.get? t =
      if t ∈ targets then some (addNames ((k.get? t).getD [own t]) more) else k.get? t := by
  induction targets generalizing k with
  | nil => exact ⟨hk, fun t ↦ (if_neg List.not_mem_nil).symm⟩
  | cons u targets ih =>
    obtain ⟨hsorted, hget⟩ := ih (hk.alter u fun known ↦ addNames (known.getD [own u]) more)
    refine ⟨hsorted, fun t ↦ (hget t).trans ?_⟩
    by_cases hu : t = u
    · subst hu
      have htwice : addNames (addNames ((k.get? t).getD [own t]) more) more =
          addNames ((k.get? t).getD [own t]) more :=
        addNames_eq_self fun _ h ↦ mem_addNames.2 (.inr h)
      rw [hk.get?_alter_self, Option.getD_some, htwice, ite_self, if_pos List.mem_cons_self]
    · simp only [Table.get?_alter_of_ne _ hu k, List.mem_cons, hu, false_or]

/-- The classes of some style rules have their own names. -/
theorem get?_ofStyles (own : String → String) (styles : List Css.Rule.Style) :
    (ofStyles own styles).IsSorted ∧ ∀ t, (ofStyles own styles).get? t =
      if ∃ s ∈ styles, t ∈ Css.Selector.localClasses s.selectors then some [own t] else none := by
  -- A class is ensured by adding no names to it.
  obtain ⟨hsorted, hget⟩ := get?_foldl_alter Table.isSorted_empty own
    (styles.flatMap fun s ↦ Css.Selector.localClasses s.selectors) []
  refine ⟨hsorted, fun t ↦ (hget t).trans ?_⟩
  simp only [List.mem_flatMap]
  rfl

theorem isSorted_compose (hk : k.IsSorted) (d : Composes) :
    (compose own exported k d).IsSorted :=
  (get?_foldl_alter hk own d.targets _).1

theorem get?_compose (hk : k.IsSorted) (d : Composes) (t : String) :
    (compose own exported k d).get? t =
      if t ∈ d.targets then
        some (addNames ((k.get? t).getD [own t]) (Composition.names own exported k d.composed))
      else k.get? t :=
  (get?_foldl_alter hk own d.targets _).2 t

/-- A class expands to what it expanded to before a declaration, and to what this composes for it. -/
theorem mem_expansion_compose (hk : k.IsSorted) (d : Composes) (t : String) :
    name ∈ expansion own (compose own exported k d) t ↔ name ∈ expansion own k t ∨
      t ∈ d.targets ∧ name ∈ Composition.names own exported k d.composed := by
  rw [expansion, get?_compose hk]
  by_cases ht : t ∈ d.targets
  · rw [if_pos ht, Option.getD_some, mem_addNames, expansion]
    simp only [ht, true_and]
  · simp only [ht, if_false, false_and, or_false, expansion]

theorem isSorted_build (own : String → String) (exported : String → String → List String)
    (styles : List Css.Rule.Style) (declarations : List Composes) :
    (build own exported styles declarations).IsSorted := by
  induction declarations using List.reverseRecOn with
  | nil => exact (get?_ofStyles own styles).1
  | append_singleton ds d ih =>
    rw [build, List.foldl_append]
    exact isSorted_compose ih d

/-- The last declaration adds to what the others have built. -/
theorem build_append_singleton (own : String → String)
    (exported : String → String → List String) (styles : List Css.Rule.Style)
    (ds : List Composes) (d : Composes) :
    build own exported styles (ds ++ [d]) =
      compose own exported (build own exported styles ds) d :=
  List.foldl_append

/-- No name is lost on the way. -/
theorem mem_expansion_build_append {styles : List Css.Rule.Style} {ds : List Composes}
    (h : name ∈ expansion own (build own exported styles ds) target) (more : List Composes) :
    name ∈ expansion own (build own exported styles (ds ++ more)) target := by
  induction more using List.reverseRecOn with
  | nil => rwa [List.append_nil]
  | append_singleton more d ih =>
    rw [← List.append_assoc, build_append_singleton]
    exact (mem_expansion_compose (isSorted_build own exported styles _) d target).2 (.inl ih)

/-- The classes of the style rules have entries, and those that compose others. -/
theorem isSome_get?_build (own : String → String) (exported : String → String → List String)
    (styles : List Css.Rule.Style) (declarations : List Composes) (t : String) :
    ((build own exported styles declarations).get? t).isSome = true ↔
      (∃ s ∈ styles, t ∈ Css.Selector.localClasses s.selectors) ∨
        ∃ d ∈ declarations, t ∈ d.targets := by
  induction declarations using List.reverseRecOn with
  | nil =>
    rw [build, List.foldl_nil, (get?_ofStyles own styles).2]
    split
    next h => simpa using h
    next h => simpa using h
  | append_singleton ds d ih =>
    rw [build_append_singleton, get?_compose (isSorted_build own exported styles ds)]
    simp only [List.mem_append, List.mem_singleton, or_and_right, exists_or, exists_eq_left,
      ← or_assoc, ← ih]
    split
    next ht => simp [ht]
    next ht => simp [ht]

def Lists (k : Composition) (target name : String) : Prop :=
  ∃ names, k.get? target = some names ∧ name ∈ names

/-- What a class with an entry expands to is listed for it. -/
theorem lists_iff (own : String → String) : k.Lists target name ↔
    (k.get? target).isSome = true ∧ name ∈ expansion own k target := by
  rw [Lists, expansion]
  cases k.get? target <;> simp

/-- What a declaration composes from another file is listed for each of its classes. -/
theorem lists_build {styles : List Css.Rule.Style} {declarations : List Composes} {d : Composes}
    (hd : d ∈ declarations) {reference : String} (hsource : d.composed.source = .file reference)
    {n : String} (hn : n ∈ d.composed.names) (ht : target ∈ d.targets)
    (hname : name ∈ exported reference n) :
    (build own exported styles declarations).Lists target name := by
  refine (lists_iff own).2
    ⟨(isSome_get?_build own exported styles declarations target).2 (.inr ⟨d, hd, ht⟩), ?_⟩
  obtain ⟨before, after, rfl⟩ := List.append_of_mem hd
  rw [List.append_cons]
  refine mem_expansion_build_append ?_ after
  rw [build_append_singleton, mem_expansion_compose (isSorted_build own exported styles before)]
  refine .inr ⟨ht, ?_⟩
  rw [Composition.names, hsource]
  exact List.mem_flatMap.2 ⟨n, hn, hname⟩

end StyleModules.Composition
