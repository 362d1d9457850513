import StyleModules.Proofs.Classes
import StyleModules.Proofs.Composition
import StyleModules.Proofs.Rules
import StyleModules.Proofs.StyleEdits
import StyleModules.ModuleStore

/-!
# Scoping

Renaming the classes of a stylesheet changes every local class where a walk meets it, at any depth,
and nothing else.  The composition that is made along with it has an entry for each class that occurs
in the stylesheet and for each class that composes others; an entry starts with the name that the
class now has in the stylesheet, and no entry repeats a name.
-/

namespace StyleModules

/-- The same style rule but for its local classes. -/
structure Css.Rule.Style.Renamed (f : String → String) (s s' : Css.Rule.Style) : Prop where
  selectors : List.Forall₂ (List.Forall₂ (Css.Component.Renamed f)) s.selectors s'.selectors
  declarations : s'.declarations = s.declarations

/-- A class occurs in a style rule of a stylesheet. -/
def Stylesheet.HasClass (name : String) (s : Stylesheet) : Prop :=
  ∃ style, s.HasStyle style ∧ Css.Selector.HasClass name style.selectors

section Renamed

variable {f : String → String} {name : String}

theorem Css.Rule.Style.renamed_iff (s s' : Css.Rule.Style) :
    s.Renamed f s' ↔ { s with selectors := Css.Selector.mapClasses f s.selectors } = s' := by
  obtain ⟨selectors, declarations⟩ := s
  obtain ⟨selectors', declarations'⟩ := s'
  constructor
  · rintro ⟨hselectors, rfl⟩
    rw [Css.Selector.mapClasses, (Css.Component.forall₂_forall₂_renamed_iff _ _).1 hselectors]
  · intro h
    injection h with hselectors hdeclarations
    exact ⟨(Css.Component.forall₂_forall₂_renamed_iff _ _).2 hselectors, hdeclarations.symm⟩

theorem ModuleStore.edited_rename_iff {s s' : Stylesheet} :
    s.Edited (Css.Rule.Style.Renamed f) s' ↔ s' = rename f s :=
  (Stylesheet.edited_iff Css.Rule.Style.renamed_iff).trans eq_comm

/-- A walk meets the style rules of a renamed stylesheet in their order. -/
theorem ModuleStore.styles_rename (f : String → String) (s : Stylesheet) :
    (rename f s).styles = s.styles.map fun r ↦
      { r with selectors := Css.Selector.mapClasses f r.selectors } := by
  rw [Stylesheet.styles, Stylesheet.styles, List.map_flatMap]
  simp only [rename, Stylesheet.mapChunks, List.flatMap_map]
  exact List.flatMap_congr fun c _ ↦ Css.Rule.stylesOfAll_mapStylesOfAll _ c.sheet.rules

theorem Stylesheet.hasClass_iff {s : Stylesheet} :
    s.HasClass name ↔ ∃ r ∈ s.styles, name ∈ Css.Selector.localClasses r.selectors := by
  simp only [HasClass, mem_styles_iff, Css.Selector.mem_localClasses_iff]

theorem ModuleStore.hasClass_rename_iff {s : Stylesheet} :
    (rename f s).HasClass name ↔ ∃ old, s.HasClass old ∧ name = f old := by
  simp only [Stylesheet.HasClass, ← Stylesheet.mem_styles_iff, styles_rename, List.mem_map]
  constructor
  · rintro ⟨_, ⟨r, hr, rfl⟩, h⟩
    obtain ⟨old, hold, rfl⟩ := (Css.Selector.hasClass_mapClasses_iff f r.selectors).1 h
    exact ⟨old, ⟨r, hr, hold⟩, rfl⟩
  · rintro ⟨old, ⟨r, hr, hold⟩, rfl⟩
    exact ⟨_, ⟨r, hr, rfl⟩, (Css.Selector.hasClass_mapClasses_iff f r.selectors).2 ⟨old, hold, rfl⟩⟩

end Renamed

namespace Composition

variable {own : String → String} {exported : String → String → List String} {k : Composition}

/-- Each entry starts with the own name of its class and no entry repeats a name. -/
def IsProper (own : String → String) (k : Composition) : Prop :=
  ∀ name names, k.get? name = some names → names.head? = some (own name) ∧ names.Nodup

theorem isProper_ofStyles (own : String → String) (styles : List Css.Rule.Style) :
    (ofStyles own styles).IsProper own := by
  intro name names h
  rw [(get?_ofStyles own styles).2] at h
  split at h
  next =>
    obtain rfl := Option.some.inj h
    exact ⟨rfl, List.nodup_singleton _⟩
  next => simp at h

theorem IsProper.compose (h : k.IsProper own) (hk : k.IsSorted) (d : Composes) :
    (compose own exported k d).IsProper own := by
  intro name names hget
  rw [get?_compose hk] at hget
  split at hget
  next =>
    obtain rfl := Option.some.inj hget
    have hknown : ((k.get? name).getD [own name]).head? = some (own name) ∧
        ((k.get? name).getD [own name]).Nodup := by
      cases hname : k.get? name with
      | none => exact ⟨rfl, List.nodup_singleton _⟩
      | some known => exact h name known hname
    obtain ⟨new, hnew, hnodup, hfresh⟩ := exists_addNames_eq_append
      ((k.get? name).getD [own name]) (Composition.names own exported k d.composed)
    rw [hnew, List.head?_append, hknown.1, List.nodup_append']
    exact ⟨rfl, hknown.2, hnodup, fun n hn hn' ↦ hfresh n hn' hn⟩
  next => exact h name names hget

theorem isProper_build (own : String → String) (exported : String → String → List String)
    (styles : List Css.Rule.Style) (declarations : List Composes) :
    (build own exported styles declarations).IsProper own := by
  induction declarations using List.reverseRecOn with
  | nil => exact isProper_ofStyles own styles
  | append_singleton ds d ih =>
    rw [build_append_singleton]
    exact ih.compose (isSorted_build own exported styles ds) d

end Composition

namespace ModuleStore

/-- The scoped stylesheet is the one that is the same but for its local classes, each with its
scoped name.  The composition has entries for the classes that occur and for those that compose
others, and these entries start with the names that the stylesheet now has for the classes.  The
classes of a style rule are listed once each, and renaming it renames its list. -/
theorem scope_agrees (c : Compiler) (s : ModuleStore) (key : String) (sheet : Stylesheet)
    (composes : List Composes) (files : List (String × Path)) :
    let own := (Namer.mk c.mode).name key
    let result := scope c s key sheet composes files
    (∀ sheet', sheet.Edited (Css.Rule.Style.Renamed own) sheet' ↔ sheet' = result.1) ∧
      (∀ name, result.1.HasClass name ↔ ∃ old, sheet.HasClass old ∧ name = own old) ∧
      (∀ name, (result.2.get? name).isSome = true ↔
        sheet.HasClass name ∨ ∃ d ∈ composes, name ∈ d.targets) ∧
      (∀ name names, result.2.get? name = some names →
        names.head? = some (own name) ∧ names.Nodup) ∧
      ∀ (f : String → String) (style style' : Css.Rule.Style), style.Renamed f style' →
        (Css.Selector.localClasses style.selectors).Nodup ∧
        (∀ name, name ∈ Css.Selector.localClasses style.selectors ↔
          Css.Selector.HasClass name style.selectors) ∧
        Css.Selector.localClasses style'.selectors =
          ((Css.Selector.localClasses style.selectors).map f).eraseDups := by
  intro own result
  refine ⟨fun sheet' ↦ edited_rename_iff, fun name ↦ hasClass_rename_iff, fun name ↦ ?_,
    Composition.isProper_build own _ sheet.styles composes, fun f style style' h ↦ ?_⟩
  · rw [Stylesheet.hasClass_iff]
    exact Composition.isSome_get?_build own _ sheet.styles composes name
  · obtain rfl := (Css.Rule.Style.renamed_iff style style').1 h
    exact ⟨Css.Selector.nodup_localClasses _, fun _ ↦ Css.Selector.mem_localClasses_iff _,
      Css.Selector.localClasses_mapClasses f style.selectors⟩

namespace Sample

/-- A class inside of two logical pseudo-classes, a nested rule, and a rule of another file. -/
def nested : Stylesheet :=
  ⟨⟨"/a.mcss"⟩,
    [⟨some ⟨"/b.mcss"⟩, ⟨[], [.block (.media [])
        [.block (.style [[.className "a", .logical .negation
            [[.logical .matchesAny [[.className "b", .combinator .child, .className "c"]]]]]] .empty)
          [.block (.style [[.nesting, .className "d"], [.className "a"]] .empty) []]]]⟩⟩,
      ⟨some ⟨"/a.mcss"⟩, ⟨[], [.block (.style [[.className "e"]] .empty) []]⟩⟩]⟩

/-- A class that occurs composes another name, and a class that does not occur composes both. -/
def composing : List Composes :=
  [⟨["a"], ⟨["g"], .everywhere⟩⟩, ⟨["t"], ⟨["a"], .here⟩⟩]

end Sample

/-- All of it for a class that is two selectors deep, and for a class that only composes. -/
theorem scope_agrees_sample :
    let own := (Namer.mk .development).name "a.mcss"
    let result := scope ⟨⟨"/"⟩, .development, .ofNamespaces .empty, .empty⟩ .empty "a.mcss"
      Sample.nested Sample.composing []
    Sample.nested.Edited (Css.Rule.Style.Renamed own) result.1 ∧
      result.1.HasClass (own "c") ∧ (result.2.get? "c").isSome = true ∧
      (result.2.get? "t").isSome = true ∧ (result.2.get? "g").isSome = false ∧
      (∀ names, result.2.get? "t" = some names → names.head? = some (own "t")) ∧
      Css.Selector.localClasses
          (Css.Selector.mapClasses (fun _ ↦ "k") [[.className "a", .className "b"]]) = ["k"] := by
  intro own result
  obtain ⟨hsheet, hclass, hentry, hnames, hlist⟩ := scope_agrees
    ⟨⟨"/"⟩, .development, .ofNamespaces .empty, .empty⟩ .empty "a.mcss" Sample.nested
    Sample.composing []
  have hc : Sample.nested.HasClass "c" := Stylesheet.hasClass_iff.2 (by decide)
  have hg : ¬ (Sample.nested.HasClass "g" ∨ ∃ d ∈ Sample.composing, "g" ∈ d.targets) := by
    rw [Stylesheet.hasClass_iff]
    decide
  refine ⟨(hsheet _).2 rfl, (hclass _).2 ⟨"c", hc, rfl⟩, (hentry "c").2 (.inl hc),
    (hentry "t").2 (.inr (by decide)), ?_, fun names h ↦ (hnames "t" names h).1, ?_⟩
  · rw [← Bool.not_eq_true]
    exact fun h ↦ hg ((hentry "g").1 h)
  · exact (hlist (fun _ ↦ "k") ⟨[[.className "a", .className "b"]], .empty⟩ _
      ((Css.Rule.Style.renamed_iff _ _).2 rfl)).2.2

end ModuleStore

end StyleModules
