import StyleModules.Composes
import StyleModules.Table

/-!
# Compositions

What each class of a file expands to: its own scoped name first, then the names of the classes it
is composed of, each once.
-/

namespace StyleModules

/-- The global names that each local class expands to. -/
abbrev Composition := Table String (List String)

namespace Composition

/-- Adds names that are not in a list yet. -/
def addNames (names more : List String) : List String :=
  more.foldl (fun known n ↦ if known.contains n then known else known ++ [n]) names

/-- Gives a class its own name unless it has names already. -/
def ensure (own : String → String) (c : Composition) (name : String) : Composition :=
  c.alter name (fun known ↦ known.getD [own name])

/-- Every class of some style rules, with nothing but its own name. -/
def ofStyles (own : String → String) (styles : List Css.Rule.Style) : Composition :=
  (styles.flatMap (fun s ↦ Css.Selector.localClasses s.selectors)).foldl (ensure own) .empty

/-- What a class of the same file expands to so far. -/
def expansion (own : String → String) (c : Composition) (name : String) : List String :=
  (c.get? name).getD [own name]

/-- The global names that composed classes stand for; `exported` gives those of other files. -/
def names (own : String → String) (exported : String → String → List String) (c : Composition)
    (composed : ComposedNames) : List String :=
  composed.names.flatMap fun name ↦
    match composed.source with
    | .here => expansion own c name
    | .everywhere => [name]
    | .file reference => exported reference name

/-- Adds what a declaration composes to the classes of its rule. -/
def compose (own : String → String) (exported : String → String → List String) (c : Composition)
    (d : Composes) : Composition :=
  let more := names own exported c d.composed
  d.targets.foldl
    (fun c target ↦ c.alter target (fun known ↦ addNames (known.getD [own target]) more)) c

/-- The composition of a file with some style rules and declarations. -/
def build (own : String → String) (exported : String → String → List String)
    (styles : List Css.Rule.Style) (declarations : List Composes) : Composition :=
  declarations.foldl (compose own exported) (ofStyles own styles)

end Composition

end StyleModules
