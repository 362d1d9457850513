import StyleModules.Resolver
import StyleModules.Transform

/-!
# Redirecting references

Strings and addresses that name a file through a namespace, or relative to the file they are
written in, become paths relative to that file.
-/

namespace StyleModules.Transform.References

/-- Results are relative paths that show as such. -/
def options : ResolveOptions := ⟨none, false, true⟩

def isLocal (reference : String) : Bool :=
  !Reference.isExternal reference
    && (Reference.isNamespaced reference || reference.startsWith ".")

def redirect (resolver : PathResolver) (file : Path) (reference : String) : String :=
  if isLocal reference then (resolver.relative reference file options).getD reference
  else reference

/-- Redirects the references of a chunk; one that comes from no file is left alone. -/
def redirectChunk (resolver : PathResolver) (c : StyleChunk) : StyleChunk :=
  match c.file with
  | some file =>
    c.mapRules (Css.Rule.mapReferencesOfAll (redirect resolver file) (redirect resolver file))
  | none => c

def transform (resolver : PathResolver) : Transform :=
  .ofEdit "mcss-path-resolver" (Stylesheet.mapChunks (redirectChunk resolver))

end StyleModules.Transform.References
