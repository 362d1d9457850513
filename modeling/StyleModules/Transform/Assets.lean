import StyleModules.Resolver
import StyleModules.Transform

/-!
# Publishing assets

Addresses of local resources become the addresses under which these resources are published.
-/

namespace StyleModules.Transform.Assets

/-- What has to be known for assets to be published. -/
structure Options where
  /-- Where assets are published. -/
  publicDirectory : Option Path
  /-- The directory that resources are named relative to. -/
  base : Path
  resolver : AssetResolver

def resource (base : Path) (p : Path) : String :=
  ((Path.relativeTo? p.normalize base).getD p.normalize).text

/-- What becomes of an address that is written in a file of some directory. -/
def publish (options : Options) (directory : Path) (address : String) : String :=
  if address.isEmpty || Reference.isExternal address then address
  else options.resolver.address (resource options.base (directory.join ⟨address⟩))

/-- Publishes what the addresses of a chunk name; one that comes from no file is left alone. -/
def publishChunk (options : Options) (c : StyleChunk) : StyleChunk :=
  match c.file with
  | some file =>
    c.mapRules (Css.Rule.mapReferencesOfAll id (publish options (file.parent?.getD ⟨""⟩)))
  | none => c

def Options.arePublic (options : Options) : Bool :=
  options.publicDirectory.any (fun d ↦ !d.text.isEmpty)

/-- The transform that publishes assets.  It fails when there is no place for them. -/
def transform (options : Options) : Transform where
  name := "mcss-asset"
  run j :=
    if options.arePublic then (j.edit (Stylesheet.mapChunks (publishChunk options)), none)
    else (j, some (.noPublicDirectory j.stylesheet.source))

end StyleModules.Transform.Assets
