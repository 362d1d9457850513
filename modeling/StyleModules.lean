import StyleModules.Diagnostic.Json
import StyleModules.Main
import StyleModules.Proofs.BundleOrder
import StyleModules.Proofs.Closure
import StyleModules.Proofs.ComposesDeclarations
import StyleModules.Proofs.DepthBound
import StyleModules.Proofs.Eviction
import StyleModules.Proofs.Expansions
import StyleModules.Proofs.ExternalAddresses
import StyleModules.Proofs.Filtering
import StyleModules.Proofs.Freshness
import StyleModules.Proofs.ImportClosure
import StyleModules.Proofs.Integrity
import StyleModules.Proofs.Interning
import StyleModules.Proofs.Order
import StyleModules.Proofs.PublicAddresses
import StyleModules.Proofs.Recovery
import StyleModules.Proofs.ReloadedOptions
import StyleModules.Proofs.Relocation
import StyleModules.Proofs.ScopedNames
import StyleModules.Proofs.Scoping
import StyleModules.Proofs.SourceKeys
import StyleModules.Proofs.Transitivity
import StyleModules.Proofs.TreeShape
import StyleModules.Proofs.Unchanged
import StyleModules.Proofs.Unlinking
