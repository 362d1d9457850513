import StyleModules.Proofs.ReferenceEdits
import StyleModules.Proofs.RelativePath
import StyleModules.Proofs.Rules
import StyleModules.Proofs.Transform

/-!
# From addresses to published resources

After renaming, references are first written relative to their file, and then the addresses among
them are published.  Together the two steps publish what an address names: what the path resolver
finds for it if it is relative or has a known namespace, and otherwise what it spells as seen from
the directory of its file.  Nothing is lost in between, because the relative path that the first
step writes leads to what the resolver found.
-/

namespace StyleModules

open StyleModules.Path

theorem Reference.isExternal_of_startsWith {reference : String}
    (h : reference.startsWith "." = true) : Reference.isExternal reference = false := by
  obtain ⟨rest, hrest⟩ := String.startsWith_string_iff.1 h
  have htext : reference.toList = '.' :: rest := hrest.symm
  have hother : ∀ mark : String, mark.toList.head? ≠ some '.' → mark.toList ≠ [] →
      reference.startsWith mark = false := by
    intro mark hhead hne
    rw [Bool.eq_false_iff]
    intro hmark
    obtain ⟨behind, hbehind⟩ := String.startsWith_string_iff.1 hmark
    obtain ⟨x, xs, hx⟩ := List.exists_cons_of_ne_nil hne
    rw [htext, hx] at hbehind
    rw [hx] at hhead
    exact hhead (congrArg some (List.cons.inj hbehind).1)
  have hscheme : Reference.hasScheme reference.toList = false := by
    rw [htext]
    rfl
  rw [isExternal, hother "/" (by decide) (by decide), hother "data:" (by decide) (by decide),
    hother "#" (by decide) (by decide), hscheme]
  rfl

theorem Reference.isEmpty_of_startsWith {reference : String}
    (h : reference.startsWith "." = true) : reference.isEmpty = false := by
  rw [Bool.eq_false_iff]
  intro hempty
  have hnil : reference = "" := by simpa using hempty
  exact absurd (hnil ▸ h) (by decide)

namespace PathResolver

variable {options : ResolveOptions} {text : String}

/-! ## Relative results -/

theorem startsWith_withDot (h : options.prependDot = true) (text : String) :
    (withDot options text).startsWith "." = true := by
  unfold withDot
  split
  next => exact String.startsWith_string_iff.2 ⟨'/' :: text.toList, by simp⟩
  next hdot => simpa [h] using hdot

/-- A dot in front of a relative result changes nothing about where it leads. -/
theorem steps_withDot (options : ResolveOptions) (text : String) :
    (Path.mk (withDot options text)).steps = (Path.mk text).steps := by
  unfold withDot
  split
  next => exact steps_dot text
  next => rfl

end PathResolver

namespace Transform

open PathResolver

variable {namespaces : Table String Path} {file directory base t : Path} {reference : String}

namespace References

def hasNamespace (namespaces : Table String Path) (reference : String) : Bool :=
  (Reference.splitNamespace? reference).any fun parts ↦ namespaces.contains parts.1

/-- A reference in a file is replaced by a relative path. -/
def Replaces (resolver : PathResolver) (file : Path) (reference replacement : String) : Prop :=
  isLocal reference = true ∧ resolver.relative reference file options = some replacement

theorem Replaces.redirect_eq {resolver : PathResolver} {replacement : String}
    (h : Replaces resolver file reference replacement) :
    redirect resolver file reference = replacement := by
  rw [redirect, if_pos h.1, h.2, Option.getD_some]

theorem redirect_of_not_replaces {resolver : PathResolver}
    (h : ∀ replacement, ¬ Replaces resolver file reference replacement) :
    redirect resolver file reference = reference := by
  unfold redirect
  split
  next hlocal =>
    cases hrelative : resolver.relative reference file options with
    | none => rfl
    | some replacement => exact absurd ⟨hlocal, hrelative⟩ (h replacement)
  next => rfl

/-- What is resolved for redirecting is taken as it is found. -/
theorem absoluteIn_eq_some : absoluteIn namespaces reference file options = some t ↔
    (reference.isEmpty || Reference.isExternal reference) = false ∧
      target? namespaces reference file options = some t := by
  have hcomplete : options.complete = id := by
    funext p
    unfold ResolveOptions.complete
    cases p.extension? <;> rfl
  rw [absoluteIn, hcomplete, Option.map_id]
  split
  next hleft => simp [hleft]
  next hleft => simp [hleft]

theorem directory?_options (hdirectory : file.parent? = some directory) :
    options.directory? file = some directory := hdirectory

theorem isPlace_absoluteIn_options (hns : AreAbsolute namespaces) (hfile : file.IsPlace)
    (hdirectory : file.parent? = some directory)
    (h : absoluteIn namespaces reference file options = some t) : t.IsPlace := by
  refine isPlace_target? hns (fun d hd ↦ ?_) (absoluteIn_eq_some.1 h).2
  obtain rfl := Option.some.inj ((directory?_options hdirectory).symm.trans hd)
  exact (hfile.parent? hdirectory).isAbsolute

/-- What is resolved can be written relative to the file, and what is written leads to it. -/
theorem exists_relativeIn (hns : AreAbsolute namespaces) (hfile : file.IsPlace)
    (hdirectory : file.parent? = some directory)
    (h : absoluteIn namespaces reference file options = some t) : ∃ replacement,
    relativeIn namespaces reference file options = some replacement ∧
      replacement.startsWith "." = true ∧ (directory.join ⟨replacement⟩).normalize = t ∧
      ∀ other, absoluteIn namespaces other file options = some t →
        relativeIn namespaces other file options = some replacement := by
  have hplace := isPlace_absoluteIn_options hns hfile hdirectory h
  obtain ⟨x, hx, hrelative, hleads⟩ := hplace.exists_relativeTo? (hfile.parent? hdirectory)
  have hwritten : ∀ other, absoluteIn namespaces other file options = some t →
      relativeIn namespaces other file options = some (withDot options x.text) := by
    intro other hother
    rw [relativeIn, hother]
    simp only [bind, Option.bind, directory?_options hdirectory, hx]
  have hdot : (withDot options x.text).startsWith "." = true := startsWith_withDot rfl x.text
  refine ⟨_, hwritten reference h, hdot, hleads _ ?_ (steps_withDot options x.text), hwritten⟩
  obtain ⟨rest, htext⟩ := String.startsWith_string_iff.1 hdot
  rw [isAbsolute, ← htext]
  rfl

/-- A replacement leads to what was resolved, and replacing it again changes nothing unless it looks
like a namespace. -/
theorem Replaces.leads (hns : AreAbsolute namespaces) (hfile : file.IsPlace)
    (hdirectory : file.parent? = some directory) {replacement : String}
    (h : Replaces (.ofNamespaces namespaces) file reference replacement) :
    replacement.startsWith "." = true ∧
      absoluteIn namespaces reference file options = some (directory.join ⟨replacement⟩).normalize ∧
      (Reference.isNamespaced replacement = false →
        Replaces (.ofNamespaces namespaces) file replacement replacement) := by
  obtain ⟨-, hrelative⟩ := h
  obtain ⟨t, ht⟩ : ∃ t, absoluteIn namespaces reference file options = some t := by
    cases habsolute : absoluteIn namespaces reference file options with
    | none => simp [ofNamespaces, relativeIn, habsolute, bind] at hrelative
    | some t => exact ⟨t, rfl⟩
  obtain ⟨written, hwritten, hdot, hleads, hagain⟩ := exists_relativeIn hns hfile hdirectory ht
  obtain rfl := Option.some.inj (hwritten.symm.trans hrelative)
  refine ⟨hdot, hleads ▸ ht, fun hplain ↦ ⟨?_, hagain written ?_⟩⟩
  · simp [isLocal, Reference.isExternal_of_startsWith hdot, hdot]
  · have hsplit : Reference.splitNamespace? written = none := by
      simpa [Reference.isNamespaced] using hplain
    rw [absoluteIn_eq_some, Reference.isEmpty_of_startsWith hdot,
      Reference.isExternal_of_startsWith hdot, target?, hsplit]
    exact ⟨rfl, by simp [directory?_options hdirectory, hleads]⟩

end References

/-! ## What is published -/

namespace Assets

/-- What an address in a file names: what the resolver finds for it if it is relative or has a known
namespace, and otherwise what it spells as seen from the directory of the file. -/
def named (namespaces : Table String Path) (file directory : Path) (address : String) : Path :=
  let spelled := (directory.join ⟨address⟩).normalize
  if address.startsWith "." || References.hasNamespace namespaces address then
    (absoluteIn namespaces address file References.options).getD spelled
  else spelled

/-- What becomes of an address in a file when what it names is published. -/
def deliver (options : Options) (namespaces : Table String Path) (file directory : Path)
    (address : String) : String :=
  if address.isEmpty || Reference.isExternal address then address
  else options.resolver.address (resource options.base (named namespaces file directory address))

theorem isPlace_named (hns : AreAbsolute namespaces) (hfile : file.IsPlace)
    (hdirectory : file.parent? = some directory) (address : String) :
    (named namespaces file directory address).IsPlace := by
  have hspelled : (directory.join ⟨address⟩).normalize.IsPlace :=
    isPlace_normalize (isAbsolute_join (hfile.parent? hdirectory).isAbsolute)
  unfold named
  split
  next =>
    cases habsolute : absoluteIn namespaces address file References.options with
    | none => exact hspelled
    | some t => exact References.isPlace_absoluteIn_options hns hfile hdirectory habsolute
  next => exact hspelled

/-- Only what a path is normalized to counts for the name of a resource. -/
theorem resource_normalize (base p : Path) : resource base p.normalize = resource base p := by
  rw [resource, resource, normalize_normalize]

/-- The name of a resource leads from the base to the resource. -/
theorem exists_resource (hbase : base.IsPlace) (ht : t.IsPlace) : ∃ x,
    relativeTo? t base = some x ∧ resource base t = x.text ∧ (base.join x).normalize = t := by
  obtain ⟨x, hx, hrelative, hleads⟩ := ht.exists_relativeTo? hbase
  refine ⟨x, hx, ?_, hleads x hrelative rfl⟩
  rw [resource, ht.normalize_eq, hx, Option.getD_some]

/-- A reference that is found is relative or has a known namespace. -/
theorem named_of_absoluteIn {address : String} (hlocal : References.isLocal address = true)
    (h : absoluteIn namespaces address file References.options = some t) :
    named namespaces file directory address = t := by
  have hkind : (address.startsWith "." || References.hasNamespace namespaces address) = true := by
    have hnamed : (Reference.isNamespaced address || address.startsWith ".") = true :=
      (Bool.and_eq_true _ _ ▸ hlocal).2
    rw [Bool.or_eq_true] at hnamed ⊢
    refine hnamed.symm.imp_right fun hmark ↦ ?_
    obtain ⟨⟨name, inside⟩, hsplit⟩ := Option.isSome_iff_exists.1 hmark
    have htarget := (References.absoluteIn_eq_some.1 h).2
    rw [target?, hsplit] at htarget
    obtain ⟨d, hd, -⟩ := Option.map_eq_some_iff.1 htarget
    rw [References.hasNamespace, hsplit, Option.any_some, Table.contains, hd, Option.isSome_some]
  rw [named, if_pos hkind, h, Option.getD_some]

/-- Without a replacement an address names what it spells. -/
theorem named_of_not_replaces (hns : AreAbsolute namespaces) (hfile : file.IsPlace)
    (hdirectory : file.parent? = some directory) {address : String}
    (hlocal : (address.isEmpty || Reference.isExternal address) = false)
    (h : ∀ replacement, ¬ References.Replaces (.ofNamespaces namespaces) file address replacement) :
    named namespaces file directory address = (directory.join ⟨address⟩).normalize := by
  unfold named
  split
  next hkind =>
    cases habsolute : absoluteIn namespaces address file References.options with
    | none => rfl
    | some t =>
      obtain ⟨written, hwritten, -⟩ :=
        References.exists_relativeIn hns hfile hdirectory habsolute
      refine absurd ⟨?_, hwritten⟩ (h written)
      rw [Bool.or_eq_true] at hkind
      rw [Bool.or_eq_false_iff] at hlocal
      rcases hkind with hdot | hknown
      · simp [References.isLocal, hlocal.2, hdot]
      · have hmark : Reference.isNamespaced address = true := by
          cases hsplit : Reference.splitNamespace? address with
          | none => simp [References.hasNamespace, hsplit] at hknown
          | some parts => rw [Reference.isNamespaced, hsplit, Option.isSome_some]
        simp [References.isLocal, hlocal.2, hmark]
  next => rfl

/-- Redirecting an address and then publishing it publishes what the address names. -/
theorem publish_redirect (options : Options) (hns : AreAbsolute namespaces) (hfile : file.IsPlace)
    (hdirectory : file.parent? = some directory) (address : String) :
    publish options directory (References.redirect (.ofNamespaces namespaces) file address) =
      deliver options namespaces file directory address := by
  by_cases hreplaces : ∃ replacement,
      References.Replaces (.ofNamespaces namespaces) file address replacement
  · obtain ⟨replacement, h⟩ := hreplaces
    obtain ⟨hdot, habsolute, -⟩ := h.leads hns hfile hdirectory
    rw [h.redirect_eq, publish, deliver, (References.absoluteIn_eq_some.1 habsolute).1,
      Reference.isEmpty_of_startsWith hdot, Reference.isExternal_of_startsWith hdot,
      named_of_absoluteIn h.1 habsolute, resource_normalize]
    rfl
  · rw [not_exists] at hreplaces
    rw [References.redirect_of_not_replaces hreplaces, publish, deliver]
    split
    next => rfl
    next hleft =>
      rw [named_of_not_replaces hns hfile hdirectory (Bool.not_eq_true _ ▸ hleft) hreplaces,
        resource_normalize]

/-- Publishing alone is enough for an address without a known namespace. -/
theorem publish_eq_deliver (options : Options) (hdirectory : file.parent? = some directory)
    {address : String} (h : References.hasNamespace namespaces address = false) :
    publish options directory address = deliver options namespaces file directory address := by
  have hspelled : (address.isEmpty || Reference.isExternal address) = false →
      named namespaces file directory address = (directory.join ⟨address⟩).normalize := by
    intro hleft
    unfold named
    split
    next =>
      cases habsolute : absoluteIn namespaces address file References.options with
      | none => rfl
      | some t =>
        have htarget := (References.absoluteIn_eq_some.1 habsolute).2
        unfold target? at htarget
        split at htarget
        next name inside hsplit =>
          obtain ⟨d, hd, -⟩ := Option.map_eq_some_iff.1 htarget
          simp [References.hasNamespace, hsplit, Table.contains, hd] at h
        next =>
          rw [References.directory?_options hdirectory, Option.map_some] at htarget
          rw [Option.getD_some]
          exact (Option.some.inj htarget).symm
    next => rfl
  rw [publish, deliver]
  split
  next => rfl
  next hleft => rw [hspelled (Bool.not_eq_true _ ▸ hleft), resource_normalize]

end Assets

/-- The transforms of every build between renaming and those of the user. -/
theorem run_after_forBuild (paths : PathResolver) {assets : Assets.Options}
    (hpublic : assets.arePublic = true) (j : Job) :
    (Pipeline.forBuild paths assets .empty).run .after j =
      (j.edit (Stylesheet.mapChunks fun c ↦
        Assets.publishChunk assets (References.redirectChunk paths c)), none) := by
  have hassets : ∀ j : Job, (Assets.transform assets).run j =
      (j.edit (Stylesheet.mapChunks (Assets.publishChunk assets)), none) :=
    fun j ↦ if_pos hpublic
  change runAll [References.transform paths, Assets.transform assets] j = _
  simp [runAll, hassets, References.transform, ofEdit, Job.edit, Stylesheet.mapChunks]

/-- The chunk of a file after these transforms. -/
theorem publishChunk_redirectChunk (paths : PathResolver) (assets : Assets.Options) {c : StyleChunk}
    (hc : c.file = some file) (hdirectory : file.parent? = some directory) :
    Assets.publishChunk assets (References.redirectChunk paths c) =
      c.mapRules (Css.Rule.mapReferencesOfAll (References.redirect paths file)
        (Assets.publish assets directory ∘ References.redirect paths file)) := by
  have hredirect : References.redirectChunk paths c = c.mapRules (Css.Rule.mapReferencesOfAll
      (References.redirect paths file) (References.redirect paths file)) := by
    rw [References.redirectChunk, hc]
  have hfile : (c.mapRules (Css.Rule.mapReferencesOfAll
      (References.redirect paths file) (References.redirect paths file))).file = some file := hc
  rw [hredirect, Assets.publishChunk, hfile]
  simp only [hdirectory, StyleChunk.mapRules, Option.getD_some,
    Css.Rule.mapReferencesOfAll_mapReferencesOfAll]
  rfl

/-- A run of transforms cannot fail, and in the chunks of a file it changes nothing but the
references: the strings by one function, and the addresses in declarations and free-form parts by
another. -/
def Rewrites (run : Job → Job × Option Fault) (file : Path) (onQuoted onAddress : String → String) :
    Prop :=
  ∀ j, ∃ chunks, run j = ({ j with stylesheet := { j.stylesheet with chunks := chunks } }, none) ∧
    List.Forall₂ (fun c c' ↦ c.file = some file → c.Rewritten onQuoted onAddress c' ∧
      c'.mentioned = c.mentioned.map onAddress ∧ c'.linked = c.linked) j.stylesheet.chunks chunks

theorem rewrites_of_edit {run : Job → Job × Option Fault} {f : StyleChunk → StyleChunk}
    {onQuoted onAddress : String → String}
    (hrun : ∀ j, run j = (j.edit (Stylesheet.mapChunks f), none))
    (hchunk : ∀ c, c.file = some file →
      f c = c.mapRules (Css.Rule.mapReferencesOfAll onQuoted onAddress)) :
    Rewrites run file onQuoted onAddress := fun j ↦ by
  refine ⟨_, hrun j, List.forall₂_map_right_iff.2 (List.forall₂_same.2 fun c _ hc ↦ ?_)⟩
  have hedited := StyleChunk.rewritten_iff.2 (hchunk c hc)
  exact ⟨hedited, hedited.mentioned_eq, hedited.linked_eq⟩

/-- Between renaming and the transforms of the user, a build changes each address in the declarations
and free-form parts of a file to the one under which its resource is published: the resource that the
resolver finds if the address is relative or has a known namespace, and otherwise the one that it
spells.  Imports and namespaces keep their addresses.  The relative path that the first transform
writes leads to what the resolver finds, and is written again unless a double colon is in it; and an
address without a known namespace is published the same without the first transform. -/
theorem deliver_addresses (hns : AreAbsolute namespaces) {assets : Assets.Options}
    (hpublic : assets.arePublic = true) (hbase : assets.base.IsPlace) (hfile : file.IsPlace)
    (hdirectory : file.parent? = some directory) :
    let redirect := References.redirect (.ofNamespaces namespaces) file
    Rewrites ((Pipeline.forBuild (.ofNamespaces namespaces) assets .empty).run .after) file redirect
      (Assets.deliver assets namespaces file directory) ∧
    (∀ address, ∃ x,
      relativeTo? (Assets.named namespaces file directory address) assets.base = some x ∧
      Assets.resource assets.base (Assets.named namespaces file directory address) = x.text ∧
      (assets.base.join x).normalize = Assets.named namespaces file directory address) ∧
    Rewrites (References.transform (.ofNamespaces namespaces)).run file redirect redirect ∧
    (∀ reference replacement,
      References.Replaces (.ofNamespaces namespaces) file reference replacement →
        redirect reference = replacement ∧
        absoluteIn namespaces reference file References.options =
          some (directory.join ⟨replacement⟩).normalize ∧
        (Reference.isNamespaced replacement = false → redirect replacement = replacement)) ∧
    Rewrites (Assets.transform assets).run file id (Assets.publish assets directory) ∧
    ∀ address, References.hasNamespace namespaces address = false →
      Assets.publish assets directory address =
        Assets.deliver assets namespaces file directory address := by
  intro redirect
  have hdelivered : Assets.publish assets directory ∘ redirect =
      Assets.deliver assets namespaces file directory :=
    funext fun address ↦ Assets.publish_redirect assets hns hfile hdirectory address
  refine ⟨rewrites_of_edit (run_after_forBuild _ hpublic) fun c hc ↦ ?_, fun address ↦ ?_,
    rewrites_of_edit (fun _ ↦ rfl) fun c hc ↦ ?_, fun reference replacement h ↦ ?_,
    rewrites_of_edit (fun _ ↦ if_pos hpublic) fun c hc ↦ ?_,
    fun address ↦ Assets.publish_eq_deliver assets hdirectory⟩
  · rw [publishChunk_redirectChunk _ _ hc hdirectory, hdelivered]
  · exact Assets.exists_resource hbase (Assets.isPlace_named hns hfile hdirectory address)
  · rw [References.redirectChunk, hc]
  · obtain ⟨-, habsolute, hagain⟩ := h.leads hns hfile hdirectory
    exact ⟨h.redirect_eq, habsolute, fun hplain ↦ (hagain hplain).redirect_eq⟩
  · rw [Assets.publishChunk, hc]
    simp only [hdirectory, Option.getD_some]

namespace Sample

/-- One namespace, whose directory is beside the sources. -/
def pictures : Table String Path := .ofList [("img", ⟨"/project/assets/img"⟩)]

/-- Resources are named relative to the project. -/
def published : Assets.Options := ⟨some ⟨"/project/dist"⟩, ⟨"/project"⟩, .below "/static"⟩

def picture (address : String) : StyleChunk :=
  ⟨some ⟨"/project/src/a.mcss"⟩, ⟨[], [.block (.style [[.className "a"]]
    ⟨[⟨"background-image", .image (.address address)⟩], []⟩) []]⟩⟩

theorem areAbsolute_pictures : AreAbsolute pictures := by
  intro name d h
  obtain ⟨-, rfl⟩ := Prod.mk.inj (List.mem_singleton.1 (Table.lookup_mem h))
  decide

/-- A chunk that keeps an import.  In a block that is never entered, a picture is in a typed value,
and another one in a custom property, beside a string that names one. -/
def gallery : StyleChunk :=
  ⟨some ⟨"/project/src/a.mcss"⟩, ⟨[],
    [.statement (.imported ⟨"./b.css", none, none, [⟨none, "screen", none⟩]⟩),
    .block .startingStyle [.block (.style [[.className "a"]]
      ⟨[⟨"background-image", .image (.address "img::logo.png")⟩,
        ⟨"--x", .parts [.address "./b.png", .blank, .token (.quoted "img::c.png")]⟩], []⟩) []]]⟩⟩

end Sample

/-- A picture of the namespace is found beside the sources, and is written as a relative path before
it is published; one that is named relative to the file needs no such path. -/
theorem deliver_addresses_sample :
    AreAbsolute Sample.pictures ∧ Sample.published.arePublic = true ∧
      Sample.published.base.IsPlace ∧ Path.IsPlace ⟨"/project/src/a.mcss"⟩ ∧
      Path.parent? ⟨"/project/src/a.mcss"⟩ = some ⟨"/project/src"⟩ ∧
      (∃ c, ((Pipeline.forBuild (.ofNamespaces Sample.pictures) Sample.published .empty).run
          .after (.start .empty ⟨⟨"/project/src/a.mcss"⟩, [Sample.gallery]⟩)).1.stylesheet.chunks =
            [c] ∧
        c.mentioned = ["/static/assets/img/logo.png", "/static/src/b.png"] ∧
        c.linked = ["./b.css"]) ∧
      References.Replaces (.ofNamespaces Sample.pictures) ⟨"/project/src/a.mcss"⟩ "img::logo.png"
        "../assets/img/logo.png" ∧
      References.redirect (.ofNamespaces Sample.pictures) ⟨"/project/src/a.mcss"⟩
        "../assets/img/logo.png" = "../assets/img/logo.png" ∧
      Assets.publish Sample.published ⟨"/project/src"⟩ "./b.png" = "/static/src/b.png" := by
  have hplace : Path.IsPlace ⟨"/project/src/a.mcss"⟩ := by decide
  have hdirectory : Path.parent? ⟨"/project/src/a.mcss"⟩ = some ⟨"/project/src"⟩ := by
    decide +kernel
  have hreplaces : References.Replaces (.ofNamespaces Sample.pictures) ⟨"/project/src/a.mcss"⟩
      "img::logo.png" "../assets/img/logo.png" := ⟨by decide +kernel, by decide +kernel⟩
  have hpublic : Sample.published.arePublic = true := by decide
  have hpicture : Assets.deliver Sample.published Sample.pictures ⟨"/project/src/a.mcss"⟩
      ⟨"/project/src"⟩ "./b.png" = "/static/src/b.png" := by decide +kernel
  obtain ⟨hstage, -, -, hfound, -, hspelled⟩ :=
    deliver_addresses Sample.areAbsolute_pictures hpublic (by decide) hplace hdirectory
  refine ⟨Sample.areAbsolute_pictures, hpublic, by decide, hplace, hdirectory, ?_,
    hreplaces, (hfound _ _ hreplaces).2.2 (by decide +kernel),
    (hspelled _ (by decide +kernel)).trans hpicture⟩
  obtain ⟨chunks, hrun, hchunks⟩ :=
    hstage (.start .empty ⟨⟨"/project/src/a.mcss"⟩, [Sample.gallery]⟩)
  obtain ⟨c, rest, hc, hrest, rfl⟩ := List.forall₂_cons_left_iff.1 hchunks
  obtain ⟨-, hmentioned, hlinked⟩ := hc rfl
  refine ⟨c, by rw [hrun, List.forall₂_nil_left_iff.1 hrest], hmentioned.trans ?_, hlinked⟩
  have hlogo : Assets.deliver Sample.published Sample.pictures ⟨"/project/src/a.mcss"⟩
      ⟨"/project/src"⟩ "img::logo.png" = "/static/assets/img/logo.png" := by decide +kernel
  change [_, _] = _
  rw [hlogo, hpicture]

/-- An import that stays in the stylesheet keeps its address, though a resource is published for what
it names. -/
theorem kept_import_not_delivered :
    let sheet : Stylesheet := ⟨⟨"/project/src/a.mcss"⟩, [⟨some ⟨"/project/src/a.mcss"⟩,
      ⟨[], [.statement (.imported ⟨"./b.css", none, none, [⟨none, "screen", none⟩]⟩)]⟩⟩]⟩
    ((Pipeline.forBuild (.ofNamespaces Sample.pictures) Sample.published .empty).run .after
        (.start .empty sheet)).1.stylesheet.chunks = sheet.chunks ∧
      Assets.deliver Sample.published Sample.pictures ⟨"/project/src/a.mcss"⟩ ⟨"/project/src"⟩
        "./b.css" = "/static/src/b.css" := by
  intro sheet
  refine ⟨?_, by decide +kernel⟩
  rw [run_after_forBuild _ (by decide)]
  rfl

end Transform

end StyleModules
