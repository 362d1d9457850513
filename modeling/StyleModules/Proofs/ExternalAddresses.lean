import StyleModules.Proofs.Addresses
import StyleModules.Proofs.Characters

/-!
# Addresses that lead elsewhere

An absolute path, a fragment, inline data and whatever has a scheme in front of two slashes do not
name a file of the project, and no build changes them.  Letters count as a scheme in both cases; only
inline data has to be announced in small letters.  Announced otherwise it is taken for the name of a
file, and published as such.
-/

namespace StyleModules

/-! ## Kinds of addresses -/

namespace Reference

/-- An address that does not name a file of the project: an absolute path, a fragment, inline data
or letters in front of a colon and two slashes.  Letters can be of either case. -/
inductive IsForeign (address : String) : Prop
  | absolute {rest : List Char} (h : address.toList = '/' :: rest)
  | fragment {rest : List Char} (h : address.toList = '#' :: rest)
  | data (scheme rest : List Char) (h : address.toList = scheme ++ ':' :: rest)
      (hscheme : scheme.map Char.toLower = "data".toList)
  | scheme (letters rest : List Char) (h : address.toList = letters ++ ':' :: '/' :: '/' :: rest)
      (hletters : ∀ c ∈ letters, c.isAlpha = true) (hne : letters ≠ [])

/-- Inline data that is not announced in small letters, and has not two slashes behind the colon. -/
def IsMiswritten (address : String) : Prop :=
  ∃ scheme rest, address.toList = scheme ++ ':' :: rest ∧
    scheme.map Char.toLower = "data".toList ∧ scheme ≠ "data".toList ∧ ¬ ['/', '/'] <+: rest

variable {address : String}

theorem isSchemeLetter_of_isAlpha {c : Char} (h : c.isAlpha = true) : isSchemeLetter c = true := by
  simp only [isSchemeLetter, Bool.or_eq_true, Bool.and_eq_true, decide_eq_true_iff]
  rcases isAlpha_iff.1 h with hupper | hlower
  · exact .inl (.inl (.inr (isUpper_iff.1 hupper)))
  · exact .inl (.inl (.inl (isLower_iff.1 hlower)))

theorem isAlpha_of_mem_data {scheme : List Char} (h : scheme.map Char.toLower = "data".toList) :
    ∀ c ∈ scheme, c.isAlpha = true := by
  have hdata : ∀ c ∈ "data".toList, c.isAlpha = true := List.all_eq_true.1 (by decide)
  intro c hc
  exact isAlpha_of_toLower (hdata _ (h ▸ List.mem_map_of_mem hc))

/-- Letters in front of a colon are a scheme if two slashes follow. -/
theorem hasScheme_letters {letters rest : List Char} (hletters : ∀ c ∈ letters, c.isAlpha = true)
    (hne : letters ≠ []) :
    hasScheme (letters ++ ':' :: rest) = ['/', '/'].isPrefixOf rest := by
  have hall : ∀ c ∈ letters, isSchemeLetter c = true :=
    fun c hc ↦ isSchemeLetter_of_isAlpha (hletters c hc)
  have hcolon : ¬ isSchemeLetter ':' = true := by decide
  rw [hasScheme, List.takeWhile_append_of_pos hall, List.dropWhile_append_of_pos hall,
    List.takeWhile_cons_of_neg hcolon, List.dropWhile_cons_of_neg hcolon, List.append_nil]
  simp [hne]

theorem IsForeign.isExternal (h : IsForeign address) (hwritten : ¬ IsMiswritten address) :
    Reference.isExternal address = true := by
  simp only [Reference.isExternal, Bool.or_eq_true]
  cases h with
  | absolute h => exact .inl (.inl (.inl (startsWith_of_toList h)))
  | fragment h => exact .inl (.inr (startsWith_of_toList h))
  | data scheme rest h hscheme =>
    by_cases hsmall : scheme = "data".toList
    · subst hsmall
      have hdata : address.toList = "data:".toList ++ rest := h
      exact .inl (.inl (.inr (startsWith_of_toList hdata)))
    · have hslashes : ['/', '/'] <+: rest := by
        by_contra hplain
        exact hwritten ⟨scheme, rest, h, hscheme, hsmall, hplain⟩
      have hne : scheme ≠ [] := by
        rintro rfl
        simp at hscheme
      refine .inr ?_
      rw [h, hasScheme_letters (isAlpha_of_mem_data hscheme) hne]
      exact List.isPrefixOf_iff_prefix.2 hslashes
  | scheme letters rest h hletters hne =>
    refine .inr ?_
    rw [h, hasScheme_letters hletters hne]
    rfl

theorem IsMiswritten.starts_with_letter (h : IsMiswritten address) :
    ∃ c cs, address.toList = c :: cs ∧ c.isAlpha = true := by
  obtain ⟨scheme, rest, htext, hscheme, -, -⟩ := h
  cases scheme with
  | nil => simp at hscheme
  | cons c cs => exact ⟨c, _, htext, isAlpha_of_mem_data hscheme c List.mem_cons_self⟩

theorem IsMiswritten.isExternal (h : IsMiswritten address) :
    Reference.isExternal address = false := by
  obtain ⟨c, cs, hstart, hc⟩ := h.starts_with_letter
  obtain ⟨scheme, rest, htext, hscheme, hsmall, hslashes⟩ := h
  have hlength : scheme.length = 4 := by simpa using congrArg List.length hscheme
  have hne : scheme ≠ [] := by
    rintro rfl
    simp at hlength
  have habsolute : address.startsWith "/" = false :=
    startsWith_eq_false hstart rfl (ne_of_isAlpha hc rfl)
  have hfragment : address.startsWith "#" = false :=
    startsWith_eq_false hstart rfl (ne_of_isAlpha hc rfl)
  have hdata : address.startsWith "data:" = false := by
    rw [Bool.eq_false_iff]
    intro h
    obtain ⟨behind, hbehind⟩ := String.startsWith_string_iff.1 h
    rw [htext] at hbehind
    have hsame : scheme ++ ':' :: rest = "data".toList ++ ':' :: behind := hbehind.symm
    exact hsmall (List.append_inj_left hsame hlength)
  have hnone : hasScheme address.toList = false := by
    rw [htext, hasScheme_letters (isAlpha_of_mem_data hscheme) hne, Bool.eq_false_iff]
    exact fun h ↦ hslashes <| List.isPrefixOf_iff_prefix.1 h
  rw [Reference.isExternal, habsolute, hfragment, hdata, hnone]
  rfl

end Reference

/-! ## What a build does to them -/

namespace Transform

open Reference

variable {paths : PathResolver} {assets : Assets.Options} {file directory : Path}

theorem References.redirect_of_isExternal {address : String}
    (h : Reference.isExternal address = true) :
    References.redirect paths file address = address := by
  rw [References.redirect, References.isLocal, h]
  rfl

theorem Assets.publish_of_isExternal {address : String}
    (h : Reference.isExternal address = true) :
    Assets.publish assets directory address = address := by
  rw [Assets.publish, h, Bool.or_true, if_pos rfl]

/-- What becomes of a chunk between renaming and the transforms of the user. -/
def deliverChunk (paths : PathResolver) (assets : Assets.Options) (c : StyleChunk) : StyleChunk :=
  if assets.arePublic then Assets.publishChunk assets (References.redirectChunk paths c)
  else References.redirectChunk paths c

def deliverAddress (paths : PathResolver) (assets : Assets.Options) (file : Path)
    (address : String) : String :=
  if assets.arePublic then
    Assets.publish assets (file.parent?.getD ⟨""⟩) (References.redirect paths file address)
  else References.redirect paths file address

theorem deliverAddress_of_isExternal {address : String}
    (h : Reference.isExternal address = true) :
    deliverAddress paths assets file address = address := by
  rw [deliverAddress, References.redirect_of_isExternal h, Assets.publish_of_isExternal h, ite_self]

/-- Misspelt inline data is published like a file beside the one it is written in. -/
theorem deliverAddress_of_isMiswritten (hpublic : assets.arePublic = true)
    (hdirectory : file.parent? = some directory) {address : String} (h : IsMiswritten address)
    (hplain : Reference.isNamespaced address = false) : deliverAddress paths assets file address =
      assets.resolver.address (Assets.resource assets.base (directory.join ⟨address⟩)) := by
  obtain ⟨c, cs, hstart, hc⟩ := h.starts_with_letter
  have hdot : address.startsWith "." = false :=
    startsWith_eq_false hstart rfl (ne_of_isAlpha hc rfl)
  have hempty : address.isEmpty = false := by
    rw [Bool.eq_false_iff, Ne, String.isEmpty_iff]
    rintro rfl
    simp at hstart
  have hredirect : References.redirect paths file address = address := by
    rw [References.redirect, References.isLocal, hplain, hdot]
    simp
  rw [deliverAddress, if_pos hpublic, hredirect, hdirectory, Option.getD_some, Assets.publish,
    hempty, h.isExternal]
  rfl

theorem deliverChunk_of_file_eq_none {c : StyleChunk} (hc : c.file = none) :
    deliverChunk paths assets c = c := by
  have hredirect : References.redirectChunk paths c = c := by rw [References.redirectChunk, hc]
  have hpublish : Assets.publishChunk assets c = c := by rw [Assets.publishChunk, hc]
  rw [deliverChunk, hredirect, hpublish, ite_self]

theorem deliverChunk_of_file {c : StyleChunk} (hc : c.file = some file) :
    deliverChunk paths assets c = c.mapRules (Css.Rule.mapReferencesOfAll
      (References.redirect paths file) (deliverAddress paths assets file)) := by
  have hredirect : References.redirectChunk paths c = c.mapRules (Css.Rule.mapReferencesOfAll
      (References.redirect paths file) (References.redirect paths file)) := by
    rw [References.redirectChunk, hc]
  unfold deliverChunk deliverAddress
  cases assets.arePublic with
  | true =>
    have hfile : (References.redirectChunk paths c).file = some file := hredirect ▸ hc
    rw [if_pos rfl, Assets.publishChunk, hfile, hredirect]
    simp only [StyleChunk.mapRules, Css.Rule.mapReferencesOfAll_mapReferencesOfAll]
    rfl
  | false => exact hredirect

/-- The transforms of every build between renaming and those of the user change one chunk after the
other, also if they fail because there is no place for assets. -/
theorem chunks_after_forBuild (paths : PathResolver) (assets : Assets.Options) (j : Job) :
    ((Pipeline.forBuild paths assets .empty).run .after j).1.stylesheet.chunks =
      j.stylesheet.chunks.map (deliverChunk paths assets) := by
  unfold deliverChunk
  cases hpublic : assets.arePublic with
  | true =>
    rw [run_after_forBuild paths hpublic]
    rfl
  | false =>
    have hassets : ∀ j : Job, (Assets.transform assets).run j =
        (j, some (.noPublicDirectory j.stylesheet.source)) := fun j ↦ by
      simp [Assets.transform, hpublic]
    change (runAll [References.transform paths, Assets.transform assets] j).1.stylesheet.chunks = _
    simp [runAll, hassets, References.transform, ofEdit, Job.edit, Stylesheet.mapChunks]

/-- Between renaming and the transforms of the user, a build leaves alone all addresses that do not
name a file of the project, but for inline data that is not announced in small letters.  That is
published as if it were a file. -/
theorem foreign_addresses (paths : PathResolver) (assets : Assets.Options) (j : Job) :
    List.Forall₂ (fun c c' ↦
      List.Forall₂ (fun address address' ↦ IsForeign address → ¬ IsMiswritten address →
        address' = address) c.addresses c'.addresses ∧
      ∀ file directory, c.file = some file → file.parent? = some directory →
        assets.arePublic = true → ∃ onQuoted onAddress : String → String,
          c' = c.mapRules (Css.Rule.mapReferencesOfAll onQuoted onAddress) ∧
          ∀ address, IsMiswritten address → Reference.isNamespaced address = false →
            onAddress address =
              assets.resolver.address (Assets.resource assets.base (directory.join ⟨address⟩)))
      j.stylesheet.chunks
      ((Pipeline.forBuild paths assets .empty).run .after j).1.stylesheet.chunks := by
  rw [chunks_after_forBuild]
  refine List.forall₂_map_right_iff.2 (List.forall₂_same.2 fun c _ ↦ ⟨?_, ?_⟩)
  · cases hfile : c.file with
    | none =>
      rw [deliverChunk_of_file_eq_none hfile]
      exact List.forall₂_same.2 fun _ _ _ _ ↦ rfl
    | some file =>
      have hrewritten : c.Rewritten (References.redirect paths file)
          (deliverAddress paths assets file) (deliverChunk paths assets c) :=
        StyleChunk.rewritten_iff.2 (deliverChunk_of_file hfile)
      refine hrewritten.forall₂_addresses.imp fun address address' h hforeign hwritten ↦ ?_
      rcases h with rfl | rfl
      · rfl
      · exact deliverAddress_of_isExternal (hforeign.isExternal hwritten)
  · intro file directory hfile hdirectory hpublic
    exact ⟨_, _, deliverChunk_of_file hfile,
      fun address h hplain ↦ deliverAddress_of_isMiswritten hpublic hdirectory h hplain⟩

namespace Sample

def page (address : String) : Job :=
  .start .empty ⟨⟨"/project/src/a.mcss"⟩, [picture address]⟩

def deliveredPage (address : String) : List StyleChunk :=
  ((Pipeline.forBuild (.ofNamespaces pictures) published .empty).run .after
    (page address)).1.stylesheet.chunks

theorem isMiswritten_data : IsMiswritten "DATA:image/png;base64,AAAA" :=
  ⟨"DATA".toList, "image/png;base64,AAAA".toList, by decide, by decide, by decide, by decide⟩

end Sample

/-- A scheme in capitals is left alone, and inline data in capitals is published. -/
theorem foreign_addresses_sample :
    IsForeign "HTTPS://host/x.png" ∧ ¬ IsMiswritten "HTTPS://host/x.png" ∧
      (∃ c, Sample.deliveredPage "HTTPS://host/x.png" = [c] ∧
        c.addresses = ["HTTPS://host/x.png"]) ∧
      Path.parent? ⟨"/project/src/a.mcss"⟩ = some ⟨"/project/src"⟩ ∧
      Sample.published.arePublic = true ∧ IsMiswritten "DATA:image/png;base64,AAAA" ∧
      Reference.isNamespaced "DATA:image/png;base64,AAAA" = false ∧
      ∃ c, Sample.deliveredPage "DATA:image/png;base64,AAAA" = [c] ∧
        c.addresses = ["/static/src/DATA:image/png;base64,AAAA"] := by
  have hforeign : IsForeign "HTTPS://host/x.png" :=
    .scheme "HTTPS".toList "host/x.png".toList (by decide) (List.all_eq_true.1 (by decide))
      (by decide)
  have hwritten : ¬ IsMiswritten "HTTPS://host/x.png" := fun h ↦
    absurd h.isExternal (by decide +kernel)
  have hdirectory : Path.parent? ⟨"/project/src/a.mcss"⟩ = some ⟨"/project/src"⟩ := by
    decide +kernel
  have hplain : Reference.isNamespaced "DATA:image/png;base64,AAAA" = false := by decide +kernel
  refine ⟨hforeign, hwritten, ?_, hdirectory, by decide, Sample.isMiswritten_data, hplain, ?_⟩
  · have hall := foreign_addresses (.ofNamespaces Sample.pictures) Sample.published
      (Sample.page "HTTPS://host/x.png")
    obtain ⟨c, rest, ⟨haddresses, -⟩, hrest, heq⟩ := List.forall₂_cons_left_iff.1 hall
    obtain ⟨address, others, hsame, hothers, hc⟩ := List.forall₂_cons_left_iff.1 haddresses
    refine ⟨c, heq.trans (by rw [List.forall₂_nil_left_iff.1 hrest]), ?_⟩
    rw [hc, hsame hforeign hwritten, List.forall₂_nil_left_iff.1 hothers]
  · have hall := foreign_addresses (.ofNamespaces Sample.pictures) Sample.published
      (Sample.page "DATA:image/png;base64,AAAA")
    obtain ⟨c, rest, ⟨-, hpublish⟩, hrest, heq⟩ := List.forall₂_cons_left_iff.1 hall
    obtain ⟨onQuoted, onAddress, hc, haddress⟩ := hpublish _ _ rfl hdirectory (by decide)
    refine ⟨c, heq.trans (by rw [List.forall₂_nil_left_iff.1 hrest]), ?_⟩
    have hname : (AssetResolver.below "/static").address
        (Assets.resource ⟨"/project"⟩ (Path.join ⟨"/project/src"⟩ ⟨"DATA:image/png;base64,AAAA"⟩)) =
          "/static/src/DATA:image/png;base64,AAAA" := by decide +kernel
    rw [hc]
    exact congrArg (fun t ↦ [t]) ((haddress _ Sample.isMiswritten_data hplain).trans hname)

/-- Inline data is foreign in capitals too, but a build changes it. -/
theorem data_address_published : IsForeign "DATA:image/png;base64,AAAA" ∧
    Sample.deliveredPage "DATA:image/png;base64,AAAA" =
      [Sample.picture "/static/src/DATA:image/png;base64,AAAA"] := by
  constructor
  · exact .data "DATA".toList "image/png;base64,AAAA".toList (by decide) (by decide)
  · have haddress : deliverAddress (.ofNamespaces Sample.pictures) Sample.published
        ⟨"/project/src/a.mcss"⟩ "DATA:image/png;base64,AAAA" =
          "/static/src/DATA:image/png;base64,AAAA" := by decide +kernel
    rw [Sample.deliveredPage, chunks_after_forBuild]
    change [deliverChunk _ _ (Sample.picture _)] = _
    rw [deliverChunk_of_file rfl]
    simp [Sample.picture, StyleChunk.mapRules, Css.Rule.mapReferencesOfAll, Css.Rule.mapReferences,
      Css.Head.mapReferences, Css.Declarations.map, Css.Declaration.mapReferences,
      Css.Value.mapReferences, Css.Image.mapAddress, haddress]

end Transform

end StyleModules
