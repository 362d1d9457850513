import StyleModules.Proofs.Addresses
import StyleModules.Proofs.WebAddress

/-!
# Where assets are published

The address under which an asset is published is the public address with the name of its resource
behind it.  That name is a relative path, and leads above the directory that resources are named
relative to if the asset is not in this directory.  A browser then resolves the address to one that
is no longer below the public one, unless the path comes back to it.  What is inside the directory
stays below the public address.
-/

namespace StyleModules

open StyleModules.Path

namespace WebAddress

variable {text : List Char}

/-- The segments up to a mark are those of the whole text up to that mark. -/
theorem splitOn_untilMark (text : List Char) :
    (untilMark text).splitOn '/' <+: (text.splitOn '/').map untilMark := by
  induction text with
  | nil => exact List.prefix_refl _
  | cons c text ih =>
    by_cases hslash : c = '/'
    · subst hslash
      exact List.cons_prefix_cons.2 ⟨rfl, ih⟩
    have hsplit : ∀ cs : List Char, (c :: cs).splitOn '/' =
        (cs.splitOn '/').modifyHead (List.cons c) := fun cs ↦ by
      rw [List.splitOn_cons_eq_if_modifyHead, if_neg (by simpa using hslash)]
    obtain ⟨t, ts, ht⟩ := List.exists_cons_of_ne_nil (List.splitOn_ne_nil '/' text)
    rw [hsplit, ht, List.modifyHead_cons, List.map_cons]
    cases hc : isMark c with
    | true => simp [untilMark, hc]
    | false =>
      obtain ⟨s, ss, hs⟩ := List.exists_cons_of_ne_nil (List.splitOn_ne_nil '/' (untilMark text))
      have hcons : ∀ cs, untilMark (c :: cs) = c :: untilMark cs :=
        fun cs ↦ List.takeWhile_cons_of_pos (by simp [hc])
      rw [hs, ht, List.map_cons] at ih
      rw [hcons, hcons, hsplit, hs, List.modifyHead_cons]
      obtain ⟨rfl, hrest⟩ := List.cons_prefix_cons.1 ih
      exact List.cons_prefix_cons.2 ⟨rfl, hrest⟩

theorem mem_splitOn_of_dropWhile {s : List Char}
    (h : s ∈ (text.dropWhile (· == '/')).splitOn '/') : s ∈ text.splitOn '/' := by
  induction text with
  | nil => exact h
  | cons c text ih =>
    by_cases hc : c = '/'
    · subst hc
      exact List.mem_cons_of_mem _ (ih h)
    · rwa [List.dropWhile_cons_of_neg (by simpa using hc)] at h

/-- A way over names only leads back to every place. -/
theorem leadsBack_of_not_isDots {names : List (List Char)} {rooted : Bool} {ending : List Char}
    (h : ∀ s ∈ text.splitOn '/', ¬ IsDots s) :
    LeadsBack names rooted (Way.follow (route text)) ending := by
  rw [follow_route_eq_through h]
  refine ⟨.inr (Nat.zero_le _), ?_, fun hnames ↦ ?_⟩
  · simp [Way.through]
  · simp [Way.through] at hnames

end WebAddress

namespace AssetResolver

theorem getLast?_withoutEndSlashes (text : String) :
    (withoutEndSlashes text).toList.getLast? ≠ some '/' := by
  intro h
  rw [withoutEndSlashes, String.toList_ofList, List.getLast?_reverse] at h
  have hhead := List.head?_dropWhile_not (· == '/') text.toList.reverse
  simp [h] at hhead

theorem head?_withoutStartSlashes (text : String) :
    (withoutStartSlashes text).toList.head? ≠ some '/' := by
  intro h
  rw [withoutStartSlashes, String.toList_ofList] at h
  have hhead := List.head?_dropWhile_not (· == '/') text.toList
  simp [h] at hhead

end AssetResolver

namespace Transform.Assets

open WebAddress AssetResolver

variable {base t : Path}

theorem climb_append (base rest : List Component) : climb [] (base ++ rest) base = some rest := by
  induction base with
  | nil => rfl
  | cons b base ih => rw [List.cons_append, climb, if_pos ⟨rfl, rfl⟩, ih]

/-- The name of a resource inside the base consists of names of the path that leads to it. -/
theorem mem_splitOn_resource (hbase : base.IsPlace) (ht : t.IsPlace)
    (hinside : base.components <+: t.components) {s : List Char}
    (hs : s ∈ (resource base t).toList.splitOn '/') :
    s = [] ∨ ∃ c ∈ t.components, s = c.text.toList := by
  obtain ⟨rest, hrest⟩ := hinside
  have hnamed : ∀ c ∈ rest, c.IsNamed := by
    obtain ⟨bs, hbs, rfl⟩ := hbase
    obtain ⟨ts, hts, rfl⟩ := ht
    rw [components_ofComponents hbs, components_ofComponents hts, List.cons_append] at hrest
    obtain ⟨-, rfl⟩ := List.cons.inj hrest
    exact fun c hc ↦ hts c (List.mem_append_right _ hc)
  have hresource : resource base t = joinNames rest := by
    have habsolute : t.isAbsolute = base.isAbsolute := by rw [ht.isAbsolute, hbase.isAbsolute]
    rw [resource, ht.normalize_eq, relativeTo?, if_neg (not_not.2 habsolute), ← hrest, climb_append]
    cases rest with
    | nil => rfl
    | cons c rest =>
      obtain ⟨⟨n, rfl, -⟩, -⟩ := List.forall_mem_cons.1 hnamed
      rfl
  rw [hresource, ← segments_eq_splitOn] at hs
  by_cases hnil : rest = []
  · subst hnil
    exact .inl (List.mem_singleton.1 hs)
  · rw [segments_joinNames (fun c hc ↦ (hnamed c hc).no_slash) hnil] at hs
    obtain ⟨c, hc, rfl⟩ := List.mem_map.1 hs
    exact .inr ⟨c, hrest ▸ List.mem_append_right _ hc, rfl⟩

/-- The address of an asset is the public address or below it, as a browser sees it, if and only if
the path of the public address has ended or the name of the resource leads back to it.  It always is
if the asset is inside the base and no name hides dots behind a question mark or a hash. -/
theorem publish_isAtOrBelow (options : Options) {home : String}
    (hhome : options.resolver = .below home)
    (hplain : ∀ s ∈ namesIn (path (withoutEndSlashes home).toList), ¬ IsDots s)
    (directory : Path) {address : String}
    (hlocal : (address.isEmpty || Reference.isExternal address) = false) :
    let place := withoutEndSlashes home
    let asset := (directory.join ⟨address⟩).normalize
    let name := withoutStartSlashes (resource options.base asset)
    (IsAtOrBelow place (resolve (publish options directory address)) ↔
      query place.toList ≠ [] ∨ LeadsBack (namesIn (path place.toList))
        (isRooted (path place.toList)) (Way.follow (route (untilMark name.toList)))
        (fromMark name.toList)) ∧
    (options.base.IsPlace → directory.IsPlace → options.base.components <+: asset.components →
      (∀ c ∈ asset.components, ¬ IsDots (untilMark c.text.toList)) →
        IsAtOrBelow place (resolve (publish options directory address))) := by
  intro place asset name
  have hpublish : publish options directory address = place ++ "/" ++ name := by
    rw [publish, hlocal, hhome, ← resource_normalize]
    rfl
  have hbelow := resolve_isAtOrBelow_iff (getLast?_withoutEndSlashes home)
    (head?_withoutStartSlashes (resource options.base asset)) hplain
  rw [hpublish]
  refine ⟨hbelow, fun hbase hdirectory hinside hdots ↦ hbelow.2 (.inr ?_)⟩
  refine leadsBack_of_not_isDots fun s hs ↦ ?_
  have hasset : asset.IsPlace := isPlace_normalize (isAbsolute_join hdirectory.isAbsolute)
  obtain ⟨u, hu, rfl⟩ := List.mem_map.1 ((splitOn_untilMark _).subset hs)
  rw [withoutStartSlashes, String.toList_ofList] at hu
  obtain rfl | ⟨c, hc, rfl⟩ :=
    mem_splitOn_resource hbase hasset hinside (mem_splitOn_of_dropWhile hu)
  · decide
  · exact hdots c hc

/-- A picture beside a stylesheet stays below the public address, and so does one that is in no
directory of the project but in one that is called like the public address. -/
theorem publish_isAtOrBelow_sample :
    Sample.published.resolver = .below "/static" ∧
      (∀ s ∈ namesIn (path (withoutEndSlashes "/static").toList), ¬ IsDots s) ∧
      ("img/x.png".isEmpty || Reference.isExternal "img/x.png") = false ∧
      ("../../static/x.png".isEmpty || Reference.isExternal "../../static/x.png") = false ∧
      Sample.published.base.IsPlace ∧ Path.IsPlace ⟨"/project/src"⟩ ∧
      Sample.published.base.components <+:
        (Path.join ⟨"/project/src"⟩ ⟨"img/x.png"⟩).normalize.components ∧
      IsAtOrBelow "/static" (resolve (publish Sample.published ⟨"/project/src"⟩ "img/x.png")) ∧
      IsAtOrBelow "/static"
        (resolve (publish Sample.published ⟨"/project/src"⟩ "../../static/x.png")) := by
  have hplain : ∀ s ∈ namesIn (path (withoutEndSlashes "/static").toList), ¬ IsDots s := by
    decide +kernel
  have hbeside : ("img/x.png".isEmpty || Reference.isExternal "img/x.png") = false := by
    decide +kernel
  have houtside : ("../../static/x.png".isEmpty || Reference.isExternal "../../static/x.png") =
      false := by decide +kernel
  have hinside : Sample.published.base.components <+:
      (Path.join ⟨"/project/src"⟩ ⟨"img/x.png"⟩).normalize.components := by decide +kernel
  have hplace : (withoutEndSlashes "/static") = "/static" := by decide +kernel
  have hstays := (publish_isAtOrBelow Sample.published rfl hplain ⟨"/project/src"⟩ hbeside).2
    (by decide) (by decide) hinside (by decide +kernel)
  have hback := (publish_isAtOrBelow Sample.published rfl hplain ⟨"/project/src"⟩ houtside).1.2
    (.inr ⟨.inl rfl, by decide +kernel, by decide +kernel⟩)
  rw [hplace] at hstays hback
  exact ⟨rfl, hplain, hbeside, houtside, by decide, by decide, hinside, hstays, hback⟩

/-- An address that climbs out of the project leaves the public address too. -/
theorem climbing_address_leaves :
    publish Sample.published ⟨"/project/src"⟩ "../../x.png" = "/static/../x.png" ∧
      resolve "/static/../x.png" = "/x.png" ∧ ¬ IsAtOrBelow "/static" "/x.png" := by
  exact ⟨by decide +kernel, by decide +kernel, by decide +kernel⟩

end Transform.Assets

end StyleModules
