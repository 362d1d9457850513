import StyleModules.Proofs.Bounds

/-!
# Inlining is the closure of a file under its imports

Whatever the imports of a file lead to is inlined, and nothing else.  If one of these imports does
not load, inlining fails.  Otherwise each file has one chunk, and each but the one that is compiled
has one message, however often and in whatever circles the files import each other.
-/

namespace StyleModules.Imports

open Relation Traversal

variable {s : Sources} {root f g : Path} {c source : StyleChunk} {new : List Path}
  {chunks : List StyleChunk} {messages : List ImportMessage}

def IsLocalImport (r : Css.Rule) : Prop := ∃ i, r = .statement (.imported i) ∧ IsLocal i

theorem isSome_reference?_iff {r : Css.Rule} : (reference? r).isSome = true ↔ IsLocalImport r := by
  rw [Option.isSome_iff_exists]
  constructor
  · rintro ⟨reference, h⟩
    obtain ⟨i, hr, hi, -⟩ := reference?_eq_some_iff.1 h
    exact ⟨i, hr, hi⟩
  · rintro ⟨i, hr, hi⟩
    exact ⟨i.address, reference?_eq_some_iff.2 ⟨i, hr, hi, rfl⟩⟩

instance : DecidablePred IsLocalImport := fun _ ↦ decidable_of_iff _ isSome_reference?_iff

/-- What is left of a chunk when its local imports are inlined. -/
def remainder (file : Path) (source : StyleChunk) : StyleChunk :=
  ⟨some file, { source.sheet with rules := source.sheet.rules.filter (¬ IsLocalImport ·) }⟩

theorem withoutReferences_eq (h : source.file = some f) :
    withoutReferences source = remainder f source := by
  have hrules : source.sheet.rules.filter (fun r ↦ (reference? r).isNone) =
      source.sheet.rules.filter (¬ IsLocalImport ·) := by
    refine List.filter_congr fun r _ ↦ ?_
    rw [← Option.not_isSome, Bool.eq_iff_iff]
    simp [← isSome_reference?_iff]
  rw [withoutReferences, StyleChunk.mapRules, hrules, h, remainder]

/-- The chunks and the messages that inlining a file leaves when it succeeds. -/
structure IsInlining (s : Sources) (root : Path) (c : StyleChunk) (chunks : List StyleChunk)
    (messages : List ImportMessage) : Prop where
  /-- No file has two chunks. -/
  nodup : (filesOf chunks).Nodup
  /-- The files that have a chunk are those that can be reached. -/
  mem_iff : ∀ g, g ∈ filesOf chunks ↔ Leads s root c root g
  /-- What a file imports comes first, unless it leads back to the file. -/
  precedes : ∀ f g, Leads s root c root f → Imported s root c f g →
    g.Precedes f (filesOf chunks) ∨ Leads s root c g f
  /-- Each chunk is what was written in a file but for the imports that were inlined. -/
  kept : ∀ k ∈ chunks, ∃ f source, chunkOf s root c f = .ok source ∧ k = remainder f source
  gone : ∀ k ∈ chunks, ∀ r ∈ k.sheet.rules, ¬ IsLocalImport r
  /-- There is one message about each file but the last one, which is the one that is compiled. -/
  told : filesOf chunks = messages.map ImportMessage.file ++ [root]
  imported : ∀ m ∈ messages, Imported s root c m.parent m.file
  /-- Messages lead from each file to the one that is compiled. -/
  leads : ∀ g ∈ filesOf chunks, ReflTransGen (fun a b ↦ ⟨a, b⟩ ∈ messages) g root

section Root

variable (hr : s.resolver.IsNamespaced) (hdir : s.files.isFile ⟨"/"⟩ = false)
  (hroot : root.IsPlace) (hne : root ≠ ⟨"/"⟩)
  (h : Inlines s root [root] (references c) new chunks messages)
include hr hdir hroot hne h

theorem Inlines.met : Met s root (root :: new) :=
  (Met.singleton hroot hne).append hr hdir (List.mem_singleton_self root) h

/-- The walk from the file that is compiled finds what can be reached. -/
theorem Inlines.mem_iff_leads : g ∈ root :: new ↔ Leads s root c root g := by
  have hmet := h.met hr hdir hroot hne
  have hwalk : Preorder (importsOf s root c) [root] (importsOf s root c root) new := by
    rw [importsOf_eq (chunkOf_root s root c)]
    exact h.preorder (List.mem_singleton_self root)
  constructor
  · intro hg
    rcases List.mem_cons.1 hg with rfl | hg
    · exact ReflTransGen.refl
    · obtain ⟨f, hf, -, hreaches⟩ := hwalk.reaches g hg
      exact (ReflTransGen.mono (fun _ _ hstep ↦ mem_importsOf.1 hstep.1) _ _ hreaches).head
        (mem_importsOf.1 hf)
  · intro hg
    induction hg with
    | refl => exact List.mem_cons_self
    | @tail x y _ hxy ih =>
      have hamong : y.isAmong (root :: new) = true := by
        rcases List.mem_cons.1 ih with rfl | hx
        · exact hwalk.closed.1 y (mem_importsOf.2 hxy)
        · exact hwalk.closed.2 x hx y (mem_importsOf.2 hxy)
      obtain ⟨source, i, -, -, -, rfl⟩ := hxy
      obtain ⟨hplace, hxne⟩ := hmet.places x ih
      exact (Path.isAmong_iff_mem (isPlace_target hr hplace hxne i.address)
        fun z hz ↦ (hmet.places z hz).1).1 hamong

/-- Whatever can be reached by imports loads. -/
theorem Inlines.loads (hf : Leads s root c root f) (hg : Imported s root c f g) :
    Loads s root c g := by
  have hmem := (h.mem_iff_leads hr hdir hroot hne).2 (hf.tail hg)
  obtain ⟨hrefs, hnew⟩ := h.isFile_of_imported (c := c) (List.mem_singleton_self root)
  refine ⟨?_, ?_⟩
  · rcases List.mem_cons.1 ((h.mem_iff_leads hr hdir hroot hne).2 hf) with rfl | hf
    · obtain ⟨r, hr, rfl⟩ := (imported_iff (chunkOf_root s _ c)).1 hg
      exact hrefs r hr
    · exact hnew f hf g hg
  · by_cases hgroot : g = root
    · rw [hgroot]
      exact ⟨c, chunkOf_root s root c⟩
    · rw [chunkOf_of_ne hgroot]
      exact h.exists_readChunk.1 g ((List.mem_cons.1 hmem).resolve_left hgroot)

theorem Inlines.isInlining (hc : c.file = some root) :
    IsInlining s root c (chunks ++ [withoutReferences c]) messages := by
  have hfiles : filesOf (chunks ++ [withoutReferences c]) = filesOf chunks ++ [root] :=
    filesOf_withoutReferences hc chunks []
  have hperm : (filesOf (chunks ++ [withoutReferences c])).Perm (root :: new) := by
    rw [hfiles]
    exact List.perm_append_comm.trans (h.perm.cons root)
  have hmet := h.met hr hdir hroot hne
  obtain ⟨hrefs, hnew⟩ := h.precedes hr hdir (Met.singleton hroot hne)
    (List.mem_singleton_self root) (imported_of_mem (chunkOf_root s root c)) []
    (List.forall_mem_singleton.2 (.inr ReflTransGen.refl))
  have hkept : ∀ k ∈ chunks ++ [withoutReferences c], ∃ f source,
      chunkOf s root c f = .ok source ∧ k = remainder f source := by
    refine List.forall_mem_append.2 ⟨fun k hk ↦ ?_, List.forall_mem_singleton.2
      ⟨root, c, chunkOf_root s root c, withoutReferences_eq hc⟩⟩
    obtain ⟨g, hg, source, hread, rfl⟩ := h.exists_readChunk.2 k hk
    have hgroot : g ≠ root := by
      rintro rfl
      exact (List.nodup_cons.1 hmet.nodup).1 hg
    exact ⟨g, source, (chunkOf_of_ne hgroot).trans hread,
      withoutReferences_eq (file_of_readChunk hread)⟩
  constructor
  case nodup => exact hperm.nodup_iff.2 hmet.nodup
  case mem_iff => exact fun g ↦ hperm.mem_iff.trans (h.mem_iff_leads hr hdir hroot hne)
  case precedes =>
    intro f g hf hg
    rw [hfiles]
    rcases List.mem_cons.1 ((h.mem_iff_leads hr hdir hroot hne).2 hf) with rfl | hf
    · obtain ⟨r, hr, rfl⟩ := (imported_iff (chunkOf_root s _ c)).1 hg
      refine ((hrefs r hr).resolve_left List.not_mem_nil).imp_left fun hchunk ↦ ?_
      exact Path.precedes_append (Path.isAmong_of_mem hchunk)
        (Path.isAmong_of_mem (List.mem_singleton_self _))
    · exact ((hnew f hf g hg).resolve_left List.not_mem_nil).imp_left fun h ↦ h.append _
  case kept => exact hkept
  case gone =>
    intro k hk r hrule
    obtain ⟨f, source, -, rfl⟩ := hkept k hk
    simpa using (List.mem_filter.1 hrule).2
  case told => rw [hfiles, h.map_file]
  case imported =>
    exact h.imported (List.mem_singleton_self root) (imported_of_mem (chunkOf_root s root c))
  case leads =>
    intro g hg
    rcases List.mem_cons.1 (hperm.mem_iff.1 hg) with rfl | hg
    · exact ReflTransGen.refl
    · exact h.leads g hg

end Root

/-- Inlining the imports of a file comes to an end, with chains of imports that are no longer than
there are files; the root of the file system is a directory and not one of these.  It succeeds
exactly if every local import loads that the file or one that it leads to has, and then leaves what
`IsInlining` says. -/
theorem inline_closure (hr : s.resolver.IsNamespaced) (hdir : s.files.isFile ⟨"/"⟩ = false)
    (hroot : root.IsPlace) (hne : root ≠ ⟨"/"⟩) (hc : c.file = some root) :
    (∀ limit, s.files.chainLimit ≤ limit →
      inlineWithin s limit ⟨root, [c]⟩ = inline s ⟨root, [c]⟩) ∧
      (∀ file, (inline s ⟨root, [c]⟩).2 ≠ .error (.endless file)) ∧
      ((∃ sheet, (inline s ⟨root, [c]⟩).2 = .ok sheet) ↔
        ∀ f g, Leads s root c root f → Imported s root c f g → Loads s root c g) ∧
      ∀ sheet, (inline s ⟨root, [c]⟩).2 = .ok sheet →
        sheet.source = root ∧ IsInlining s root c sheet.chunks (inline s ⟨root, [c]⟩).1 := by
  refine ⟨fun limit hlimit ↦ inlineWithin_singleton_eq hr hdir hroot hne hc hlimit, ?_⟩
  rcases hinline : inline s ⟨root, [c]⟩ with ⟨messages, fault | sheet⟩
  · obtain ⟨hends, f, g, hf, hg, hloads⟩ :=
      failsFor_of_inline hr hdir hroot hne hc (congrArg Prod.snd hinline)
    refine ⟨fun file h ↦ hends file (Except.error.inj h), ⟨?_, fun hall ↦ ?_⟩, fun sheet h ↦ ?_⟩
    · rintro ⟨sheet, h⟩
      simp at h
    · exact absurd (hall f g hf hg) hloads
    · simp at h
  · obtain ⟨new, before, hinlines, rfl⟩ := inlines_of_inline hc hinline
    refine ⟨by simp, ⟨fun _ f g hf hg ↦ ?_, fun _ ↦ ⟨_, rfl⟩⟩, fun sheet h ↦ ?_⟩
    · exact hinlines.loads hr hdir hroot hne hf hg
    · rw [← Except.ok.inj h]
      exact ⟨rfl, hinlines.isInlining hr hdir hroot hne hc⟩

namespace Sample

/-- Two files import each other and a third one, and an external stylesheet is imported as well. -/
def tangled : Sources where
  files := .memory (FileTree.Memory.ofFiles none
    [(⟨"/a.mcss"⟩, "@import 'b'; @import 'ui::c'; @import 'b' screen;".toUTF8),
      (⟨"/b.mcss"⟩, "@import './ui/c.mcss'; @import 'https://b.css'; @import 'a';".toUTF8),
      (⟨"/ui/c.mcss"⟩, "".toUTF8)])
  resolver := .ofNamespaces (.ofList [("ui", ⟨"/ui"⟩)])

theorem isNamespaced_tangled : tangled.resolver.IsNamespaced := by
  refine ⟨_, fun name d h ↦ ?_, rfl⟩
  obtain ⟨-, rfl⟩ := Prod.mk.inj (List.mem_singleton.1 (Table.lookup_mem h))
  decide

end Sample

/-- The third file comes first and once, and the circle is cut at the file that is compiled. -/
theorem inline_closure_sample : ∃ c sheet messages,
    readChunk Sample.tangled ⟨"/a.mcss"⟩ = .ok c ∧
      inline Sample.tangled ⟨⟨"/a.mcss"⟩, [c]⟩ = (messages, .ok sheet) ∧
      filesOf sheet.chunks = [⟨"/ui/c.mcss"⟩, ⟨"/b.mcss"⟩, ⟨"/a.mcss"⟩] ∧
      messages = [⟨⟨"/ui/c.mcss"⟩, ⟨"/b.mcss"⟩⟩, ⟨⟨"/b.mcss"⟩, ⟨"/a.mcss"⟩⟩] ∧
      IsInlining Sample.tangled ⟨"/a.mcss"⟩ c sheet.chunks messages ∧
      Loads Sample.tangled ⟨"/a.mcss"⟩ c ⟨"/ui/c.mcss"⟩ := by
  have hrun : (readChunk Sample.tangled ⟨"/a.mcss"⟩).toOption.map (fun c ↦
      let r := inline Sample.tangled ⟨⟨"/a.mcss"⟩, [c]⟩
      (r.1, r.2.toOption.map fun sheet ↦ filesOf sheet.chunks)) =
        some ([⟨⟨"/ui/c.mcss"⟩, ⟨"/b.mcss"⟩⟩, ⟨⟨"/b.mcss"⟩, ⟨"/a.mcss"⟩⟩],
          some [⟨"/ui/c.mcss"⟩, ⟨"/b.mcss"⟩, ⟨"/a.mcss"⟩]) := by decide +kernel
  rcases hread : readChunk Sample.tangled ⟨"/a.mcss"⟩ with fault | c
  · simp [hread, Except.toOption] at hrun
  obtain ⟨-, -, hloads, hleaves⟩ := inline_closure Sample.isNamespaced_tangled
    (by decide +kernel) (by decide) (by decide) (file_of_readChunk hread)
  rcases hinline : inline Sample.tangled ⟨⟨"/a.mcss"⟩, [c]⟩ with ⟨messages, fault | sheet⟩
  · simp [hread, hinline, Except.toOption] at hrun
  have hsheet : (inline Sample.tangled ⟨⟨"/a.mcss"⟩, [c]⟩).2 = .ok sheet := by rw [hinline]
  have hinlining := (hleaves sheet hsheet).2
  rw [hinline] at hinlining
  simp only [hread, hinline, Except.toOption, Option.map_some, Option.some.injEq,
    Prod.mk.injEq] at hrun
  obtain ⟨hmessages, hfiles⟩ := hrun
  subst hmessages
  obtain ⟨hcb, hba⟩ := List.forall_mem_cons.1 hinlining.imported
  have hab := hba _ (List.mem_singleton_self _)
  exact ⟨c, sheet, _, rfl, hinline, hfiles, rfl, hinlining,
    hloads.1 ⟨sheet, hsheet⟩ _ _ (ReflTransGen.single hab) hcb⟩

end StyleModules.Imports
