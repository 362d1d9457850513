import StyleModules.Options
import StyleModules.Proofs.JsonLayout
import StyleModules.Proofs.StoredFiles

/-!
# Options that are written and loaded again

Options that were loaded from a file can be written as JSON and loaded again, and come back with
every path, extension, namespace and address.  The mode comes back too, unless its name has capital
letters: a mode is told by its exact name, but written in lower case.
-/

namespace StyleModules

open Json Reader

namespace BuildMode

theorem accepts_toJson (m : BuildMode) : Accepts reader m.toJson (.ofName m.name) :=
  (accepts_textAs _ m.name).map ofName

end BuildMode

namespace Options

/-- The namespaces are sorted, and the mode is the one of some name. -/
structure IsFormed (o : Options) : Prop where
  namespaces : o.namespaces.IsSorted
  mode : ∃ name, o.mode = .ofName name

theorem yields_entries {α : Type} (r : Json.Reader α) (n : Nat) (isFirst : Bool)
    {t : Table String α} (h : t.IsSorted) : Yields (entries r n isFirst t) Table.IsSorted := by
  induction n generalizing isFirst t with
  | zero => exact yields_fail _
  | succ n ih =>
    refine .after fun more ↦ ?_
    split
    · refine .after fun _ ↦ .after fun name ↦ .after fun _ ↦ .after fun a ↦ ?_
      exact ih false (h.insert name a)
    · exact .after fun _ ↦ .pure h

theorem yields_table {α : Type} (r : Json.Reader α) : Yields (table r) Table.IsSorted := by
  refine .after fun c ↦ ?_
  split
  · exact .after fun _ ↦ .after fun n ↦ yields_entries r n true Table.isSorted_empty
  · exact yields_wrongType _

theorem yields_reader : Yields reader IsFormed := by
  refine yields_record (fun f hf o ho ↦ ?_) ⟨Table.isSorted_empty, "production", rfl⟩
  have hmode : Yields BuildMode.reader fun m ↦ ∃ name, m = .ofName name :=
    .map fun name ↦ ⟨name, rfl⟩
  simp only [shape, List.mem_cons, List.not_mem_nil, or_false] at hf
  -- only the mode and the namespaces are what the property is about
  obtain rfl | rfl | rfl | rfl | rfl | rfl | rfl := hf
  case inr.inr.inl => exact hmode.bind fun m hm ↦ .pure ⟨ho.namespaces, hm⟩
  case inr.inr.inr.inr.inr.inl =>
    exact (yields_table path).bind fun t ht ↦ .pure ⟨ht, ho.mode⟩
  all_goals exact .after fun _ ↦ .pure ⟨ho.namespaces, ho.mode⟩

theorem isFormed_of_ofFile {fs : FileSystem} {file : Path} {o : Options}
    (h : ofFile fs file = .ok o) : o.IsFormed := by
  unfold ofFile at h
  split at h
  · cases h
  next text _ =>
    split at h
    · cases h
    next loaded hread =>
      cases h
      exact yields_reader.of_read hread

theorem accepts_pathJson (p : Option Path) : Accepts (optional path) (pathJson p) p := by
  cases p with
  | none => exact accepts_optional_null path
  | some p => exact ((accepts_textAs _ p.text).map Path.mk).optional

theorem accepts_mapPathsJson (m : MapPaths) :
    Accepts (record mapPathsShape) (mapPathsJson m) m :=
  accepts_record (.cons (enters_field rfl rfl ((accepts_pathJson m.resources).bind_pure _))
    (.cons (enters_field rfl rfl ((accepts_pathJson m.bundles).bind_pure _))
    (.cons (enters_field rfl rfl ((accepts_pathJson m.selectors).bind_pure _)) (.nil _)))) rfl

/-- Options are taken for themselves, but for the mode. -/
theorem accepts_toJson {o : Options} (h : o.namespaces.IsSorted) :
    Accepts reader o.toJson { o with mode := .ofName o.mode.name } := by
  have hextensions : Accepts (list text) (.array (o.extensions.map .text)) o.extensions := by
    have htexts := accepts_list (g := id) (accepts_textAs "a string") o.extensions
    rwa [List.map_id] at htexts
  have hnamespaces : Accepts (table path)
      (.object (o.namespaces.entries.map fun e ↦ (e.1, .text e.2.text))) o.namespaces := by
    have hpath (p : Path) : Accepts path (.text p.text) p :=
      (accepts_textAs _ p.text).map Path.mk
    simpa [h.ofList_entries] using accepts_table hpath o.namespaces.entries
  exact accepts_record
    (.cons (enters_field rfl rfl ((accepts_pathJson o.outputDirectory).bind_pure _))
    (.cons (enters_field rfl rfl ((accepts_pathJson o.root).bind_pure _))
    (.cons (enters_field rfl rfl (o.mode.accepts_toJson.bind_pure _))
    (.cons (enters_field rfl rfl (hextensions.bind_pure _))
    (.cons (enters_field rfl rfl ((accepts_mapPathsJson o.mapPaths).bind_pure _))
    (.cons (enters_field rfl rfl (hnamespaces.bind_pure _))
    (.cons (enters_field rfl rfl ((accepts_textAs _ o.publicAddress).bind_pure _))
    (.nil _)))))))) rfl

end Options

namespace BuildMode

theorem ofName_eq_other_iff {text name : String} :
    ofName text = .other name ↔ text = name ∧ text ≠ "development" ∧ text ≠ "production" := by
  unfold ofName
  split <;> simp_all

theorem isDevelopment_ofName_iff {text : String} :
    (ofName text).isDevelopment = true ↔ text = "development" := by
  unfold ofName
  split <;> simp_all [isDevelopment]

/-- A mode comes back if its name is in lower case. -/
theorem ofName_name_eq_iff (text : String) : ofName (ofName text).name = ofName text ↔
    ∀ name, ofName text = .other name → Text.lowercase name = name := by
  cases hmode : ofName text with
  | development => simp [name, ofName]
  | production => simp [name, ofName]
  | other word =>
    obtain ⟨rfl, hdevelopment, hproduction⟩ := ofName_eq_other_iff.1 hmode
    have hname : (other text).name = Text.lowercase text := rfl
    rw [hname, ofName_eq_other_iff]
    constructor
    · rintro ⟨hlower, -⟩ _ ⟨⟩
      exact hlower
    · intro h
      rw [h text rfl]
      exact ⟨rfl, hdevelopment, hproduction⟩

/-- A mode is told from development as before unless its name is the one of development in lower
case. -/
theorem isDevelopment_ofName_name_iff (text : String) :
    (ofName (ofName text).name).isDevelopment = (ofName text).isDevelopment ↔
      ∀ name, ofName text = .other name → Text.lowercase name ≠ "development" := by
  cases hmode : ofName text with
  | development => simp [name, ofName, isDevelopment]
  | production => simp [name, ofName, isDevelopment]
  | other word =>
    have hname : (other word).name = Text.lowercase word := rfl
    have hother : (other word).isDevelopment = false := rfl
    rw [hname, hother, ← Bool.not_eq_true, isDevelopment_ofName_iff]
    constructor
    · rintro h _ ⟨⟩
      exact h
    · exact fun h ↦ h word rfl

end BuildMode

namespace Options

/-- Options that were written in either layout are loaded as they were, but for the mode. -/
theorem ofFile_of_written {fs : FileSystem} {file : Path} {o : Options} {text : String}
    (ho : o.namespaces.IsSorted) (htext : text = o.toJson.compact ∨ text = o.toJson.pretty)
    (hfile : fs.readText file = .ok text) :
    ofFile fs file = .ok { o with mode := .ofName o.mode.name } := by
  have hwritten : Written o.toJson text.toList := by
    obtain rfl | rfl := htext
    · rw [Json.compact, String.toList_ofList]
      exact written_compact _
    · rw [Json.pretty, String.toList_ofList]
      exact written_pretty 0 _
  rw [ofFile, hfile]
  simp only [read_of_written (accepts_toJson ho) hwritten]

/-- Options that were loaded, written as JSON in either layout and loaded again are the same but
for the mode.  The mode is the same if its name is in lower case, and as long as its name in lower
case is not the one of development it is told from development as before. -/
theorem ofFile_written {fs fs' : FileSystem} {file file' : Path} {o : Options} {text : String}
    (hload : ofFile fs file = .ok o) (htext : text = o.toJson.compact ∨ text = o.toJson.pretty)
    (hfile : fs'.readText file' = .ok text) :
    ofFile fs' file' = .ok { o with mode := .ofName o.mode.name } ∧
    (({ o with mode := .ofName o.mode.name } : Options) = o ↔
      ∀ name, o.mode = .other name → Text.lowercase name = name) ∧
    ((BuildMode.ofName o.mode.name).isDevelopment = o.mode.isDevelopment ↔
      ∀ name, o.mode = .other name → Text.lowercase name ≠ "development") := by
  obtain ⟨hnamespaces, name, hmode⟩ := isFormed_of_ofFile hload
  refine ⟨ofFile_of_written hnamespaces htext hfile, ?_, ?_⟩
  · rw [hmode, ← BuildMode.ofName_name_eq_iff, ← hmode]
    refine ⟨congrArg Options.mode, fun h ↦ ?_⟩
    rw [h]
  · rw [hmode]
    exact BuildMode.isDevelopment_ofName_name_iff name

namespace Sample

def holding (text : String) : FileSystem :=
  .memory ((FileTree.Memory.Access.write ⟨"/mcss.json"⟩ text.toUTF8).perform .empty)

theorem readText_holding (text : String) :
    (holding text).readText ⟨"/mcss.json"⟩ = .ok text := by
  refine FileSystem.readText_memory ?_
  rw [FileSystem.read_written FileTree.isSound_empty text.toUTF8 rfl, if_pos rfl]

/-- A mode of its own and a namespace. -/
def staging : Options :=
  { standard with mode := .other "staging", namespaces := .ofList [("img", ⟨"assets"⟩)] }

/-- Options that nobody wrote. -/
def stagingText : String :=
  "\x7b\"env\": \"staging\", \"namespaces\": \x7b\"img\": \"assets\"\x7d\x7d"

end Sample

/-- A mode in lower case comes back, and so does what is beside it. -/
theorem ofFile_written_sample :
    ofFile (Sample.holding Sample.stagingText) ⟨"/mcss.json"⟩ = .ok Sample.staging ∧
    ofFile (Sample.holding Sample.staging.toJson.pretty) ⟨"/mcss.json"⟩ = .ok Sample.staging := by
  have hload : ofFile (Sample.holding Sample.stagingText) ⟨"/mcss.json"⟩ = .ok Sample.staging := by
    rw [ofFile, Sample.readText_holding]
    decide +kernel
  obtain ⟨hreload, hsame, -⟩ := ofFile_written hload (.inr rfl) (Sample.readText_holding _)
  refine ⟨hload, hreload.trans (congrArg _ (hsame.2 ?_))⟩
  rintro _ ⟨⟩
  decide +kernel

/-- A mode with a capital letter comes back as development, which it was not. -/
theorem capital_mode_reloaded : ∃ o o' : Options,
    ofFile (Sample.holding "\x7b\"env\":\"Development\"\x7d") ⟨"/mcss.json"⟩ = .ok o ∧
      ofFile (Sample.holding o.toJson.compact) ⟨"/mcss.json"⟩ = .ok o' ∧
      o' ≠ o ∧ o.mode.isDevelopment = false ∧ o'.mode.isDevelopment = true := by
  have hlower : (BuildMode.other "Development").name = "development" := by decide +kernel
  have hreload := ofFile_of_written (o := { standard with mode := .other "Development" })
    Table.isSorted_empty (.inl rfl) (Sample.readText_holding _)
  rw [hlower] at hreload
  refine ⟨_, _, ?_, hreload, by decide, rfl, rfl⟩
  rw [ofFile, Sample.readText_holding]
  decide +kernel

end Options

end StyleModules
