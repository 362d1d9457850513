import StyleModules.CommandLine
import StyleModules.Proofs.Canonical
import StyleModules.Proofs.Freshness
import StyleModules.Proofs.Listing

/-!
# Names of sources

A file as it is seen from the root leads from the root to where the file itself leads, however that
was written: inside the root, above it or beside it, and with whatever detours.  So does the name
that output maps list the file under.  This name is its own normal form, and files at different
places have different names.

What is tracked under a canonical path is therefore listed with its own composition.  A path that is
not canonical can lead to another place from the root than it does on disk, and then the two files
share one name and one of the two compositions is lost.
-/

namespace StyleModules

open Relation ModuleStore

namespace Path

variable {d p q : Path}

/-- Behind the names of an absolute path each step upwards takes one of them away, as long as there
are any. -/
theorem foldl_push_parents_root (n : Nat) {stack : List Component} (h : ∀ c ∈ stack, c.IsNamed) :
    (List.replicate n Component.parent).foldl push (stack ++ [.root]) =
      stack.drop n ++ [.root] := by
  induction n generalizing stack with
  | zero => rfl
  | succ n ih =>
    rw [List.replicate_succ, List.foldl_cons]
    cases stack with
    | nil =>
      have hroot := ih h
      rw [List.drop_nil] at hroot ⊢
      exact hroot
    | cons c stack =>
      obtain ⟨⟨m, rfl, -⟩, hrest⟩ := List.forall_mem_cons.1 h
      exact ih hrest

/-- Steps upwards take names off the base they are taken from. -/
theorem fold_climbed {base : List Component} (hbase : ∀ c ∈ base, c.IsNamed) (n : Nat)
    (rest : List Component) : fold (.root :: (base ++ (List.replicate n .parent ++ rest))) =
      fold (.root :: (base.take (base.length - n) ++ rest)) := by
  have htaken : ∀ c ∈ base.take (base.length - n), c.IsNamed :=
    fun c hc ↦ hbase c (List.mem_of_mem_take hc)
  have hclimbed : (base ++ List.replicate n Component.parent).foldl push [.root] =
      (base.take (base.length - n)).foldl push [.root] := by
    calc (base ++ List.replicate n Component.parent).foldl push [.root]
        = (List.replicate n Component.parent).foldl push (base.reverse ++ [.root]) := by
          rw [List.foldl_append, foldl_push_named hbase]
      _ = base.reverse.drop n ++ [.root] :=
          foldl_push_parents_root n fun c hc ↦ hbase c (List.mem_reverse.1 hc)
      _ = (base.take (base.length - n)).foldl push [.root] := by
          rw [List.drop_reverse, foldl_push_named htaken]
  calc fold (.root :: (base ++ (List.replicate n .parent ++ rest)))
      = (rest.foldl push ((base ++ List.replicate n Component.parent).foldl push [.root])).reverse := by
        rw [← List.foldl_append, List.append_assoc]
        rfl
    _ = (rest.foldl push ((base.take (base.length - n)).foldl push [.root])).reverse := by
        rw [hclimbed]
    _ = fold (.root :: (base.take (base.length - n) ++ rest)) := by
        rw [← List.foldl_append]
        rfl

/-- A file as seen from a directory leads from there to where the file itself leads. -/
theorem IsPlace.normalize_join_projectPath (hd : d.IsPlace) (p : Path) :
    (d.join (projectPath d p)).normalize = (d.join p).normalize := by
  cases hp : p.isAbsolute with
  | false =>
    rw [projectPath, if_neg (by simp [hp])]
    exact join_normalize d p
  | true =>
    have habsolute : p.isAbsolute = d.isAbsolute := by rw [hp, hd.isAbsolute]
    obtain ⟨target, hcomponents, htarget⟩ := components_of_isAbsolute hp
    obtain ⟨base, hbase, rfl⟩ := hd
    obtain ⟨n, rest, -, hclimb, rfl⟩ := climb_named target hbase
    have hway : ∀ c ∈ List.replicate n Component.parent ++ rest, c.IsStep :=
      List.forall_mem_append.2 ⟨fun c hc ↦ .inl (List.eq_of_mem_replicate hc),
        fun c hc ↦ htarget c (List.mem_append_right _ hc)⟩
    obtain ⟨hrelative, hsteps⟩ := steps_ofComponents hway
    have hseen : projectPath (ofComponents (.root :: base)) p =
        ofComponents (List.replicate n .parent ++ rest) := by
      rw [projectPath, if_pos hp, relativeTo?, if_neg (not_not.2 habsolute), hcomponents,
        components_ofComponents hbase, climb_root, hclimb, Option.map_some, Option.getD_some]
    rw [hseen, join_of_isAbsolute hp, normalize, normalize,
      (isPlace_ofComponents hbase).components_join hrelative, components_ofComponents hbase, hsteps,
      List.cons_append, fold_climbed hbase, hcomponents]

end Path

/-! ## Names and places -/

namespace Compiler

variable {c : Compiler} {fs : FileSystem} {p q : Path}

/-- The name of a file leads from the root to where the file leads. -/
theorem absolute_sourceKey (hroot : c.root.IsPlace) (p : Path) :
    c.absolute ⟨c.sourceKey p⟩ = c.absolute p := by
  calc c.absolute ⟨c.sourceKey p⟩
      = c.absolute (Path.projectPath c.root p) := Path.join_normalize c.root _
    _ = c.absolute p := hroot.normalize_join_projectPath p

/-- Files of one name lead to the same place. -/
theorem absolute_eq_of_sourceKey (hroot : c.root.IsPlace) (h : c.sourceKey p = c.sourceKey q) :
    c.absolute p = c.absolute q := by
  calc c.absolute p = c.absolute ⟨c.sourceKey p⟩ := (absolute_sourceKey hroot p).symm
    _ = c.absolute ⟨c.sourceKey q⟩ := by rw [h]
    _ = c.absolute q := absolute_sourceKey hroot q

theorem same_of_absolute_eq (hp : c.IsCanonical p) (hq : c.IsCanonical q)
    (h : c.absolute p = c.absolute q) : p.Same q :=
  (Path.Same.symm hp).trans (h ▸ hq)

/-- A path is reached by way of a reference that strays. -/
def IsAstray (c : Compiler) (fs : FileSystem) (p : Path) : Prop :=
  ∃ y x : Path, c.Strays fs y x ∧ ReflTransGen (c.MayCompose fs) x p

theorem hands_isAstray (hroot : c.root.isAbsolute = true) (hresolver : c.resolver.IsNamespaced) :
    c.Hands fs fun p ↦ c.IsCanonical p ∨ c.IsAstray fs p := by
  rintro p q (hp | ⟨y, x, hstrays, hx⟩) hpq hexists
  · exact (hpq.isCanonical_or_strays hroot hresolver hp hexists).imp_right fun hstrays ↦
      ⟨p, q, hstrays, ReflTransGen.refl⟩
  · exact .inr ⟨y, x, hstrays, hx.tail hpq⟩

/-- The names tell the tracked files apart, except for some that went astray. -/
structure TellsApart (c : Compiler) (modules : PathMap Module) (astray : Path → Prop) : Prop where
  apart : ∀ p ∈ modules.keys, ∀ q ∈ modules.keys, c.IsCanonical p → c.IsCanonical q →
    c.sourceKey p = c.sourceKey q → p = q
  astray : c.resolver.IsNamespaced → ∀ p ∈ modules.keys, ¬ c.IsCanonical p → astray p

/-- A table has the composition of each module under the name of its file, if only canonical paths
lead to where that file is. -/
def ListsEach (c : Compiler) (modules : PathMap Module) (t : Table String Composition) : Prop :=
  ∀ p m, (p, m) ∈ modules.toList →
    (∀ q ∈ modules.keys, c.absolute q = c.absolute p → c.IsCanonical q) →
      t.get? (c.sourceKey p) = some m.composition

variable {modules : PathMap Module} {astray : Path → Prop}

theorem tellsApart_of_astray (hroot : c.root.IsPlace) (hmodules : modules.IsOrdered)
    (h : c.resolver.IsNamespaced → ∀ p ∈ modules.keys, c.IsCanonical p ∨ astray p) :
    c.TellsApart modules astray where
  apart _ hp _ hq hpCanonical hqCanonical hkey := hmodules.eq_of_same hp hq <|
    same_of_absolute_eq hpCanonical hqCanonical (absolute_eq_of_sourceKey hroot hkey)
  astray hresolver p hp := (h hresolver p hp).resolve_left

/-- Where only canonical paths lead to, a file has its name for itself. -/
theorem same_of_sourceKey (hroot : c.root.IsPlace) (hmodules : modules.IsOrdered) {m : Module}
    (hm : (p, m) ∈ modules.toList)
    (hcanonical : ∀ q ∈ modules.keys, c.absolute q = c.absolute p → c.IsCanonical q)
    (hq : modules.contains q = true) (hkey : c.sourceKey q = c.sourceKey p) : q.Same p := by
  rw [PathMap.contains_eq] at hq
  obtain ⟨n, hn⟩ := Option.isSome_iff_exists.1 hq
  obtain ⟨x, hx, hsame⟩ := hmodules.mem_of_get? hn
  have hplace : c.absolute x = c.absolute p :=
    absolute_eq_of_sourceKey hroot ((c.sourceKey_eq hsame).trans hkey)
  have hxp : x.Same p := same_of_absolute_eq
    (hcanonical x (List.mem_map.2 ⟨(x, n), hx, rfl⟩) hplace)
    (hcanonical p (List.mem_map.2 ⟨(p, m), hm, rfl⟩) rfl) hplace
  exact (Path.Same.symm hsame).trans hxp

end Compiler

/-- The events of a walk name the files that it came to. -/
theorem CommandLine.sources_of_walk {s : Session} (hroot : s.compiler.root.IsPlace)
    {disk : FileTree} {directory : Path} {files : List Path}
    (h : FileTree.Disk.walk disk directory = .ok files) :
    ∃ events, sources s disk directory = .ok events ∧
      List.Forall₂ (fun p e ↦ e.change = .init ∧ s.absolute e.file = s.absolute p)
        (files.filter s.options.handles) events := by
  refine ⟨(files.filter s.options.handles).map fun p ↦ ⟨.init, Path.projectPath s.root p⟩, ?_, ?_⟩
  · rw [sources, h]
  · rw [List.forall₂_map_right_iff]
    exact List.forall₂_same.2 fun p _ ↦ ⟨rfl, hroot.normalize_join_projectPath p⟩

/-! ## Sessions -/

namespace Session

variable {s start : Session} {P : FileSystem → Prop} {origin : Path → FileSystem} {p : Path}

theorem mem_keys_evicting {file : Path} (hp : p ∈ (s.evicting file).store.modules.keys) :
    p ∈ s.store.modules.keys :=
  modules_evicting (P := fun modules ↦ p ∈ modules.keys → p ∈ s.store.modules.keys)
    (fun _ _ h hp ↦ h (mem_keys_erase hp)) file id hp

theorem mem_keys_kept {e : FileEvent} (hp : p ∈ (s.kept e).store.modules.keys) :
    p ∈ s.store.modules.keys :=
  kept_preserves (P := fun s' ↦ p ∈ s'.store.modules.keys → p ∈ s.store.modules.keys) id
    mem_keys_evicting hp

/-- What an event adds to the tracked paths is canonical or went astray. -/
theorem mem_keys_handle (hroot : s.compiler.root.isAbsolute = true)
    (hresolver : s.compiler.resolver.IsNamespaced) (hs : s.store.IsOrdered) (e : FileEvent)
    (hp : p ∈ (s.handle e).1.store.modules.keys) :
    p ∈ s.store.modules.keys ∨ s.compiler.IsCanonical p ∨ s.compiler.IsAstray s.fs p := by
  have hplace : ∀ file, s.compiler.IsCanonical (s.absolute file) := fun file ↦
    Compiler.isCanonical_of_same (isPlace_absolute hroot file) rfl
  have htrail := trail_handle (Compiler.hands_isAstray hroot hresolver) e (isOrdered_kept hs e)
    (.inl (hplace e.file)) fun q _ _ ↦ .inl (hplace q)
  exact (htrail.mem_keys (isOrdered_kept hs e) hp).imp_left mem_keys_kept

/-- Whatever happens to a session, each path it tracks is canonical or went astray on a disk on
which an event was handled. -/
theorem Reached.isCanonical_or_isAstray (h : Reached P start s origin)
    (hroot : start.compiler.root.isAbsolute = true)
    (hresolver : start.compiler.resolver.IsNamespaced) (hstart : start.store = .empty) :
    ∀ p ∈ s.store.modules.keys,
      start.compiler.IsCanonical p ∨ ∃ fs, P fs ∧ start.compiler.IsAstray fs p := by
  induction h with
  | start =>
    intro p hp
    rw [hstart] at hp
    exact absurd hp List.not_mem_nil
  | edit _ _ ih => exact ih
  | @event s origin h hP e ih =>
    intro p hp
    have hordered := h.isOrdered (hstart ▸ isOrdered_empty)
    rw [← h.compiler_eq] at hroot hresolver
    rcases mem_keys_handle hroot hresolver hordered e hp with hp | hp | hp
    · exact ih p hp
    · exact .inl (h.compiler_eq ▸ hp)
    · exact .inr ⟨s.fs, hP, h.compiler_eq ▸ hp⟩
  | evict _ file ih => exact fun p hp ↦ ih p (mem_keys_evicting hp)
  | @writeBundle s origin h ih =>
    intro p hp
    rw [modules_writeBundle] at hp
    exact ih p hp
  | writeMaps _ ih => exact ih

theorem Reached.keeps (h : Reached P start s origin) (hstart : start.Keeps) : s.Keeps := by
  induction h with
  | start => exact hstart
  | edit _ _ ih => exact ⟨ih.modules, ih.maps⟩
  | event _ _ e ih =>
    refine ⟨modules_handle (fun _ p m h ↦ h.insert p m) (fun _ p h ↦ h.erase p) e ih.modules, ?_⟩
    rw [maps_handle]
    exact ih.maps.removeAll _
  | evict _ file ih =>
    exact ⟨modules_evicting (fun _ p h ↦ h.erase p) file ih.modules,
      (maps_evicting _ file).symm ▸ ih.maps⟩
  | @writeBundle s _ _ ih =>
    refine ⟨(modules_writeBundle s).symm ▸ ih.modules, ?_⟩
    by_cases hships : s.Ships
    · exact (ih.writeBundle hships).1
    · rw [maps_writeBundle_of_not_ships hships]
      exact ih.maps
  | writeMaps _ ih => exact ⟨ih.modules, ih.maps⟩

/-- A path as seen from the root leads to where the path leads, and so does the name of a source, so
what a walk found is named by its events and no two places share a name.  A bundle and the maps keep
the composition of each tracked file under a name of its own, except where a reference that the
resolver declines led to the same name from elsewhere. -/
theorem sourceKeys_faithful {c : Compiler} (hroot : c.root.IsPlace) :
    (∀ p, c.absolute (Path.projectPath c.root p) = c.absolute p) ∧
    (∀ s : Session, s.compiler = c → ∀ disk directory files,
      FileTree.Disk.walk disk directory = .ok files → ∃ events,
        CommandLine.sources s disk directory = .ok events ∧
          List.Forall₂ (fun p e ↦ e.change = .init ∧ c.absolute e.file = c.absolute p)
            (files.filter s.options.handles) events) ∧
    (∀ p : Path, c.absolute ⟨c.sourceKey p⟩ = c.absolute p ∧ (p.IsPlace → c.absolute p = p) ∧
      (Path.mk (c.sourceKey p)).resourceKey = c.sourceKey p) ∧
    (∀ p q, c.sourceKey p = c.sourceKey q → c.absolute p = c.absolute q) ∧
    (∀ calls, c.TellsApart (run c calls).modules
        (fun p ↦ ∃ fs file, .file fs file ∈ calls ∧ c.IsAstray fs p) ∧
      ∀ place bundle, ((run c calls).output c place).2 = .ok bundle →
        c.ListsEach (run c calls).modules bundle.compositions ∧
          ∀ key, (bundle.compositions.get? key).isSome = true ↔
            ∃ p, (run c calls).isTracked p = true ∧ c.sourceKey p = key) ∧
    ∀ o extras fs start, Session.start fs o extras = .ok start → start.compiler = c →
      ∀ P s origin, Reached P start s origin →
        c.TellsApart s.store.modules (fun p ↦ ∃ fs, P fs ∧ c.IsAstray fs p) ∧
          (s.Ships → c.ListsEach s.store.modules s.writeBundle.1.maps.selectors) := by
  refine ⟨hroot.normalize_join_projectPath, ?_, fun p ↦ ⟨Compiler.absolute_sourceKey hroot p,
    Compiler.absolute_eq, Path.resourceKey_mk_resourceKey _⟩,
    fun p q ↦ Compiler.absolute_eq_of_sourceKey hroot, fun calls ↦ ?_, ?_⟩
  · rintro s rfl disk directory files hwalk
    exact CommandLine.sources_of_walk hroot hwalk
  · have hs := (isOrdered_run c calls).modules
    refine ⟨Compiler.tellsApart_of_astray hroot hs fun hresolver p hp ↦ ?_,
      fun place bundle hbundle ↦
        ⟨fun p m hm hcanonical ↦ ?_, isSome_compositions_iff hs hbundle⟩⟩
    · refine (isCanonical_or_leadsAstray hroot.isAbsolute hresolver calls hp).imp_right ?_
      rintro ⟨later, fs, file, earlier, rfl, y, x, -, hstrays, hx⟩
      exact ⟨fs, file, List.mem_append_right _ List.mem_cons_self, y, x, hstrays, hx⟩
    · exact get?_compositions hs hbundle (hs.get?_of_mem hm)
        fun q ↦ Compiler.same_of_sourceKey hroot hs hm hcanonical
  · rintro o extras fs start hstart rfl P s origin h
    have hkeeps := h.keeps (Keeps.ofStart hstart).1
    refine ⟨Compiler.tellsApart_of_astray hroot hkeeps.modules fun hresolver ↦ ?_,
      fun hships p m hm hcanonical ↦ ?_⟩
    · obtain ⟨d, out, -, -, rfl⟩ := start_eq_ok hstart
      exact h.isCanonical_or_isAstray hroot.isAbsolute hresolver rfl
    · have hget := hkeeps.modules.get?_of_mem hm
      rw [← h.compiler_eq] at hroot hcanonical ⊢
      exact (hkeeps.writeBundle hships).2.2 p m hget
        fun q ↦ Compiler.same_of_sourceKey hroot hkeeps.modules hm hcanonical

namespace Sample

/-- A file composes from one above the root, and by a declined reference from one that is seen from
the working directory. -/
def beside : FileSystem :=
  disk [("/project/a.mcss", rule ".a" "composes:b from '../b';composes:c from '#b.mcss'"),
    ("/project/#b.mcss", rule ".d" ""), ("/b.mcss", rule ".b" ""), ("/#b.mcss", rule ".c" "")]

/-- The root is below the working directory. -/
def below : Compiler := { Sample.start.compiler with root := ⟨"/project"⟩ }

def askedBeside : List ModuleStore.Call := [.file beside ⟨"#b.mcss"⟩, .file beside ⟨"a.mcss"⟩]

end Sample

/-- A file above the root is listed under a name of its own.  Of two tracked files that are called
the same, one as seen from the root and one from the working directory, only one is listed. -/
theorem sourceKeys_faithful_sample :
    Sample.below.root.IsPlace ∧ Sample.below.absolute ⟨"../b.mcss"⟩ = ⟨"/b.mcss"⟩ ∧
      (run Sample.below Sample.askedBeside).modules.keys =
        [⟨"/b.mcss"⟩, ⟨"/project/#b.mcss"⟩, ⟨"/project/a.mcss"⟩, ⟨"#b.mcss"⟩] ∧
      Sample.below.IsAstray Sample.beside ⟨"#b.mcss"⟩ ∧
      ∃ bundle, ((run Sample.below Sample.askedBeside).output Sample.below
          ⟨"/styles.css"⟩).2 = .ok bundle ∧
        bundle.compositions.keys = ["#b.mcss", "../b.mcss", "a.mcss"] ∧
        ∃ m, (⟨"/b.mcss"⟩, m) ∈ (run Sample.below Sample.askedBeside).modules.toList ∧
          bundle.compositions.get? "../b.mcss" = some m.composition := by
  have hroot : Sample.below.root.IsPlace := by decide +kernel
  have hkey : Sample.below.sourceKey ⟨"/b.mcss"⟩ = "../b.mcss" := by decide +kernel
  have hstray : ¬ Sample.below.IsCanonical ⟨"#b.mcss"⟩ := by decide +kernel
  have hrun : (run Sample.below Sample.askedBeside).modules.keys =
        [⟨"/b.mcss"⟩, ⟨"/project/#b.mcss"⟩, ⟨"/project/a.mcss"⟩, ⟨"#b.mcss"⟩] ∧
      ((run Sample.below Sample.askedBeside).output Sample.below
        ⟨"/styles.css"⟩).2.toOption.any
          (·.compositions.keys == ["#b.mcss", "../b.mcss", "a.mcss"]) = true := by decide +kernel
  obtain ⟨hkeys, houtput⟩ := hrun
  obtain ⟨-, -, hnames, -, hcalls, -⟩ := sourceKeys_faithful hroot
  obtain ⟨hleads, hitself, -⟩ := hnames ⟨"/b.mcss"⟩
  obtain ⟨hapart, hlists⟩ := hcalls Sample.askedBeside
  refine ⟨hroot, ?_, hkeys, ?_, ?_⟩
  · rw [← hkey, hleads, hitself (by decide +kernel)]
  · obtain ⟨fs, file, hcall, hastray⟩ := hapart.astray Sample.starts.isRegular.resolver
      ⟨"#b.mcss"⟩ (by rw [hkeys]; simp) hstray
    have hfs : fs = Sample.beside := by
      rcases List.mem_pair.1 hcall with heq | heq <;> exact (ModuleStore.Call.file.inj heq).1
    exact hfs ▸ hastray
  · have hcanonical : ∀ q ∈ (run Sample.below Sample.askedBeside).modules.keys,
        Sample.below.absolute q = Sample.below.absolute ⟨"/b.mcss"⟩ →
          Sample.below.IsCanonical q := by
      rw [hkeys]
      decide +kernel
    obtain ⟨⟨p, m⟩, hm, hp⟩ := List.mem_map.1 (hkeys ▸ List.mem_cons_self :
      (⟨"/b.mcss"⟩ : Path) ∈ (run Sample.below Sample.askedBeside).modules.keys)
    obtain rfl : p = ⟨"/b.mcss"⟩ := hp
    cases hbundle : ((run Sample.below Sample.askedBeside).output Sample.below
      ⟨"/styles.css"⟩).2 with
    | error fault => simp [hbundle, Except.toOption] at houtput
    | ok bundle =>
      have hget := (hlists _ _ hbundle).1 _ _ hm hcanonical
      rw [hkey] at hget
      exact ⟨bundle, rfl, by simpa [hbundle, Except.toOption] using houtput, m, hm, hget⟩

end Session

end StyleModules
