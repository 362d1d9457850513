import StyleModules.Proofs.Calls
import StyleModules.Proofs.Location

/-!
# Canonical paths

Paths that are given to a store are normalized, and so is what the resolver finds.  A reference that
the resolver declines is taken as it is written.  So whatever is asked of a store, a file that it
tracks is known by its normal form, unless a declined reference names a file in another way; and
what is known by its normal form is found again, and is tracked once.
-/

namespace StyleModules

open Relation ModuleStore

namespace Compiler

variable {c : Compiler} {fs : FileSystem} {p q : Path}

/-- A path that denotes its own normal form, as it is seen from the root. -/
def IsCanonical (c : Compiler) (p : Path) : Prop := (c.absolute p).Same p

instance (c : Compiler) (p : Path) : Decidable (c.IsCanonical p) :=
  inferInstanceAs (Decidable ((c.absolute p).Same p))

theorem isCanonical_of_same {x : Path} (hx : x.IsPlace) (h : x.Same p) : c.IsCanonical p := by
  have habsolute : p.isAbsolute = true := h.isAbsolute_eq ▸ hx.isAbsolute
  have heq : c.absolute p = x := by
    rw [absolute, Path.join_of_isAbsolute habsolute, ← h.normalize_eq, hx.normalize_eq]
  rw [IsCanonical, heq]
  exact h

/-- A file composes from another one by a reference that the resolver declines and that is not
canonical. -/
def Strays (c : Compiler) (fs : FileSystem) (p q : Path) : Prop :=
  ∃ draft, c.Drafts fs p draft ∧ ∃ r ∈ references draft.composes,
    c.resolver.absolute r p (.stylesheet false) = none ∧ q = ⟨r⟩ ∧ fs.isFile q = true ∧
      ¬ c.IsCanonical q

/-- What a canonical file composes from is canonical, or the file strays. -/
theorem MayCompose.isCanonical_or_strays (hroot : c.root.isAbsolute = true)
    (hresolver : c.resolver.IsNamespaced) (hp : c.IsCanonical p) (h : c.MayCompose fs p q)
    (hexists : fs.isFile q = true) : c.IsCanonical q ∨ c.Strays fs p q := by
  obtain ⟨draft, hdraft, r, hr, rfl⟩ := h
  cases hresolved : c.resolver.absolute r p (.stylesheet false) with
  | none =>
    have htarget : c.target p r = ⟨r⟩ := by rw [target, hresolved, Option.getD_none]
    by_cases hq : c.IsCanonical (c.target p r)
    · exact .inl hq
    · exact .inr ⟨draft, hdraft, r, hr, hresolved, htarget, hexists, hq⟩
  | some t =>
    have htarget : c.target p r = t := by rw [target, hresolved, Option.getD_some]
    obtain ⟨namespaces, hnamespaces, heq⟩ := hresolver
    rw [heq] at hresolved
    have hdirectory : ∀ d, (ResolveOptions.stylesheet false).directory? p = some d →
        d.isAbsolute = true := fun d hd ↦ by
      have hd' : (c.absolute p).parent? = some d := hp.parent?_eq.trans hd
      exact ((isPlace_absolute_of_root hroot p).parent? hd').isAbsolute
    have hplace := PathResolver.isPlace_absoluteIn hnamespaces hdirectory hresolved
    exact .inl (htarget ▸ isCanonical_of_same hplace rfl)

/-- A call for a file leads to another one by way of a reference that strays. -/
def LeadsAstray (c : Compiler) (fs : FileSystem) (file p : Path) : Prop :=
  ∃ y x : Path, ReflTransGen (c.MayCompose fs) file y ∧ c.Strays fs y x ∧
    ReflTransGen (c.MayCompose fs) x p

/-- What a call for a file can meet. -/
def Meets (c : Compiler) (fs : FileSystem) (file p : Path) : Prop :=
  ReflTransGen (c.MayCompose fs) file p ∧ (c.IsCanonical p ∨ c.LeadsAstray fs file p)

theorem hands_meets (hroot : c.root.isAbsolute = true) (hresolver : c.resolver.IsNamespaced)
    (file : Path) : c.Hands fs (c.Meets fs file) := by
  rintro p q ⟨hreached, hp⟩ hpq hexists
  refine ⟨hreached.tail hpq, ?_⟩
  rcases hp with hp | ⟨y, x, hy, hstrays, hx⟩
  · exact (hpq.isCanonical_or_strays hroot hresolver hp hexists).imp_right fun hstrays ↦
      ⟨p, q, hreached, hstrays, ReflTransGen.refl⟩
  · exact .inr ⟨y, x, hy, hstrays, hx.tail hpq⟩

theorem meets_absolute (hroot : c.root.isAbsolute = true) (fs : FileSystem) (file : Path) :
    c.Meets fs (c.absolute file) (c.absolute file) :=
  ⟨ReflTransGen.refl, .inl (isCanonical_of_same (isPlace_absolute_of_root hroot file) rfl)⟩

end Compiler

namespace ModuleStore

variable {c : Compiler} {fs : FileSystem} {s s' : ModuleStore} {p q : Path}

/-- The paths that are new after a trail are among those that were allowed on it. -/
theorem Trail.mem_keys {A : Path → Prop} {ks : List Compilation} (h : Trail c fs A s ks s')
    (hs : s.IsOrdered) (hp : p ∈ s'.modules.keys) : p ∈ s.modules.keys ∨ A p := by
  refine (h.preserves (P := fun _ s' ↦ ∀ p ∈ s'.modules.keys, p ∈ s.modules.keys ∨ A p)
    (fun _ _ _ _ _ ih ↦ ih) ?_ hs fun _ hp ↦ .inl hp).2 p hp
  intro _ s₁ k ends hs₁ ih p hp
  rcases ends.finish_cases hs₁.modules with ⟨_, -, hmodules, -⟩ | ⟨m, _, -, hmodules, -⟩
  · exact ih p (hmodules ▸ hp)
  · rw [hmodules] at hp
    rcases PathMap.mem_keys_alter hp with rfl | hp
    · exact .inr ends.allowed
    · exact ih p hp

theorem mem_keys_erase {α : Type} {m : PathMap α} (h : p ∈ (m.erase q).keys) : p ∈ m.keys := by
  obtain ⟨e, he, rfl⟩ := List.mem_map.1 h
  obtain ⟨d, hd, rfl⟩ := List.mem_map.1 he
  exact List.mem_map.2 ⟨d.2, List.mem_map.2 ⟨d, List.mem_of_mem_filter hd, rfl⟩, rfl⟩

/-- Every path of a module is canonical, or a call was led astray to it. -/
theorem isCanonical_or_leadsAstray (hroot : c.root.isAbsolute = true)
    (hresolver : c.resolver.IsNamespaced) (calls : List Call)
    (hp : p ∈ (run c calls).modules.keys) : c.IsCanonical p ∨ ∃ later fs file earlier,
      calls = later ++ .file fs file :: earlier ∧ c.LeadsAstray fs (c.absolute file) p := by
  induction calls with
  | nil => exact absurd hp List.not_mem_nil
  | cons call earlier ih =>
    have hlater : p ∈ (run c earlier).modules.keys → c.IsCanonical p ∨ ∃ later fs file earlier',
        call :: earlier = later ++ .file fs file :: earlier' ∧
          c.LeadsAstray fs (c.absolute file) p := fun hp ↦ by
      refine (ih hp).imp_right ?_
      rintro ⟨later, fs, file, earlier', rfl, hastray⟩
      exact ⟨call :: later, fs, file, earlier', rfl, hastray⟩
    cases call with
    | file fs file =>
      have htrail := (track_trail (Compiler.hands_meets hroot hresolver (c.absolute file))
        (isOrdered_run c earlier) file (Compiler.meets_absolute hroot fs file)).1
      rcases htrail.mem_keys (isOrdered_run c earlier) hp with hp | ⟨-, hp⟩
      · exact hlater hp
      · exact hp.imp_right fun hastray ↦ ⟨[], fs, file, earlier, rfl, hastray⟩
    | remove path =>
      refine hlater ?_
      change p ∈ ((run c earlier).remove c path |>.toOption.getD (run c earlier)).modules.keys at hp
      rw [remove_eq] at hp
      split at hp
      next => exact mem_keys_erase hp
      next => exact hp
    | output place =>
      obtain ⟨journal, heq⟩ := output_fst c place (run c earlier)
      change p ∈ ((run c earlier).output c place).1.modules.keys at hp
      rw [heq] at hp
      exact hlater hp

theorem isTracked_of_mem_keys (hs : s.IsOrdered) (hp : p ∈ s.modules.keys) :
    s.isTracked p = true := by
  obtain ⟨⟨x, m⟩, he, rfl⟩ := List.mem_map.1 hp
  rw [isTracked_eq, hs.modules.get?_of_mem he, Option.isSome_some]

/-- Removing a file succeeds and takes it away exactly if its path is canonical. -/
theorem remove_iff_isCanonical (hp : s.isTracked p = true) :
    (∃ s', s.remove c p = .ok s' ∧ s'.isTracked p = false) ↔ c.IsCanonical p := by
  unfold remove
  simp only
  constructor
  · rintro ⟨s', hremoved, hgone⟩
    by_contra hne
    split at hremoved
    next =>
      obtain rfl := Except.ok.inj hremoved
      rw [isTracked_eq, PathMap.get?_erase_of_ne (fun h ↦ hne h.symm), ← isTracked_eq, hp] at hgone
      simp at hgone
    next => simp at hremoved
  · intro hcanonical
    rw [isTracked_congr hcanonical, if_pos hp]
    refine ⟨_, rfl, ?_⟩
    rw [isTracked_congr (Path.Same.symm hcanonical), isTracked_eq, PathMap.get?_erase_self]
    rfl

/-- After any calls the path of a module is canonical, or a call was led astray to it.  A canonical
path, normalized, finds the module, and it is the only one for its file. -/
theorem isCanonical_keys (hroot : c.root.isAbsolute = true) (hresolver : c.resolver.IsNamespaced)
    (calls : List Call) {p : Path} (hp : p ∈ (run c calls).modules.keys) :
    (c.IsCanonical p ∨ ∃ later fs file earlier, calls = later ++ .file fs file :: earlier ∧
        c.LeadsAstray fs (c.absolute file) p) ∧
      ((∃ s, (run c calls).remove c p = .ok s ∧ s.isTracked p = false) ↔ c.IsCanonical p) ∧
      (c.IsCanonical p → (run c calls).isTracked (c.absolute p) = true ∧
        (run c calls).composition? (c.absolute p) = (run c calls).composition? p ∧
        (∃ dependents, (run c calls).dependents c p = .ok dependents) ∧
        ∀ q ∈ (run c calls).modules.keys, c.IsCanonical q →
          ∀ fs : FileSystem, fs.SameFile p q → p.Same q) := by
  have hs := isOrdered_run c calls
  have htracked := isTracked_of_mem_keys hs hp
  refine ⟨isCanonical_or_leadsAstray hroot hresolver calls hp, remove_iff_isCanonical htracked,
    fun hcanonical ↦ ?_⟩
  have hfound : (run c calls).isTracked (c.absolute p) = true :=
    (isTracked_congr hcanonical _).trans htracked
  refine ⟨hfound, ?_, ?_, fun q _ hq fs hsame ↦ ?_⟩
  · rw [composition?_eq, composition?_eq, PathMap.get?_congr hcanonical]
  · unfold dependents
    rw [if_pos hfound]
    exact ⟨_, rfl⟩
  · have hplace := Compiler.isPlace_absolute_of_root hroot
    have hnormal : ∀ {x : Path}, c.IsCanonical x → fs.isFile x = true →
        fs.SameFile (c.absolute x) x := fun hx hexists ↦ FileSystem.sameFile_of_same hx
      (FileSystem.isFile_of_isPlain (Path.isPlain_normalize _) hx hexists) hexists
    have hpFile := hnormal hcanonical hsame.left
    have hqFile := hnormal hq hsame.right
    have hboth : fs.SameFile (c.absolute p) (c.absolute q) :=
      ⟨hpFile.left, hqFile.left,
        (hpFile.location.trans hsame.location).trans hqFile.location.symm⟩
    have heq := hboth.eq_of_isPlace (hplace p) (hplace q)
    exact (Path.Same.symm hcanonical).trans (heq ▸ hq)

end ModuleStore

namespace Session.Sample

/-- A file composes from another one by two references, of which the resolver declines one. -/
def detour : FileSystem :=
  disk [("/a.mcss", rule ".a" "composes: b from './b'; composes: b from '/x/../b.mcss'"),
    ("/b.mcss", rule ".b" "")]

end Session.Sample

namespace ModuleStore

open Session

/-- One file is tracked under two paths, and the one that is not canonical does not find it. -/
theorem isCanonical_keys_sample :
    (run Sample.start.compiler [.file Sample.detour ⟨"a.mcss"⟩]).modules.keys =
        [⟨"/a.mcss"⟩, ⟨"/b.mcss"⟩, ⟨"/x/../b.mcss"⟩] ∧
      Sample.detour.SameFile ⟨"/b.mcss"⟩ ⟨"/x/../b.mcss"⟩ ∧
      ¬ Sample.start.compiler.IsCanonical ⟨"/x/../b.mcss"⟩ ∧
      (∀ s, (run Sample.start.compiler [.file Sample.detour ⟨"a.mcss"⟩]).remove
        Sample.start.compiler ⟨"/x/../b.mcss"⟩ = .ok s → s.isTracked ⟨"/x/../b.mcss"⟩ = true) ∧
      Sample.start.compiler.LeadsAstray Sample.detour ⟨"/a.mcss"⟩ ⟨"/x/../b.mcss"⟩ := by
  have hkeys : (run Sample.start.compiler [.file Sample.detour ⟨"a.mcss"⟩]).modules.keys =
      [⟨"/a.mcss"⟩, ⟨"/b.mcss"⟩, ⟨"/x/../b.mcss"⟩] := by decide +kernel
  have hcanonical : ¬ Sample.start.compiler.IsCanonical ⟨"/x/../b.mcss"⟩ := by decide +kernel
  have hplace : Sample.start.compiler.absolute ⟨"a.mcss"⟩ = ⟨"/a.mcss"⟩ := by decide +kernel
  have hregular := Sample.starts.isRegular
  obtain ⟨hpath, hremove, -⟩ := isCanonical_keys hregular.root hregular.resolver
    [.file Sample.detour ⟨"a.mcss"⟩] (by rw [hkeys]; simp : ⟨"/x/../b.mcss"⟩ ∈ _)
  refine ⟨hkeys, ⟨by decide +kernel, by decide +kernel, by decide +kernel⟩, hcanonical,
    fun s hs ↦ ?_, ?_⟩
  · rw [← Bool.not_eq_false]
    exact fun hgone ↦ hcanonical (hremove.1 ⟨s, hs, hgone⟩)
  · obtain ⟨later, fs, file, earlier, hcalls, hastray⟩ := hpath.resolve_left hcanonical
    have hmem : Call.file fs file ∈ [Call.file Sample.detour ⟨"a.mcss"⟩] := by
      rw [hcalls]
      simp
    obtain ⟨rfl, rfl⟩ := Call.file.inj (List.mem_singleton.1 hmem)
    exact hplace ▸ hastray

end ModuleStore

end StyleModules
