import StyleModules.Proofs.ImportGraph

/-!
# Chains of imports end

Each file is inlined at most once and only if it exists, so no chain of imports is longer than
there are files.  The length up to which chains are followed is more than that: inlining fails only
where some import does not load, and a larger length leads to the same.
-/

namespace StyleModules.Imports

open Relation

variable {s : Sources} {root file : Path} {c : StyleChunk} {p q : Progress} {refs : List String}
  {fault : Fault} {step step' : StyleChunk → Progress → Outcome} {n limit limit' : Nat}

/-- A failure that is accounted for: some import that a file leads to does not load. -/
structure FailsFor (s : Sources) (root : Path) (c : StyleChunk) (file : Path) (fault : Fault) :
    Prop where
  ends : ∀ x, fault ≠ .endless x
  missing : ∃ f g, Leads s root c file f ∧ Imported s root c f g ∧ ¬ Loads s root c g

/-- From where enough files were met, expanding the chunk of a file fails only where some import
does not load. -/
def FailsWell (s : Sources) (root : Path) (c : StyleChunk) (n : Nat)
    (step : StyleChunk → Progress → Outcome) : Prop :=
  ∀ ⦃source : StyleChunk⦄ ⦃file : Path⦄ ⦃p q : Progress⦄ ⦃fault : Fault⦄,
    chunkOf s root c file = .ok source → source.file = some file → Met s root p.inlined →
      file ∈ p.inlined → n ≤ p.inlined.length → step source p = (q, .error fault) →
        FailsFor s root c file fault

theorem ne_endless_of_readChunk {g : Path} (h : readChunk s g = .error fault) (x : Path) :
    fault ≠ .endless x := by
  unfold readChunk at h
  split at h
  next => rw [← Except.error.inj h]; simp
  next =>
    unfold StyleChunk.read at h
    split at h
    next => simp at h
    next => rw [← Except.error.inj h]; simp

section Failures

variable (hr : s.resolver.IsNamespaced) (hdir : s.files.isFile ⟨"/"⟩ = false)
include hr hdir

theorem failsFor_of_pull (hstep : FailsWell s root c (n + 1) step)
    (hmet : Met s root p.inlined) (hfile : file ∈ p.inlined) (hn : n ≤ p.inlined.length)
    {reference : String} (href : Imported s root c file (target s.resolver file reference))
    (h : pull s step file reference p = (q, .error fault)) : FailsFor s root c file fault := by
  unfold pull at h
  cases hresolve : resolve s file reference with
  | error unresolved =>
    rw [hresolve] at h
    obtain rfl := Except.error.inj (Prod.mk.inj h).2
    rw [resolve_eq] at hresolve
    split at hresolve
    next => simp at hresolve
    next hg =>
      refine ⟨fun x ↦ ?_, file, _, ReflTransGen.refl, href, fun hloads ↦ hg hloads.isFile⟩
      rw [← Except.error.inj hresolve]
      simp
  | ok g =>
    rw [← (resolve_eq_ok hresolve).1] at href
    rw [hresolve] at h
    simp only at h
    split at h
    next => simp at h
    next hfresh =>
      rw [Bool.not_eq_true] at hfresh
      have hchunk := chunkOf_of_fresh (s := s) (c := c) hmet.start hfresh
      split at h
      next _ unread hread =>
        obtain rfl := Except.error.inj (Prod.mk.inj h).2
        refine ⟨ne_endless_of_readChunk hread, file, g, ReflTransGen.refl, href, fun hloads ↦ ?_⟩
        obtain ⟨source, hsource⟩ := hloads.chunk
        rw [hchunk, hread] at hsource
        simp at hsource
      next imported hread =>
        split at h
        next q' inside hq =>
          obtain rfl := Except.error.inj (Prod.mk.inj h).2
          have hinside := hstep (hchunk.trans hread) (file_of_readChunk hread)
            (hmet.append_singleton hr hdir hfile hresolve hfresh) (by simp) (by simpa using hn) hq
          obtain ⟨f, x, hlead, hx⟩ := hinside.missing
          exact ⟨hinside.ends, f, x, hlead.head href, hx⟩
        next => simp at h

theorem failsFor_of_inOrder (hexpands : Expands s step)
    (hstep : FailsWell s root c (n + 1) step) (hmet : Met s root p.inlined)
    (hfile : file ∈ p.inlined) (hn : n ≤ p.inlined.length)
    (hrefs : ∀ r ∈ refs, Imported s root c file (target s.resolver file r))
    (h : inOrder (pull s step file) refs p = (q, .error fault)) :
    FailsFor s root c file fault := by
  induction refs generalizing p with
  | nil => simp [inOrder] at h
  | cons reference refs ih =>
    obtain ⟨href, hrefs⟩ := List.forall_mem_cons.1 hrefs
    rw [inOrder] at h
    split at h
    next q' first hfirst =>
      obtain rfl := Except.error.inj (Prod.mk.inj h).2
      exact failsFor_of_pull hr hdir hstep hmet hfile hn href hfirst
    next q' first hfirst =>
      split at h
      next q'' rest hrest =>
        obtain ⟨rfl, hfault⟩ := Prod.mk.inj h
        obtain rfl := Except.error.inj hfault
        obtain ⟨new, messages, hinlines, rfl⟩ := inlines_of_pull hexpands hfirst
        have hlength : n ≤ (p.inlined ++ new).length := by
          rw [List.length_append]
          exact Nat.le_add_right_of_le hn
        exact ih (hmet.append hr hdir hfile hinlines) (List.mem_append_left _ hfile) hlength hrefs
          hrest
      next => simp at h

/-- With each file that is met, one step less is needed. -/
theorem failsWell_expand (hlimit : s.files.chainLimit < limit + n) :
    FailsWell s root c n (expand s limit) := by
  induction limit generalizing n with
  | zero =>
    intro source file p q fault _ _ hmet _ hn _
    have hle := hmet.length_le
    omega
  | succ limit ih =>
    intro source file p q fault hchunk hsource hmet hfile hn h
    rw [expand, hsource] at h
    simp only at h
    split at h
    next q' inside hq =>
      obtain rfl := Except.error.inj (Prod.mk.inj h).2
      exact failsFor_of_inOrder hr hdir (expands_expand s limit) (ih (by omega)) hmet hfile hn
        (imported_of_mem hchunk) hq
    next => simp at h

end Failures

/-- Where one way to make a step does not meet the limit, another one leads to the same. -/
def Continues {α : Type} (step step' : α → Progress → Outcome) : Prop :=
  ∀ x p, (∀ file, (step x p).2 ≠ .error (.endless file)) → step' x p = step x p

theorem continues_inOrder {α : Type} {step step' : α → Progress → Outcome}
    (h : Continues step step') : Continues (inOrder step) (inOrder step') := by
  intro xs
  induction xs with
  | nil => exact fun p _ ↦ rfl
  | cons x xs ih =>
    intro p hends
    rw [inOrder] at hends
    rw [inOrder, inOrder]
    rcases hfirst : step x p with ⟨q, fault | chunks⟩
    · simp only [hfirst] at hends
      rw [h x p (by rwa [hfirst]), hfirst]
    · simp only [hfirst] at hends
      rw [h x p (by simp [hfirst]), hfirst]
      simp only
      rw [ih q]
      intro file hfile
      rcases hrest : inOrder step xs q with ⟨r, fault | more⟩
      · simp only [hrest] at hends hfile
        exact hends file hfile
      · simp [hrest] at hfile

theorem continues_pull (h : Continues step step') (file : Path) :
    Continues (pull s step file) (pull s step' file) := by
  intro reference p hends
  unfold pull at hends ⊢
  cases hresolve : resolve s file reference with
  | error fault => rfl
  | ok g =>
    simp only [hresolve] at hends ⊢
    split
    next => rfl
    next hmet =>
      rw [if_neg hmet] at hends
      cases hread : readChunk s g with
      | error fault => rfl
      | ok imported =>
        simp only [hread] at hends ⊢
        rw [h]
        intro x hx
        rcases hrun : step imported { p with inlined := p.inlined ++ [g] } with ⟨q, fault | chunks⟩
        · simp only [hrun] at hends hx
          exact hends x hx
        · simp [hrun] at hx

theorem continues_expand (hle : limit ≤ limit') :
    Continues (expand s limit) (expand s limit') := by
  induction limit generalizing limit' with
  | zero => exact fun source p hends ↦ absurd rfl (hends _)
  | succ limit ih =>
    obtain ⟨limit', rfl⟩ : ∃ k, limit' = k + 1 := ⟨limit' - 1, by omega⟩
    intro source p hends
    rw [expand] at hends
    rw [expand, expand]
    cases hfile : source.file with
    | none => rfl
    | some file =>
      simp only [hfile] at hends ⊢
      rw [continues_inOrder (continues_pull (ih (by omega)) file)]
      intro x hx
      rcases hrun : inOrder (pull s (expand s limit) file) (references source) p
        with ⟨q, fault | chunks⟩
      · simp only [hrun] at hends hx
        exact hends x hx
      · simp [hrun] at hx

section Stylesheets

variable (hr : s.resolver.IsNamespaced) (hdir : s.files.isFile ⟨"/"⟩ = false)
  (hroot : root.IsPlace) (hne : root ≠ ⟨"/"⟩) (hc : c.file = some root)
include hr hdir hroot hne hc

/-- If the imports of a file cannot be inlined, some import does not load. -/
theorem failsFor_of_inline (h : (inline s ⟨root, [c]⟩).2 = .error fault) :
    FailsFor s root c root fault := by
  rw [inline_eq, inlineWithin_singleton] at h
  rcases hexpand : expand s s.files.chainLimit c ⟨[root], []⟩ with ⟨q, unexpanded | chunks⟩
  · rw [hexpand] at h
    obtain rfl := Except.error.inj h
    exact failsWell_expand hr hdir (Nat.lt_succ_self _) (chunkOf_root s root c) hc
      (p := ⟨[root], []⟩) (Met.singleton hroot hne) (List.mem_singleton_self root)
      (Nat.le_refl 1) hexpand
  · simp [hexpand, Except.map] at h

theorem inlineWithin_singleton_eq (hlimit : s.files.chainLimit ≤ limit) :
    inlineWithin s limit ⟨root, [c]⟩ = inline s ⟨root, [c]⟩ := by
  rw [inline_eq, inlineWithin_singleton, inlineWithin_singleton, continues_expand hlimit]
  intro x hx
  have hfails : (inline s ⟨root, [c]⟩).2 = .error (.endless x) := by
    rw [inline_eq, inlineWithin_singleton, hx, Except.map]
  exact (failsFor_of_inline hr hdir hroot hne hc hfails).ends x rfl

end Stylesheets

/-- No chain of imports of a file meets the limit. -/
theorem inlineWithin_eq {fs : FileSystem} {resolver : PathResolver} (hr : resolver.IsNamespaced)
    (hroot : fs.isFile ⟨"/"⟩ = false) {file : Path} (hfile : file.IsPlace) {code : String}
    (hcode : fs.readText file = .ok code) {sheet : Stylesheet}
    (hsheet : Stylesheet.read file code = .ok sheet) (hlimit : fs.chainLimit ≤ limit) :
    inlineWithin ⟨fs, resolver⟩ limit sheet = inline ⟨fs, resolver⟩ sheet := by
  have hne : file ≠ ⟨"/"⟩ := by
    rintro rfl
    rw [FileSystem.isFile_of_readText hcode] at hroot
    simp at hroot
  obtain ⟨chunk, hchunk, rfl⟩ := eq_singleton_of_read hsheet
  exact inlineWithin_singleton_eq hr hroot hfile hne (file_of_read hchunk) hlimit

end StyleModules.Imports
