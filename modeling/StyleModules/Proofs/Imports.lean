import Mathlib.Logic.Relation
import StyleModules.Imports
import StyleModules.Proofs.FileSystem
import StyleModules.Proofs.Traversal

/-!
# What inlining does

Inlining goes to each imported file once and from it on to what it imports.  A file leaves its chunk
and its message when everything that it imports was inlined, so chunks and messages stand in the
order in which the walk comes back from the files, and the messages lead from each file to the one
that is compiled.  Nothing but the contents of these files decides the outcome.
-/

namespace StyleModules.Imports

open Relation Traversal

variable {s : Sources} {file root g : Path} {chunk : StyleChunk} {met new new' : List Path}
  {refs refs' : List String} {chunks chunks' : List StyleChunk}
  {messages messages' : List ImportMessage} {p q : Progress}

def filesOf (chunks : List StyleChunk) : List Path := chunks.filterMap StyleChunk.file

theorem filesOf_append (as bs : List StyleChunk) :
    filesOf (as ++ bs) = filesOf as ++ filesOf bs := List.filterMap_append

/-- What a reference in a file names, whether or not it exists. -/
def target (resolver : PathResolver) (file : Path) (reference : String) : Path :=
  let directory := file.parent?.getD ⟨""⟩
  (resolver.absolute reference directory (.stylesheet true)).getD
    (directory.join ⟨reference⟩).normalize

theorem resolve_eq (s : Sources) (file : Path) (reference : String) :
    resolve s file reference =
      if s.files.isFile (target s.resolver file reference) then
        .ok (target s.resolver file reference)
      else .error (.unresolved file reference (target s.resolver file reference)) := rfl

theorem resolve_eq_ok {reference : String} (h : resolve s file reference = .ok g) :
    g = target s.resolver file reference ∧ s.files.isFile g = true := by
  rw [resolve_eq] at h
  split at h
  next hfile =>
    obtain rfl := Except.ok.inj h
    exact ⟨rfl, hfile⟩
  next => simp at h

theorem isPlace_target {resolver : PathResolver} (hr : resolver.IsNamespaced)
    (hfile : file.IsPlace) (hne : file ≠ ⟨"/"⟩) (reference : String) :
    (target resolver file reference).IsPlace := by
  obtain ⟨d, hd⟩ := Option.isSome_iff_exists.1 (hfile.parent?_isSome hne)
  have hdPlace := hfile.parent? hd
  rw [target, hd, Option.getD_some]
  cases habs : resolver.absolute reference d (.stylesheet true) with
  | some g => exact hr.isPlace hdPlace habs
  | none => exact Path.isPlace_normalize (Path.isAbsolute_join hdPlace.isAbsolute)

theorem file_of_read {from? : Option Path} {code : String} {c : StyleChunk}
    (h : StyleChunk.read from? code = .ok c) : c.file = from? := by
  unfold StyleChunk.read at h
  split at h
  next => rw [← Except.ok.inj h]
  next => simp at h

theorem file_of_readChunk {c : StyleChunk} (h : readChunk s g = .ok c) : c.file = some g := by
  unfold readChunk at h
  split at h
  next => simp at h
  next => exact file_of_read h

/-- A stylesheet that is read has one chunk. -/
theorem eq_singleton_of_read {code : String} {sheet : Stylesheet}
    (h : Stylesheet.read file code = .ok sheet) :
    ∃ c : StyleChunk, StyleChunk.read (some file) code = .ok c ∧ sheet = ⟨file, [c]⟩ := by
  unfold Stylesheet.read at h
  cases hread : StyleChunk.read (some file) code with
  | error fault => simp [hread, Except.map] at h
  | ok c =>
    rw [hread] at h
    exact ⟨c, rfl, (Except.ok.inj h).symm⟩

@[simp]
theorem file_withoutReferences (c : StyleChunk) : (withoutReferences c).file = c.file := rfl

/-! ## Inlining as a relation -/

/-- What pulling in what some references of a file name leads to, if nothing fails: the files that
are new to those that were met before, in the order the walk goes to them, and the chunks and the
messages that are left. -/
inductive Inlines (s : Sources) : Path → List Path → List String → List Path →
    List StyleChunk → List ImportMessage → Prop
  | nil (file : Path) (met : List Path) : Inlines s file met [] [] [] []
  | known {file g : Path} {met new : List Path} {reference : String} {refs : List String}
      {chunks : List StyleChunk} {messages : List ImportMessage}
      (resolved : resolve s file reference = .ok g) (known : g.isAmong met = true)
      (rest : Inlines s file met refs new chunks messages) :
      Inlines s file met (reference :: refs) new chunks messages
  | pull {file g : Path} {met inner new : List Path} {reference : String}
      {refs' : List String} {imported : StyleChunk} {before chunks : List StyleChunk}
      {told messages : List ImportMessage}
      (resolved : resolve s file reference = .ok g) (fresh : g.isAmong met = false)
      (read : readChunk s g = .ok imported)
      (inside : Inlines s g (met ++ [g]) (references imported) inner before told)
      (rest : Inlines s file (met ++ g :: inner) refs' new chunks messages) :
      Inlines s file met (reference :: refs') (g :: inner ++ new)
        (before ++ withoutReferences imported :: chunks) (told ++ ⟨g, file⟩ :: messages)

theorem Inlines.append (h : Inlines s file met refs new chunks messages)
    (h' : Inlines s file (met ++ new) refs' new' chunks' messages') :
    Inlines s file met (refs ++ refs') (new ++ new') (chunks ++ chunks')
      (messages ++ messages') := by
  induction h with
  | nil => simpa using h'
  | known resolved known _ ih => exact .known resolved known (ih h')
  | pull resolved fresh read inside _ _ ih =>
    have hrest := ih (by simpa using h')
    simpa using Inlines.pull resolved fresh read inside hrest

/-- What `expand` does for the chunk of a file when it succeeds. -/
def Expands (s : Sources) (expand : StyleChunk → Progress → Outcome) : Prop :=
  ∀ ⦃c : StyleChunk⦄ ⦃file : Path⦄ ⦃p q : Progress⦄ ⦃chunks : List StyleChunk⦄,
    c.file = some file → expand c p = (q, .ok chunks) →
      ∃ before new messages, Inlines s file p.inlined (references c) new before messages ∧
        q = ⟨p.inlined ++ new, p.messages ++ messages⟩ ∧
        chunks = before ++ [withoutReferences c]

theorem inlines_of_pull {expand : StyleChunk → Progress → Outcome} (hexpand : Expands s expand)
    {reference : String} (h : pull s expand file reference p = (q, .ok chunks)) :
    ∃ new messages, Inlines s file p.inlined [reference] new chunks messages ∧
      q = ⟨p.inlined ++ new, p.messages ++ messages⟩ := by
  unfold pull at h
  cases hresolve : resolve s file reference with
  | error fault => simp [hresolve] at h
  | ok g =>
    rw [hresolve] at h
    simp only at h
    split at h
    next hmet =>
      obtain ⟨rfl, hchunks⟩ := Prod.mk.inj h
      obtain rfl := Except.ok.inj hchunks
      exact ⟨[], [], .known hresolve hmet (.nil file _), by simp⟩
    next hfresh =>
      split at h
      next => simp at h
      next imported himported =>
        split at h
        next => simp at h
        next q' chunks' hq =>
          obtain ⟨rfl, hchunks⟩ := Prod.mk.inj h
          obtain rfl := Except.ok.inj hchunks
          obtain ⟨before, inner, told, hinside, rfl, rfl⟩ :=
            hexpand (file_of_readChunk himported) hq
          refine ⟨_, _, .pull hresolve (Bool.not_eq_true _ ▸ hfresh) himported hinside
            (.nil file _), by simp⟩

theorem inlines_of_inOrder {expand : StyleChunk → Progress → Outcome} (hexpand : Expands s expand)
    (h : inOrder (pull s expand file) refs p = (q, .ok chunks)) :
    ∃ new messages, Inlines s file p.inlined refs new chunks messages ∧
      q = ⟨p.inlined ++ new, p.messages ++ messages⟩ := by
  induction refs generalizing p q chunks with
  | nil =>
    obtain ⟨rfl, hchunks⟩ := Prod.mk.inj h
    obtain rfl := Except.ok.inj hchunks
    exact ⟨[], [], .nil file _, by simp⟩
  | cons reference refs ih =>
    rw [inOrder] at h
    split at h
    next => simp at h
    next q₁ first hfirst =>
      split at h
      next => simp at h
      next q₂ more hrest =>
        obtain ⟨rfl, hchunks⟩ := Prod.mk.inj h
        obtain rfl := Except.ok.inj hchunks
        obtain ⟨new, messages, hinlines, rfl⟩ := inlines_of_pull hexpand hfirst
        obtain ⟨new', messages', hinlines', rfl⟩ := ih hrest
        exact ⟨_, _, hinlines.append hinlines', by simp⟩

theorem expands_expand (s : Sources) (limit : Nat) : Expands s (expand s limit) := by
  induction limit with
  | zero =>
    intro c file p q chunks _ h
    simp [expand] at h
  | succ limit ih =>
    intro c file p q chunks hfile h
    rw [expand, hfile] at h
    simp only at h
    split at h
    next => simp at h
    next q' before hbefore =>
      obtain ⟨rfl, hchunks⟩ := Prod.mk.inj h
      obtain ⟨new, messages, hinlines, rfl⟩ := inlines_of_inOrder ih hbefore
      exact ⟨before, new, messages, hinlines, rfl, (Except.ok.inj hchunks).symm⟩

/-- Inlines the imports of a stylesheet, following chains of imports up to some length. -/
def inlineWithin (s : Sources) (limit : Nat) (sheet : Stylesheet) :
    List ImportMessage × Except Fault Stylesheet :=
  match inOrder (expand s limit) sheet.chunks ⟨[sheet.source], []⟩ with
  | (p, .error fault) => (p.messages, .error fault)
  | (p, .ok chunks) => (p.messages, .ok { sheet with chunks := chunks })

theorem inline_eq (s : Sources) (sheet : Stylesheet) :
    inline s sheet = inlineWithin s s.files.chainLimit sheet := rfl

theorem inlineWithin_singleton (s : Sources) (limit : Nat) (root : Path) (c : StyleChunk) :
    inlineWithin s limit ⟨root, [c]⟩ =
      ((expand s limit c ⟨[root], []⟩).1.messages,
        (expand s limit c ⟨[root], []⟩).2.map (Stylesheet.mk root)) := by
  rw [inlineWithin, inOrder]
  rcases expand s limit c ⟨[root], []⟩ with ⟨p, fault | chunks⟩
  · rfl
  · simp [inOrder, Except.map]

/-- If inlining the chunk of a file succeeds, it ends with what is left of that chunk. -/
theorem inlines_of_inline {c : StyleChunk} (hc : c.file = some root) {sheet : Stylesheet}
    (h : inline s ⟨root, [c]⟩ = (messages, .ok sheet)) :
    ∃ new before, Inlines s root [root] (references c) new before messages ∧
      sheet = ⟨root, before ++ [withoutReferences c]⟩ := by
  rw [inline_eq, inlineWithin_singleton] at h
  rcases hexpand : expand s s.files.chainLimit c ⟨[root], []⟩ with ⟨q, fault | chunks⟩
  · simp [hexpand, Except.map] at h
  · rw [hexpand] at h
    obtain ⟨rfl, hsheet⟩ := Prod.mk.inj h
    obtain ⟨before, new, told, hinlines, rfl, rfl⟩ := expands_expand s _ hc hexpand
    exact ⟨new, before, hinlines, (Except.ok.inj hsheet).symm⟩

theorem Inlines.isFile (h : Inlines s file met refs new chunks messages) :
    ∀ g ∈ new, s.files.isFile g = true := by
  induction h with
  | nil => exact List.forall_mem_nil _
  | known _ _ _ ih => exact ih
  | pull resolved _ _ _ _ ihInside ihRest =>
    exact List.forall_mem_append.2
      ⟨List.forall_mem_cons.2 ⟨(resolve_eq_ok resolved).2, ihInside⟩, ihRest⟩

theorem Inlines.isPlace (h : Inlines s file met refs new chunks messages)
    (hr : s.resolver.IsNamespaced) (hfile : file.IsPlace) (hne : ∀ g ∈ file :: new, g ≠ ⟨"/"⟩) :
    ∀ g ∈ new, g.IsPlace := by
  induction h with
  | nil => exact List.forall_mem_nil _
  | known _ _ _ ih => exact ih hfile hne
  | @pull file g met inner new _ _ _ _ _ _ _ resolved _ _ _ _ ihInside ihRest =>
    have hg : g.IsPlace := by
      rw [(resolve_eq_ok resolved).1]
      exact isPlace_target hr hfile (hne file List.mem_cons_self) _
    refine List.forall_mem_append.2 ⟨List.forall_mem_cons.2 ⟨hg, ?_⟩, ?_⟩
    · exact ihInside hg fun x hx ↦ hne x (by grind)
    · exact ihRest hfile fun x hx ↦ hne x (by grind)

theorem filesOf_withoutReferences (h : chunk.file = some g) (as bs : List StyleChunk) :
    filesOf (as ++ withoutReferences chunk :: bs) = filesOf as ++ g :: filesOf bs := by
  rw [filesOf_append, filesOf, filesOf, filesOf,
    List.filterMap_cons_some (by rw [file_withoutReferences, h])]

/-- Each file leaves its chunk and its message at the same time. -/
theorem Inlines.map_file (h : Inlines s file met refs new chunks messages) :
    messages.map ImportMessage.file = filesOf chunks := by
  induction h with
  | nil => rfl
  | known _ _ _ ih => exact ih
  | pull _ _ read _ _ ihInside ihRest =>
    rw [List.map_append, List.map_cons, ihInside, ihRest,
      filesOf_withoutReferences (file_of_readChunk read)]

/-- The chunks are those of the new files, in another order. -/
theorem Inlines.perm (h : Inlines s file met refs new chunks messages) :
    (filesOf chunks).Perm new := by
  induction h with
  | nil => exact .nil
  | known _ _ _ ih => exact ih
  | @pull _ g _ _ _ _ _ _ _ _ _ _ _ _ read _ _ ihInside ihRest =>
    rw [filesOf_withoutReferences (file_of_readChunk read)]
    exact (ihInside.append (ihRest.cons g)).trans List.perm_middle

/-- Each chunk is that of a new file without the imports that were inlined. -/
theorem Inlines.exists_readChunk (h : Inlines s file met refs new chunks messages) :
    (∀ g ∈ new, ∃ source, readChunk s g = .ok source) ∧
      ∀ k ∈ chunks, ∃ g ∈ new, ∃ source, readChunk s g = .ok source ∧
        k = withoutReferences source := by
  induction h with
  | nil => exact ⟨List.forall_mem_nil _, List.forall_mem_nil _⟩
  | known _ _ _ ih => exact ih
  | @pull _ g _ _ _ _ _ imported _ _ _ _ _ _ read _ _ ihInside ihRest =>
    refine ⟨List.forall_mem_append.2
      ⟨List.forall_mem_cons.2 ⟨⟨imported, read⟩, ihInside.1⟩, ihRest.1⟩, ?_⟩
    refine List.forall_mem_append.2 ⟨fun k hk ↦ ?_, List.forall_mem_cons.2 ⟨?_, fun k hk ↦ ?_⟩⟩
    · obtain ⟨f, hf, hsource⟩ := ihInside.2 k hk
      exact ⟨f, by simp [hf], hsource⟩
    · exact ⟨g, by simp, imported, read, rfl⟩
    · obtain ⟨f, hf, hsource⟩ := ihRest.2 k hk
      exact ⟨f, by simp [hf], hsource⟩

/-- The messages lead from each new file to the one that is compiled. -/
theorem Inlines.leads (h : Inlines s file met refs new chunks messages) :
    ∀ g ∈ new, ReflTransGen (fun a b ↦ ⟨a, b⟩ ∈ messages) g file := by
  have hmono : ∀ {ms ms' : List ImportMessage} {a b : Path}, ms ⊆ ms' →
      ReflTransGen (fun a b ↦ ⟨a, b⟩ ∈ ms) a b → ReflTransGen (fun a b ↦ ⟨a, b⟩ ∈ ms') a b :=
    fun hsub ↦ ReflTransGen.mono (fun _ _ hm ↦ hsub hm) _ _
  induction h with
  | nil => exact List.forall_mem_nil _
  | known _ _ _ ih => exact ih
  | @pull file g met inner new _ _ _ _ _ told messages _ _ _ _ _ ihInside ihRest =>
    have hlast : ReflTransGen (fun a b ↦ ⟨a, b⟩ ∈ told ++ ⟨g, file⟩ :: messages) g file :=
      ReflTransGen.single (by simp)
    refine List.forall_mem_append.2 ⟨List.forall_mem_cons.2 ⟨hlast, fun x hx ↦ ?_⟩, fun x hx ↦ ?_⟩
    · exact (hmono (List.subset_append_left _ _) (ihInside x hx)).trans hlast
    · exact hmono (fun m hm ↦ by simp [hm]) (ihRest x hx)

/-- The messages are about new files, and say that they were imported by new files or the one the
references are in. -/
theorem Inlines.parents (h : Inlines s file met refs new chunks messages) :
    ∀ m ∈ messages, m.file ∈ new ∧ (m.parent = file ∨ m.parent ∈ new) := by
  induction h with
  | nil => exact List.forall_mem_nil _
  | known _ _ _ ih => exact ih
  | pull _ _ _ _ _ ihInside ihRest =>
    refine List.forall_mem_append.2 ⟨fun m hm ↦ ?_, List.forall_mem_cons.2 ⟨by simp, fun m hm ↦ ?_⟩⟩
    · obtain ⟨hfile, hparent⟩ := ihInside m hm
      exact ⟨by simp [hfile], .inr (by grind)⟩
    · obtain ⟨hfile, hparent⟩ := ihRest m hm
      exact ⟨by simp [hfile], hparent.imp_right fun h ↦ by simp [h]⟩

/-! ## Reading the same files again -/

section Congruence

variable {fs fs' : FileSystem} {resolver : PathResolver}

theorem readChunk_congr {g : Path} (h : fs.SameAt fs' g) (hfile : fs.isFile g = true) :
    readChunk ⟨fs', resolver⟩ g = readChunk ⟨fs, resolver⟩ g := by
  simp only [readChunk, h.readText_eq hfile]

/-- Two ways to expand chunks lead to the same where the files that are pulled in are the same. -/
def AgreeOnSame (fs fs' : FileSystem) {α : Type} (step step' : α → Progress → Outcome) : Prop :=
  ∀ ⦃x : α⦄ ⦃p q q' : Progress⦄ ⦃chunks chunks' : List StyleChunk⦄,
    step x p = (q, .ok chunks) → step' x p = (q', .ok chunks') →
      (∀ g ∈ filesOf chunks, fs.SameAt fs' g) → q' = q ∧ chunks' = chunks

theorem agree_inOrder {α : Type} {step step' : α → Progress → Outcome}
    (hagree : AgreeOnSame fs fs' step step') :
    AgreeOnSame fs fs' (inOrder step) (inOrder step') := by
  intro xs
  induction xs with
  | nil =>
    intro p q q' chunks chunks' h h' _
    rw [inOrder, Prod.mk.injEq, Except.ok.injEq] at h h'
    exact ⟨h'.1.symm.trans h.1, h'.2.symm.trans h.2⟩
  | cons x xs ih =>
    intro p q q' chunks chunks' h h' hsame
    rw [inOrder] at h h'
    split at h
    next => simp at h
    next q₁ chunks₁ hfirst =>
      split at h
      next => simp at h
      next q₂ more hrest =>
        obtain ⟨rfl, hchunks⟩ := Prod.mk.inj h
        obtain rfl := Except.ok.inj hchunks
        split at h'
        next => simp at h'
        next q₁' chunks₁' hfirst' =>
          obtain ⟨rfl, rfl⟩ := hagree hfirst hfirst' fun g hg ↦ hsame g (by
            rw [filesOf_append]
            exact List.mem_append_left _ hg)
          split at h'
          next => simp at h'
          next q₂' more' hrest' =>
            obtain ⟨rfl, rfl⟩ := ih hrest hrest' fun g hg ↦ hsame g (by
              rw [filesOf_append]
              exact List.mem_append_right _ hg)
            obtain ⟨rfl, hchunks'⟩ := Prod.mk.inj h'
            exact ⟨rfl, (Except.ok.inj hchunks').symm⟩

theorem agree_pull {expand expand' : StyleChunk → Progress → Outcome}
    (hexpand : Expands ⟨fs, resolver⟩ expand) (hagree : AgreeOnSame fs fs' expand expand')
    (file : Path) :
    AgreeOnSame fs fs' (pull ⟨fs, resolver⟩ expand file) (pull ⟨fs', resolver⟩ expand' file) := by
  intro reference p q q' chunks chunks' h h' hsame
  unfold pull at h h'
  cases hresolve : resolve ⟨fs, resolver⟩ file reference with
  | error fault => simp [hresolve] at h
  | ok g =>
    cases hresolve' : resolve ⟨fs', resolver⟩ file reference with
    | error fault => simp [hresolve'] at h'
    | ok g' =>
      obtain ⟨hg, hgFile⟩ := resolve_eq_ok hresolve
      obtain rfl : g' = g := (resolve_eq_ok hresolve').1.trans hg.symm
      rw [hresolve] at h
      rw [hresolve'] at h'
      simp only at h h'
      split at h
      next hmet =>
        rw [if_pos hmet] at h'
        rw [Prod.mk.injEq, Except.ok.injEq] at h h'
        exact ⟨h'.1.symm.trans h.1, h'.2.symm.trans h.2⟩
      next hmet =>
        rw [if_neg hmet] at h'
        split at h
        next => simp at h
        next imported himported =>
          split at h
          next => simp at h
          next q₁ inner hinner =>
            obtain ⟨rfl, hchunks⟩ := Prod.mk.inj h
            obtain rfl := Except.ok.inj hchunks
            have hgSame : fs.SameAt fs' g' := by
              obtain ⟨before, _, _, _, _, rfl⟩ := hexpand (file_of_readChunk himported) hinner
              exact hsame g' (List.mem_filterMap.2
                ⟨withoutReferences imported, by simp, by simp [file_of_readChunk himported]⟩)
            rw [readChunk_congr hgSame hgFile, himported] at h'
            simp only at h'
            split at h'
            next => simp at h'
            next q₁' inner' hinner' =>
              obtain ⟨rfl, rfl⟩ := hagree hinner hinner' hsame
              obtain ⟨rfl, hchunks'⟩ := Prod.mk.inj h'
              exact ⟨rfl, (Except.ok.inj hchunks').symm⟩

/-- The length up to which chains of imports are followed does not matter once it is enough. -/
theorem agree_expand (fs fs' : FileSystem) (resolver : PathResolver) (limit limit' : Nat) :
    AgreeOnSame fs fs' (expand ⟨fs, resolver⟩ limit) (expand ⟨fs', resolver⟩ limit') := by
  induction limit generalizing limit' with
  | zero =>
    intro c p q q' chunks chunks' h
    simp [expand] at h
  | succ limit ih =>
    intro c p q q' chunks chunks' h h' hsame
    cases limit' with
    | zero => simp [expand] at h'
    | succ limit' =>
      rw [expand] at h h'
      cases hfile : c.file with
      | none =>
        rw [hfile, Prod.mk.injEq, Except.ok.injEq] at h h'
        exact ⟨h'.1.symm.trans h.1, h'.2.symm.trans h.2⟩
      | some file =>
        rw [hfile] at h h'
        simp only at h h'
        split at h
        next => simp at h
        next q₁ inner hinner =>
          obtain ⟨rfl, hchunks⟩ := Prod.mk.inj h
          obtain rfl := Except.ok.inj hchunks
          split at h'
          next => simp at h'
          next q₁' inner' hinner' =>
            have hpull := agree_pull (expands_expand ⟨fs, resolver⟩ limit) (ih limit') file
            obtain ⟨rfl, rfl⟩ := agree_inOrder hpull hinner hinner' fun g hg ↦ hsame g (by
              rw [filesOf_append]
              exact List.mem_append_left _ hg)
            obtain ⟨rfl, hchunks'⟩ := Prod.mk.inj h'
            exact ⟨rfl, (Except.ok.inj hchunks').symm⟩

end Congruence

end StyleModules.Imports
