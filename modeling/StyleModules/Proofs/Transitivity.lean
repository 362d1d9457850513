import Mathlib.Logic.Relation
import StyleModules.Proofs.Calls
import StyleModules.Proofs.Composition

/-!
# Composing classes of the same file

A declaration gives its classes what a composed class of the same file expands to by then, that is
by the declarations in front of it.  What the composed class gains later is not passed on, unless
the same declaration gives it to both.  So the order of the declarations counts: a class expands to
all that is within reach, directly or through other classes of the file, if each class is composed
behind the declarations of its own.
-/

namespace StyleModules

open Relation

namespace Composition

/-- One class composes another one of the same file. -/
def Draws (ds : List Composes) (t n : String) : Prop :=
  ∃ d ∈ ds, d.composed.source = .here ∧ t ∈ d.targets ∧ n ∈ d.composed.names

/-- A class has a name without the help of other classes of its file: its own name, and those that
it composes as they are or from other files. -/
def Has (own : String → String) (exported : String → String → List String) (ds : List Composes)
    (t x : String) : Prop :=
  x = own t ∨ ∃ d ∈ ds, t ∈ d.targets ∧ d.composed.source ≠ .here ∧
    x ∈ names own exported .empty d.composed

/-- A name is within reach of a class: the class has it, or a class that it composes directly or
through others. -/
def Reaches (own : String → String) (exported : String → String → List String)
    (ds : List Composes) (t x : String) : Prop :=
  ∃ n, ReflTransGen (Draws ds) t n ∧ Has own exported ds n x

/-- No declaration adds to a class that one in front of it composes from the same file, unless it
adds the same to the classes that compose it. -/
def InOrder (ds : List Composes) : Prop :=
  ds.Pairwise fun d e ↦ d.composed.source = .here →
    ∀ n ∈ d.composed.names, n ∈ e.targets → ∀ t ∈ d.targets, t ∈ e.targets

section Reaches

variable {own : String → String} {exported : String → String → List String} {k : Composition}
  {styles : List Css.Rule.Style} {ds ds' : List Composes} {d : Composes} {n t x : String}

theorem Draws.mono (h : Draws ds t n) (hds : ∀ d ∈ ds, d ∈ ds') : Draws ds' t n :=
  h.imp fun d hd ↦ ⟨hds d hd.1, hd.2⟩

theorem Has.mono (h : Has own exported ds t x) (hds : ∀ d ∈ ds, d ∈ ds') :
    Has own exported ds' t x :=
  h.imp_right (Exists.imp fun d hd ↦ ⟨hds d hd.1, hd.2⟩)

theorem Reaches.mono (h : Reaches own exported ds t x) (hds : ∀ d ∈ ds, d ∈ ds') :
    Reaches own exported ds' t x :=
  h.imp fun _ hn ↦ ⟨ReflTransGen.mono (fun _ _ hdraws ↦ Draws.mono hdraws hds) _ _ hn.1,
    hn.2.mono hds⟩

/-- What is within reach does not depend on the order of the declarations. -/
theorem reaches_congr (hds : ds.Perm ds') :
    Reaches own exported ds t x ↔ Reaches own exported ds' t x :=
  ⟨fun h ↦ h.mono fun _ ↦ hds.mem_iff.1, fun h ↦ h.mono fun _ ↦ hds.mem_iff.2⟩

/-- Classes of the same file stand for what they expand to, and other classes for the same names
in every composition. -/
theorem mem_names {composed : ComposedNames} : x ∈ names own exported k composed ↔
    (composed.source = .here ∧ ∃ n ∈ composed.names, x ∈ expansion own k n) ∨
      composed.source ≠ .here ∧ x ∈ names own exported .empty composed := by
  simp only [names, List.mem_flatMap]
  cases composed.source <;> simp

/-! ## What a declaration finds -/

/-- A class expands to its own name and what its declarations compose, each seen from its place
behind the declarations in front of it. -/
theorem mem_expansion_build : x ∈ expansion own (build own exported styles ds) t ↔ x = own t ∨
    ∃ before d after, ds = before ++ d :: after ∧ t ∈ d.targets ∧
      x ∈ names own exported (build own exported styles before) d.composed := by
  induction ds using List.reverseRecOn with
  | nil =>
    rw [build, List.foldl_nil, expansion, (get?_ofStyles own styles).2]
    split <;> simp
  | append_singleton ds d ih =>
    rw [build_append_singleton, mem_expansion_compose (isSorted_build own exported styles ds), ih,
      or_assoc]
    refine or_congr_right ⟨?_, ?_⟩
    · rintro (⟨before, e, after, rfl, h⟩ | h)
      · exact ⟨before, e, after ++ [d], by simp, h⟩
      · exact ⟨ds, d, [], rfl, h⟩
    · rintro ⟨before, e, after, hsplit, h⟩
      rcases List.eq_nil_or_concat after with rfl | ⟨after, last, rfl⟩
      · obtain ⟨rfl, hlast⟩ := List.append_inj' hsplit rfl
        obtain rfl := List.singleton_inj.1 hlast
        exact .inr h
      · rw [List.concat_eq_append, ← List.cons_append, ← List.append_assoc] at hsplit
        exact .inl ⟨before, e, after, (List.append_inj' hsplit rfl).1, h⟩

/-- Nothing but what is within reach is listed. -/
theorem reaches_of_mem_expansion (h : x ∈ expansion own (build own exported styles ds) t) :
    Reaches own exported ds t x := by
  induction ds using List.reverseRecOn generalizing t with
  | nil =>
    obtain rfl : x = own t := (mem_expansion_build.1 h).resolve_right (by simp)
    exact ⟨t, .refl, .inl rfl⟩
  | append_singleton ds d ih =>
    have hds : ∀ e ∈ ds, e ∈ ds ++ [d] := fun _ ↦ List.mem_append_left [d]
    have hd : d ∈ ds ++ [d] := List.mem_concat_self
    rw [build_append_singleton, mem_expansion_compose (isSorted_build own exported styles ds)] at h
    rcases h with hearlier | ⟨ht, hnames⟩
    · exact (ih hearlier).mono hds
    · rcases mem_names.1 hnames with ⟨hhere, n, hn, hx⟩ | ⟨helsewhere, hx⟩
      · obtain ⟨n', hdraws, hhas⟩ := (ih hx).mono hds
        exact ⟨n', .head ⟨d, hd, hhere, ht, hn⟩ hdraws, hhas⟩
      · exact ⟨t, .refl, .inr ⟨d, hd, ht, helsewhere, hx⟩⟩

/-- What a class expands to is passed on to a class that composes it, but for what a later
declaration adds to the first class alone. -/
theorem mem_expansion_of_draws {before after : List Composes} (hhere : d.composed.source = .here)
    (hn : n ∈ d.composed.names) (ht : t ∈ d.targets)
    (h : x ∈ expansion own (build own exported styles (before ++ d :: after)) n) :
    x ∈ expansion own (build own exported styles (before ++ d :: after)) t ∨
      ∃ e ∈ after, n ∈ e.targets ∧ t ∉ e.targets := by
  induction after using List.reverseRecOn with
  | nil =>
    have hk := isSorted_build own exported styles before
    rw [build_append_singleton, mem_expansion_compose hk] at h ⊢
    refine .inl (.inr ⟨ht, h.elim (fun hbefore ↦ ?_) And.right⟩)
    exact mem_names.2 (.inl ⟨hhere, n, hn, hbefore⟩)
  | append_singleton after e ih =>
    have hk := isSorted_build own exported styles (before ++ d :: after)
    rw [← List.cons_append, ← List.append_assoc, build_append_singleton,
      mem_expansion_compose hk] at h ⊢
    rcases h with hearlier | ⟨hne, hx⟩
    · rcases ih hearlier with hlisted | ⟨e', he', hleft⟩
      · exact .inl (.inl hlisted)
      · exact .inr ⟨e', List.mem_append_left _ he', hleft⟩
    · by_cases hte : t ∈ e.targets
      · exact .inl (.inr ⟨hte, hx⟩)
      · exact .inr ⟨e, List.mem_concat_self, hne, hte⟩

/-! ## Declarations in order -/

/-- When the declarations are in order, what a class expands to is passed on. -/
theorem InOrder.mem_expansion (hds : InOrder ds) (hdraws : Draws ds t n)
    (h : x ∈ expansion own (build own exported styles ds) n) :
    x ∈ expansion own (build own exported styles ds) t := by
  obtain ⟨d, hd, hhere, ht, hn⟩ := hdraws
  obtain ⟨before, after, rfl⟩ := List.append_of_mem hd
  refine (mem_expansion_of_draws hhere hn ht h).resolve_right ?_
  rintro ⟨e, he, hne, hte⟩
  have hlater := (List.pairwise_append.1 hds).2.1
  exact hte (List.rel_of_pairwise_cons hlater he hhere n hn hne t ht)

theorem Has.mem_expansion (h : Has own exported ds t x) :
    x ∈ expansion own (build own exported styles ds) t := by
  rw [mem_expansion_build]
  refine h.imp_right ?_
  rintro ⟨d, hd, ht, helsewhere, hx⟩
  obtain ⟨before, after, rfl⟩ := List.append_of_mem hd
  exact ⟨before, d, after, rfl, ht, mem_names.2 (.inr ⟨helsewhere, hx⟩)⟩

/-- When the declarations are in order, a class expands to all that is within reach. -/
theorem InOrder.mem_expansion_iff (hds : InOrder ds) :
    x ∈ expansion own (build own exported styles ds) t ↔ Reaches own exported ds t x := by
  refine ⟨reaches_of_mem_expansion, ?_⟩
  rintro ⟨n, hdraws, hhas⟩
  induction hdraws using ReflTransGen.head_induction_on with
  | refl => exact hhas.mem_expansion
  | head hdraw _ ih => exact hds.mem_expansion hdraw ih

end Reaches

end Composition

namespace ModuleStore

/-- Each module that a call has made has the composition of its declarations. -/
theorem exists_build_of_standing (c : Compiler) (calls : List Call) :
    ∀ k ∈ standing c calls, ∀ m, k.made = some m → ∃ s styles, m.composition =
      Composition.build (c.scopedName k.file) (exported c s k.files) styles k.draft.composes := by
  induction calls with
  | nil => exact List.forall_mem_nil _
  | cons call earlier ih =>
    cases call with
    | file fs path =>
      have htrail := (track_trail (hands_true c fs) (isOrdered_run c earlier) path trivial).1
      refine List.forall_mem_append.2 ⟨ih, (htrail.preserves (P := fun ks _ ↦ ∀ k ∈ ks, ∀ m,
        k.made = some m → ∃ s styles, m.composition = Composition.build (c.scopedName k.file)
          (exported c s k.files) styles k.draft.composes) (fun _ _ _ _ _ h ↦ h) ?_
        (isOrdered_run c earlier) (List.forall_mem_nil _)).2⟩
      intro ks s k ends hs hks
      refine List.forall_mem_append.2 ⟨hks, List.forall_mem_singleton.2 fun m hm ↦ ?_⟩
      rcases ends.finish_cases hs.modules with ⟨_, -, -, hfailed⟩ | ⟨m', styles, -, -, hmade, h⟩
      · simp [hfailed] at hm
      · obtain rfl := Option.some.inj (hmade.symm.trans hm)
        exact ⟨s, styles, h⟩
    | remove path =>
      rw [standing, Call.standing]
      split
      next => exact fun k hk ↦ ih k (List.mem_of_mem_filter hk)
      next => exact ih
    | output place => exact ih

/-- Whatever calls came before: a module lists for a class its own name and what the declarations of
the class compose, each seen from its place.  A class lists all names of a class of the same file
that it composes, but for those that a later declaration adds to that class alone.  However the
declarations are arranged, if they are in order then a class expands to all that is within reach. -/
theorem lists_composed_classes (c : Compiler) (calls : List Call) {p : Path} {m : Module}
    (hm : (run c calls).modules.get? p = some m) :
    ∃ k s styles, (compilationsOf p (standing c calls)).getLast? = some k ∧ k.made = some m ∧
      let ds := k.draft.composes
      let own := c.scopedName k.file
      let exported := exported c s k.files
      let built := Composition.build own exported styles
      m.composition = built ds ∧
      (∀ t x, m.composition.Lists t x ↔ (m.composition.get? t).isSome = true ∧
        (x = own t ∨ ∃ before d after, ds = before ++ d :: after ∧ t ∈ d.targets ∧
          x ∈ Composition.names own exported (built before) d.composed)) ∧
      (∀ before d after, ds = before ++ d :: after → d.composed.source = .here →
        ∀ n ∈ d.composed.names, ∀ t ∈ d.targets, ∀ x, m.composition.Lists n x →
          m.composition.Lists t x ∨ ∃ e ∈ after, n ∈ e.targets ∧ t ∉ e.targets) ∧
      ∀ ds', ds'.Perm ds → Composition.InOrder ds' → ∀ t x,
        x ∈ Composition.expansion own (built ds') t ↔ Composition.Reaches own exported ds t x := by
  have hlast : (compilationsOf p (standing c calls)).getLast?.bind Compilation.made = some m :=
    ((isTold_run c calls).modules p).symm.trans hm
  obtain ⟨k, hk, hmade⟩ := Option.bind_eq_some_iff.1 hlast
  obtain ⟨s, styles, hcomposition⟩ := exists_build_of_standing c calls k
    (List.mem_of_mem_filter (List.mem_of_getLast? hk)) m hmade
  refine ⟨k, s, styles, hk, hmade, hcomposition, fun t x ↦ ?_, ?_, fun ds' hperm hds t x ↦ ?_⟩
  · rw [Composition.lists_iff (c.scopedName k.file), hcomposition, Composition.mem_expansion_build]
  · intro before d after hsplit hhere n hn t ht x hx
    rw [Composition.lists_iff (c.scopedName k.file), hcomposition] at hx ⊢
    have hentry := (Composition.isSome_get?_build (c.scopedName k.file) (exported c s k.files)
      styles k.draft.composes t).2 (.inr ⟨d, by simp [hsplit], ht⟩)
    rw [hsplit] at hx hentry ⊢
    exact (Composition.mem_expansion_of_draws hhere hn ht hx.2).imp_left fun h ↦ ⟨hentry, h⟩
  · rw [hds.mem_expansion_iff, Composition.reaches_congr hperm]

end ModuleStore

namespace Session.Sample

/-- One class composes another one and this has a name that no file scopes, in some order. -/
def chained (classes : List String) : FileSystem :=
  let text := String.join (classes.map fun
    | "t" => rule ".t" "composes: n"
    | other => rule ("." ++ other) "composes: g from global")
  disk [("/a.mcss", text)]

end Session.Sample

namespace ModuleStore

open Session

/-- A class that is composed behind its own declaration passes its names on. -/
theorem lists_composed_classes_sample : ∃ m,
    (run Sample.start.compiler [.file (Sample.chained ["n", "t"]) ⟨"a.mcss"⟩]).modules.get?
        ⟨"/a.mcss"⟩ = some m ∧
      m.composition.Lists "n" "g" ∧ m.composition.Lists "t" "g" := by
  have hrun : ((run Sample.start.compiler
        [.file (Sample.chained ["n", "t"]) ⟨"a.mcss"⟩]).modules.get? ⟨"/a.mcss"⟩).map
          (fun m ↦ (m.composition.get? "n").map List.tail) = some (some ["g"]) ∧
      (compilationsOf ⟨"/a.mcss"⟩ (standing Sample.start.compiler
        [.file (Sample.chained ["n", "t"]) ⟨"a.mcss"⟩])).getLast?.map (fun k ↦ k.draft.composes) =
          some [⟨["n"], ["g"], .everywhere⟩, ⟨["t"], ["n"], .here⟩] := by decide +kernel
  obtain ⟨hmodule, hdeclarations⟩ := hrun
  obtain ⟨m, hm, hnames⟩ := Option.map_eq_some_iff.1 hmodule
  obtain ⟨names, hn, htail⟩ := Option.map_eq_some_iff.1 hnames
  have hg : m.composition.Lists "n" "g" := ⟨names, hn, List.mem_of_mem_tail (by simp [htail])⟩
  obtain ⟨k, _, _, hlast, -, -, -, hpassed, -⟩ := lists_composed_classes Sample.start.compiler _ hm
  rw [hlast, Option.map_some, Option.some.injEq] at hdeclarations
  refine ⟨m, hm, hg, (hpassed [_] _ [] hdeclarations rfl "n" ?_ "t" ?_ "g" hg).resolve_right ?_⟩
  all_goals simp

/-- A class that is composed in front of its declaration keeps its names to itself. -/
theorem composed_too_early : ∃ k m,
    (compilationsOf ⟨"/a.mcss"⟩ (standing Sample.start.compiler
        [.file (Sample.chained ["t", "n"]) ⟨"a.mcss"⟩])).getLast? = some k ∧
      ⟨["t"], ["n"], .here⟩ ∈ k.draft.composes ∧ k.made = some m ∧
      (run Sample.start.compiler [.file (Sample.chained ["t", "n"]) ⟨"a.mcss"⟩]).modules.get?
        ⟨"/a.mcss"⟩ = some m ∧
      m.composition.Lists "n" "g" ∧ ¬ m.composition.Lists "t" "g" := by
  have hrun : (compilationsOf ⟨"/a.mcss"⟩ (standing Sample.start.compiler
      [.file (Sample.chained ["t", "n"]) ⟨"a.mcss"⟩])).getLast?.map (fun k ↦
        (k.draft.composes, k.made.map fun m ↦ (((m.composition.get? "n").getD []).contains "g",
          ((m.composition.get? "t").getD []).contains "g"))) =
        some ([⟨["t"], ["n"], .here⟩, ⟨["n"], ["g"], .everywhere⟩], some (true, false)) := by
    decide +kernel
  obtain ⟨k, hk, hvalues⟩ := Option.map_eq_some_iff.1 hrun
  obtain ⟨hcomposes, hnames⟩ := Prod.mk.inj hvalues
  obtain ⟨m, hm, hnames⟩ := Option.map_eq_some_iff.1 hnames
  have hmodule := (isTold_run Sample.start.compiler
    [.file (Sample.chained ["t", "n"]) ⟨"a.mcss"⟩]).modules ⟨"/a.mcss"⟩
  rw [hk, Option.bind_some, hm] at hmodule
  have hlists : ∀ t, m.composition.Lists t "g" ↔
      ((m.composition.get? t).getD []).contains "g" = true := fun t ↦ by
    rw [Composition.Lists]
    cases m.composition.get? t <;> simp
  obtain ⟨hn, ht⟩ := Prod.mk.inj hnames
  refine ⟨k, m, hk, by simp [hcomposes], hm, hmodule, (hlists "n").2 hn, fun h ↦ ?_⟩
  rw [hlists, ht] at h
  simp at h

end ModuleStore

end StyleModules
