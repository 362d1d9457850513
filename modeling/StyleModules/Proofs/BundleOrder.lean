import Mathlib.Data.List.Permutation
import StyleModules.Proofs.Canonical

/-!
# The order of a bundle

A bundle lists the tracked files by a walk over the graph, which goes through what a file composes
from before it lists the file.  Files can compose from each other in circles, so the walk comes
upon files that it has visited and not listed yet.  Those are the files it is inside of, and each
of them leads to the file it is at.  That is why a file stands behind whatever it composes from,
unless both are on one circle.
-/

open Relation

namespace StyleModules

namespace PathMap

variable {α : Type} {m : PathMap α}

theorem length_keys (m : PathMap α) : m.keys.length = m.size := by
  rw [keys, toList, Table.values, List.length_map, List.length_map]
  rfl

theorem IsOrdered.map_components_keys (h : m.IsOrdered) :
    m.keys.map Path.components = m.table.entries.map Prod.fst := by
  rw [keys, toList, Table.values, List.map_map, List.map_map]
  exact List.map_congr_left fun e he ↦ h.keyed e he

theorem IsOrdered.areDistinct_keys (h : m.IsOrdered) : Path.AreDistinct m.keys := by
  rw [Path.AreDistinct, h.map_components_keys, List.Nodup, List.pairwise_map]
  exact h.sorted.imp fun hlt heq ↦ by simp [heq, Std.ReflCmp.compare_self] at hlt

theorem IsOrdered.isAmong_keys (h : m.IsOrdered) {p : Path} :
    p.isAmong m.keys = true ↔ (m.get? p).isSome = true := by
  rw [Path.isAmong_iff]
  constructor
  · rintro ⟨q, hq, hqp⟩
    obtain ⟨e, he, rfl⟩ := List.mem_map.1 hq
    rw [← get?_congr hqp, h.get?_of_mem he, Option.isSome_some]
  · intro hp
    obtain ⟨a, ha⟩ := Option.isSome_iff_exists.1 hp
    obtain ⟨q, hq, hqp⟩ := h.mem_of_get? ha
    exact ⟨q, List.mem_map.2 ⟨_, hq, rfl⟩, hqp⟩

end PathMap

namespace Css

/-- A text is made of some texts with one or two line breaks between them. -/
inductive AreLines : List String → String → Prop
  | nil : AreLines [] ""
  | single (line : String) : AreLines [line] line
  | cons (line : String) {next text gap : String} {rest : List String}
      (gap_eq : gap = "\n" ∨ gap = "\n\n") (lines : AreLines (next :: rest) text) :
      AreLines (line :: next :: rest) (line ++ (gap ++ text))

theorem Rule.gap_spaced (afterClose : Bool) (r : Rule) :
    r.gap .spaced 0 afterClose = "\n" ∨ r.gap .spaced 0 afterClose = "\n\n" := by
  unfold gap
  split
  · exact .inl rfl
  · exact .inr rfl

theorem Rule.areLines_writeRest (r : Rule) (rules : List Rule) :
    AreLines ((r :: rules).map (write .spaced 0))
      (r.write .spaced 0 ++ writeRest .spaced 0 r.isClose rules) := by
  induction rules generalizing r with
  | nil =>
    rw [writeRest, String.append_empty]
    exact .single _
  | cons next rules ih =>
    rw [writeRest, String.append_assoc]
    exact .cons _ (gap_spaced _ next) (ih next)

/-- Rules are printed one after the other, and none is left out. -/
theorem Rule.areLines_writeAll (rules : List Rule) :
    AreLines (rules.map (write .spaced 0)) (writeAll .spaced 0 rules) := by
  cases rules with
  | nil =>
    rw [writeAll]
    exact .nil
  | cons r rules =>
    rw [writeAll]
    exact areLines_writeRest r rules

end Css

namespace ModuleStore

variable {s : ModuleStore} {p q : Path}

/-- A tracked file composes from another tracked file. -/
def Uses (s : ModuleStore) (p q : Path) : Prop :=
  s.isTracked p = true ∧ s.isTracked q = true ∧ q.isAmong (s.graph.dependencies p) = true

theorem Uses.congr_left {p' : Path} (h : s.Uses p q) (hp : p.Same p') : s.Uses p' q := by
  refine ⟨(isTracked_congr hp s).symm.trans h.1, h.2.1, ?_⟩
  rw [isAmong_dependencies, ← ModuleGraph.edges_congr hp, ← isAmong_dependencies]
  exact h.2.2

theorem Uses.congr_right {q' : Path} (h : s.Uses p q) (hq : q.Same q') : s.Uses p q' :=
  ⟨h.1, (isTracked_congr hq s).symm.trans h.2.1, hq.isAmong_eq _ ▸ h.2.2⟩

/-- A file that composes from itself under another spelling leads back to itself. -/
theorem Uses.leads_of_same (h : s.Uses p q) (hq : q.Same p) : ReflTransGen s.Uses q p :=
  .single ((h.congr_left hq.symm).congr_right hq)

theorem Uses.leads_of_leads {p' : Path} (h : s.Uses p q) (hlead : ReflTransGen s.Uses q p')
    (hp : p'.Same p) : ReflTransGen s.Uses q p := by
  rcases hlead.cases_tail with rfl | ⟨r, hr, hrp⟩
  · exact h.leads_of_same hp
  · exact hr.tail (hrp.congr_right hp)

/-! ## The walk -/

/-- How many tracked files were not visited yet. -/
def unvisited (s : ModuleStore) (visited : List Path) : Nat :=
  (s.modules.keys.filter fun k ↦ !k.isAmong visited).length

theorem unvisited_le {visited visited' : List Path}
    (h : ∀ p : Path, p.isAmong visited = true → p.isAmong visited' = true) :
    s.unvisited visited' ≤ s.unvisited visited := by
  refine (List.monotone_filter_right _ fun k hk ↦ ?_).length_le
  rw [Bool.not_eq_true', ← Bool.not_eq_true] at hk ⊢
  exact fun hvisited ↦ hk (h k hvisited)

theorem unvisited_cons_lt {visited : List Path} (hmodules : s.modules.IsOrdered)
    (htracked : s.isTracked p = true) (hp : ¬ p.isAmong visited = true) :
    s.unvisited (p :: visited) < s.unvisited visited := by
  obtain ⟨k, hk, hkp⟩ := Path.isAmong_iff.1
    (hmodules.isAmong_keys.2 ((isTracked_eq s p).symm.trans htracked))
  have hkp : k.Same p := hkp
  have hsplit : (s.modules.keys.filter fun k ↦ !k.isAmong (p :: visited)) =
      (s.modules.keys.filter fun k ↦ !k.isAmong visited).filter fun k ↦ !decide (p.Same k) := by
    rw [List.filter_filter]
    refine List.filter_congr fun x _ ↦ Bool.eq_iff_iff.2 ?_
    simp [Path.not_isAmong_cons, and_comm]
  rw [unvisited, hsplit]
  refine List.length_filter_lt_length_iff_exists.2 ⟨k, List.mem_filter.2 ⟨hk, ?_⟩, ?_⟩
  · rw [hkp.isAmong_eq, Bool.not_eq_true', ← Bool.not_eq_true]
    exact hp
  · simpa using hkp.symm

/-- What is true of the files visited and the order at any point of the walk. -/
structure IsSound (s : ModuleStore) (w : List Path × List Path) : Prop where
  tracked : ∀ p : Path, p.isAmong w.1 = true → s.isTracked p = true
  visited : ∀ p : Path, p.isAmong w.2 = true → p.isAmong w.1 = true
  distinct : Path.AreDistinct w.2
  behind : ∀ p q : Path, p.isAmong w.2 = true → s.Uses p q →
    q.Precedes p w.2 ∨ ReflTransGen s.Uses q p

/-- A stretch of the walk takes nothing back, and lists exactly what it visits. -/
structure Continues (w w' : List Path × List Path) : Prop where
  visited : ∀ p : Path, p.isAmong w.1 = true → p.isAmong w'.1 = true
  listed : ∀ p : Path, p.isAmong w'.2 = true ↔
    p.isAmong w.2 = true ∨ (p.isAmong w'.1 = true ∧ ¬ p.isAmong w.1 = true)

theorem Continues.refl (w : List Path × List Path) : Continues w w :=
  ⟨fun _ h ↦ h, fun _ ↦ by tauto⟩

theorem Continues.trans {w w' w'' : List Path × List Path} (h : Continues w w')
    (h' : Continues w' w'') : Continues w w'' := by
  refine ⟨fun p hp ↦ h'.visited p (h.visited p hp), fun p ↦ ?_⟩
  have hstep := h.visited p
  have hstep' := h'.visited p
  rw [h'.listed, h.listed]
  tauto

/-- What is asked for before the walk goes to a file: the chain bound is high enough, and the files
that the walk is inside of lead to that file. -/
structure CanVisit (s : ModuleStore) (limit : Nat) (p : Path) (w : List Path × List Path) :
    Prop where
  bound : s.unvisited w.1 < limit
  tracked : s.isTracked p = true
  inside : ∀ q : Path, q.isAmong w.1 = true → ¬ q.isAmong w.2 = true → ReflTransGen s.Uses q p

/-- What the walk has done when it comes back from some files. -/
structure HasVisited (s : ModuleStore) (ps : List Path) (w w' : List Path × List Path) :
    Prop where
  sound : s.IsSound w'
  continues : Continues w w'
  all : ∀ p ∈ ps, p.isAmong w'.1 = true

/-- A stretch of the walk keeps the files it is inside of. -/
theorem CanVisit.continues {limit : Nat} {w w' : List Path × List Path}
    (h : s.CanVisit limit p w) (hcontinues : Continues w w') : s.CanVisit limit p w' := by
  refine ⟨Nat.lt_of_le_of_lt (unvisited_le hcontinues.visited) h.bound, h.tracked,
    fun q hq hopen ↦ ?_⟩
  have hlisted := hcontinues.listed q
  exact h.inside q (by tauto) (by tauto)

theorem hasVisited_foldl {limit : Nat}
    (hvisit : ∀ p w, s.CanVisit limit p w → s.IsSound w → s.HasVisited [p] w (visit s limit p w))
    {ps : List Path} {w : List Path × List Path} (h : ∀ p ∈ ps, s.CanVisit limit p w)
    (hw : s.IsSound w) :
    s.HasVisited ps w (ps.foldl (fun done p ↦ visit s limit p done) w) := by
  induction ps generalizing w with
  | nil => exact ⟨hw, .refl w, fun _ hp ↦ nomatch hp⟩
  | cons p ps ih =>
    obtain ⟨hp, hps⟩ := List.forall_mem_cons.1 h
    have hfirst := hvisit p w hp hw
    have hrest := ih (fun q hq ↦ (hps q hq).continues hfirst.continues) hfirst.sound
    refine ⟨hrest.sound, hfirst.continues.trans hrest.continues, List.forall_mem_cons.2 ⟨?_, ?_⟩⟩
    · exact hrest.continues.visited p (hfirst.all p (List.mem_singleton_self p))
    · exact hrest.all

/-- Going into a file that was not visited. -/
theorem IsSound.enter {w : List Path × List Path} (h : s.IsSound w)
    (htracked : s.isTracked p = true) : s.IsSound (p :: w.1, w.2) where
  tracked q hq := (Path.isAmong_cons.1 hq).elim
    (fun hsame ↦ (isTracked_congr hsame s).trans htracked) (h.tracked q)
  visited q hq := Path.isAmong_cons.2 (.inr (h.visited q hq))
  distinct := h.distinct
  behind := h.behind

theorem CanVisit.enter {limit : Nat} {w : List Path × List Path}
    (h : s.CanVisit (limit + 1) p w) (hmodules : s.modules.IsOrdered)
    (hp : ¬ p.isAmong w.1 = true) (hpq : s.Uses p q) : s.CanVisit limit q (p :: w.1, w.2) where
  bound := Nat.lt_of_lt_of_le (unvisited_cons_lt hmodules h.tracked hp) (Nat.le_of_lt_succ h.bound)
  tracked := hpq.2.1
  inside x hx hopen := by
    rcases Path.isAmong_cons.1 hx with hsame | hx
    · exact .single (hpq.congr_left hsame.symm)
    · exact (h.inside x hx hopen).tail hpq

section Leave

variable {limit : Nat} {w w' : List Path × List Path}

/-- All that a file composes from is visited, and the walk comes back to the file. -/
structure ReturnsTo (s : ModuleStore) (p : Path) (w w' : List Path × List Path) : Prop
    extends s.HasVisited ((s.graph.dependencies p).filter s.isTracked) (p :: w.1, w.2) w' where
  fresh : ¬ p.isAmong w.1 = true

theorem ReturnsTo.isAmong_visited (h : s.ReturnsTo p w w') : p.isAmong w'.1 = true :=
  h.continues.visited p (Path.isAmong_cons.2 (.inl rfl))

theorem ReturnsTo.isAmong_order (h : s.ReturnsTo p w w') : q.isAmong w'.2 = true ↔
    q.isAmong w.2 = true ∨ (q.isAmong w'.1 = true ∧ ¬ (q.Same p ∨ q.isAmong w.1 = true)) := by
  rw [h.continues.listed, Path.isAmong_cons]

theorem ReturnsTo.not_isAmong_order (h : s.ReturnsTo p w w') (hw : s.IsSound w) :
    ¬ p.isAmong w'.2 = true := fun hlisted ↦
  (h.isAmong_order.1 hlisted).elim (fun hbefore ↦ h.fresh (hw.visited p hbefore))
    fun hnew ↦ hnew.2 (.inl rfl)

/-- What the file composes from is listed, or the walk is inside of it. -/
theorem ReturnsTo.behind (h : s.ReturnsTo p w w') (hcan : s.CanVisit limit p w)
    (hqp : q.Same p) {r : Path} (hqr : s.Uses q r) :
    r.Precedes q (w'.2 ++ [p]) ∨ ReflTransGen s.Uses r q := by
  obtain ⟨d, hd, hdr⟩ := Path.isAmong_iff.1 (hqr.congr_left hqp).2.2
  have hdr : d.Same r := hdr
  have hvisited : r.isAmong w'.1 = true := hdr.isAmong_eq w'.1 ▸ h.all d
    (List.mem_filter.2 ⟨hd, (isTracked_congr hdr s).trans hqr.2.1⟩)
  by_cases hlisted : r.isAmong w'.2 = true
  · exact .inl (Path.precedes_append hlisted (Path.isAmong_singleton.2 hqp))
  · refine .inr ?_
    by_cases hrp : r.Same p
    · exact hqr.leads_of_same (hrp.trans hqp.symm)
    · have hopen := not_congr (h.isAmong_order (q := r))
      exact hqr.leads_of_leads (hcan.inside r (by tauto) (by tauto)) hqp.symm

/-- Coming back from all that a file composes from, the walk can list the file. -/
theorem ReturnsTo.leave (h : s.ReturnsTo p w w') (hcan : s.CanVisit limit p w)
    (hw : s.IsSound w) : s.HasVisited [p] w (w'.1, w'.2 ++ [p]) where
  sound := by
    refine ⟨h.sound.tracked, fun q hq ↦ ?_,
      h.sound.distinct.append_singleton (h.not_isAmong_order hw), fun q r hq hqr ↦ ?_⟩
    · rcases Path.isAmong_append_singleton.1 hq with hq | hsame
      · exact h.sound.visited q hq
      · exact hsame.isAmong_eq w'.1 ▸ h.isAmong_visited
    · rcases Path.isAmong_append_singleton.1 hq with hq | hsame
      · exact (h.sound.behind q r hq hqr).imp_left fun hbefore ↦ hbefore.append [p]
      · exact h.behind hcan hsame hqr
  continues := by
    refine ⟨fun q hq ↦ h.continues.visited q (Path.isAmong_cons.2 (.inr hq)), fun q ↦ ?_⟩
    rw [Path.isAmong_append_singleton, h.isAmong_order]
    by_cases hsame : q.Same p
    · have hvisited := (hsame.isAmong_eq w'.1).trans h.isAmong_visited
      have hfresh : ¬ q.isAmong w.1 = true := hsame.isAmong_eq w.1 ▸ h.fresh
      tauto
    · tauto
  all := List.forall_mem_singleton.2 h.isAmong_visited

end Leave

theorem hasVisited_visit (hmodules : s.modules.IsOrdered) (limit : Nat) (p : Path)
    (w : List Path × List Path) (h : s.CanVisit limit p w) (hw : s.IsSound w) :
    s.HasVisited [p] w (visit s limit p w) := by
  induction limit generalizing p w with
  | zero => exact absurd h.bound (Nat.not_lt_zero _)
  | succ limit ih =>
    obtain ⟨visited, order⟩ := w
    unfold visit
    split
    next hp => exact ⟨hw, .refl _, List.forall_mem_singleton.2 hp⟩
    next hp =>
      have hinside : ∀ q ∈ (s.graph.dependencies p).filter s.isTracked,
          s.CanVisit limit q (p :: visited, order) := by
        intro q hq
        obtain ⟨hq, hqTracked⟩ := List.mem_filter.1 hq
        exact h.enter hmodules hp ⟨h.tracked, hqTracked, Path.isAmong_of_mem hq⟩
      exact ReturnsTo.leave ⟨hasVisited_foldl ih hinside (hw.enter h.tracked), hp⟩ h hw

/-- The tracked files in an order that a bundle can have: each one is there once, and behind those
that it composes from, but for those on a circle with it. -/
structure IsBundleOrder (s : ModuleStore) (order : List Path) : Prop where
  distinct : Path.AreDistinct order
  listed : ∀ p : Path, p.isAmong order = true ↔ s.isTracked p = true
  behind : ∀ p q : Path, s.Uses p q → ¬ ReflTransGen s.Uses q p → q.Precedes p order

theorem isSound_nil : s.IsSound ([], []) where
  tracked _ h := nomatch h
  visited _ h := nomatch h
  distinct := List.nodup_nil
  behind _ _ h := nomatch h

theorem isBundleOrder_bundleOrder (hmodules : s.modules.IsOrdered) :
    s.IsBundleOrder s.bundleOrder := by
  have hcan : ∀ p ∈ s.modules.keys, s.CanVisit (s.modules.size + 1) p ([], []) := by
    refine fun p hp ↦ ⟨Nat.lt_succ_of_le ?_, ?_, fun q hq ↦ nomatch hq⟩
    · rw [← PathMap.length_keys]
      exact List.length_filter_le _ _
    · rw [isTracked_eq, ← hmodules.isAmong_keys]
      exact Path.isAmong_of_mem hp
  have hwalk := hasVisited_foldl (hasVisited_visit hmodules _) hcan isSound_nil
  have hlisted : ∀ p : Path, p.isAmong s.bundleOrder = true ↔ s.isTracked p = true := by
    refine fun p ↦ (hwalk.continues.listed p).trans ?_
    rw [or_iff_right (by simp), and_iff_left (by simp)]
    refine ⟨hwalk.sound.tracked p, fun hp ↦ ?_⟩
    obtain ⟨k, hk, hkp⟩ := Path.isAmong_iff.1 (hmodules.isAmong_keys.2 (isTracked_eq s p ▸ hp))
    rw [← Path.Same.isAmong_eq hkp]
    exact hwalk.all k hk
  exact ⟨hwalk.sound.distinct, hlisted, fun p q hpq hnot ↦
    (hwalk.sound.behind p q ((hlisted p).2 hpq.1) hpq).resolve_right hnot⟩

/-! ## What the bundle holds -/

def Lists (s : ModuleStore) (order : List Path) (modules : List Module) : Prop :=
  List.Forall₂ (fun p m ↦ s.modules.get? p = some m) order modules

theorem exists_lists {order : List Path} (h : ∀ p ∈ order, s.isTracked p = true) :
    ∃ modules, s.Lists order modules := by
  induction order with
  | nil => exact ⟨[], .nil⟩
  | cons p order ih =>
    obtain ⟨hp, horder⟩ := List.forall_mem_cons.1 h
    obtain ⟨m, hm⟩ := Option.isSome_iff_exists.1 ((isTracked_eq s p).symm.trans hp)
    obtain ⟨modules, hmodules⟩ := ih horder
    exact ⟨m :: modules, .cons hm hmodules⟩

theorem lists_keys (hmodules : s.modules.IsOrdered) :
    s.Lists s.modules.keys (s.modules.toList.map Prod.snd) := by
  rw [Lists, PathMap.keys, List.forall₂_map_left_iff, List.forall₂_map_right_iff,
    List.forall₂_same]
  exact fun e he ↦ hmodules.get?_of_mem he

theorem Lists.map_eq {order : List Path} {modules : List Module} (h : s.Lists order modules) :
    modules.map some = (order.map Path.components).map fun cs ↦
      (s.modules.table.get? cs).map Prod.snd := by
  induction h with
  | nil => rfl
  | cons hm _ ih =>
    rw [List.map_cons, List.map_cons, List.map_cons, ih, ← hm]
    rfl

/-- The order of the files does not matter for which modules there are. -/
theorem Lists.perm {order order' : List Path} {modules modules' : List Module}
    (h : s.Lists order modules) (h' : s.Lists order' modules')
    (hperm : (order.map Path.components).Perm (order'.map Path.components)) :
    modules.Perm modules' := by
  refine (List.map_perm_map_iff fun _ _ ↦ Option.some.inj).1 ?_
  rw [h.map_eq, h'.map_eq]
  exact hperm.map _

theorem Lists.bundleChunks_eq {modules : List Module} (h : s.Lists s.bundleOrder modules) :
    s.bundleChunks = modules.flatMap fun m ↦ m.stylesheet.chunks := by
  unfold bundleChunks
  generalize s.bundleOrder = order at h
  induction h with
  | nil => rfl
  | cons hm _ ih => rw [List.flatMap_cons, List.flatMap_cons, ih, hm]

theorem IsBundleOrder.perm_keys {order : List Path} (h : s.IsBundleOrder order)
    (hmodules : s.modules.IsOrdered) :
    (order.map Path.components).Perm (s.modules.keys.map Path.components) := by
  refine (List.perm_ext_iff_of_nodup h.distinct hmodules.areDistinct_keys).2 fun cs ↦ ?_
  have hiff : ∀ p : Path, p.isAmong order = true ↔ p.isAmong s.modules.keys = true := fun p ↦ by
    rw [h.listed, hmodules.isAmong_keys, isTracked_eq]
  constructor
  all_goals
    intro hcs
    obtain ⟨p, hp, rfl⟩ := List.mem_map.1 hcs
    have hamong := hiff p
    rw [Path.isAmong_iff_mem_map, Path.isAmong_iff_mem_map] at hamong
    tauto

/-- A bundle that no transform edits and that is not minified. -/
theorem output_of_done_eq_nil {c : Compiler} (hdone : c.pipeline.done = [])
    (hmode : c.mode.isDevelopment = true) (place : Path) (s : ModuleStore) :
    ∃ bundle, (s.output c place).2 = .ok bundle ∧
      bundle.css = (Stylesheet.joined ⟨place, s.bundleChunks⟩).write .spaced := by
  have hrun : ∀ job, c.pipeline.run .done job = (job, none) := by
    intro job
    rw [Pipeline.run, Pipeline.stage, hdone, Transform.runAll]
  unfold output
  rw [hrun]
  refine ⟨_, rfl, ?_⟩
  rw [hmode]
  rfl

/-- The bundle of any store, whatever its graph is: the tracked files in order with all their
chunks, and in the text the imports in front of the other rules. -/
theorem bundle_in_order (hmodules : s.modules.IsOrdered) :
    s.IsBundleOrder s.bundleOrder ∧ ∃ modules,
      s.Lists s.bundleOrder modules ∧ modules.Perm (s.modules.toList.map Prod.snd) ∧
      s.bundleChunks = modules.flatMap (fun m ↦ m.stylesheet.chunks) ∧
      ∀ c : Compiler, c.pipeline.done = [] → c.mode.isDevelopment = true → ∀ place,
        ∃ bundle rules comments text, (s.output c place).2 = .ok bundle ∧
          rules = s.bundleChunks.flatMap (fun k ↦ k.sheet.rules) ∧
          (rules.filter (·.isImport) ++ rules.filter (!·.isImport)).Perm rules ∧
          Css.AreLines ((rules.filter (·.isImport) ++ rules.filter (!·.isImport)).map
            (Css.Rule.write .spaced 0)) text ∧
          comments = s.bundleChunks.flatMap (fun k ↦ k.sheet.comments) ∧
          bundle.css = String.join (comments.map Css.Sheet.writeComment) ++ text ++ "\n" := by
  have horder := isBundleOrder_bundleOrder hmodules
  obtain ⟨modules, hlists⟩ := exists_lists fun p hp ↦ (horder.listed p).1 (Path.isAmong_of_mem hp)
  refine ⟨horder, modules, hlists, hlists.perm (lists_keys hmodules) (horder.perm_keys hmodules),
    hlists.bundleChunks_eq, fun c hdone hmode place ↦ ?_⟩
  obtain ⟨bundle, hbundle, hcss⟩ := output_of_done_eq_nil hdone hmode place s
  exact ⟨bundle, _, _, _, hbundle, rfl, List.filter_append_perm _ _,
    Css.Rule.areLines_writeAll _, rfl, hcss⟩

namespace Sample

def holding (file : String) (rule : Css.Rule) : Module :=
  ⟨⟨⟨file⟩, [⟨some ⟨file⟩, ⟨[], [rule]⟩⟩]⟩, .empty⟩

/-- The first two files compose from each other, and the first one also from the third one, which
keeps an import. -/
def entangled : ModuleStore where
  graph := ModuleGraph.empty.add ⟨"/a"⟩ ⟨"/b"⟩ |>.add ⟨"/b"⟩ ⟨"/a"⟩ |>.add ⟨"/a"⟩ ⟨"/c"⟩
  modules := .ofList [(⟨"/a"⟩, holding "/a" (.statement (.layers ["a"]))),
    (⟨"/b"⟩, holding "/b" (.statement (.layers ["b"]))),
    (⟨"/c"⟩, holding "/c" (.statement (.imported ⟨"c", none, none, []⟩)))]
  journal := .empty

def plain : Compiler := ⟨⟨"/"⟩, .development, .ofNamespaces .empty, .empty⟩

theorem isOrdered_entangled : entangled.modules.IsOrdered :=
  ((PathMap.isOrdered_empty.insert _ _).insert _ _).insert _ _

end Sample

theorem bundle_in_order_sample :
    Sample.entangled.bundleOrder = [⟨"/b"⟩, ⟨"/c"⟩, ⟨"/a"⟩] ∧
      Sample.entangled.IsBundleOrder Sample.entangled.bundleOrder ∧
      ∃ bundle, (Sample.entangled.output Sample.plain ⟨"/styles.css"⟩).2 = .ok bundle ∧
        bundle.css = "@import \"c\";\n@layer b;\n@layer a;\n" := by
  obtain ⟨horder, modules, -, -, -, hprint⟩ := bundle_in_order Sample.isOrdered_entangled
  obtain ⟨bundle, rules, comments, text, hbundle, -⟩ :=
    hprint Sample.plain rfl rfl ⟨"/styles.css"⟩
  have hfiles : Sample.entangled.bundleOrder = [⟨"/b"⟩, ⟨"/c"⟩, ⟨"/a"⟩] := by cbv
  have hcss : (Sample.entangled.output Sample.plain ⟨"/styles.css"⟩).2.toOption.map Bundle.css =
      some "@import \"c\";\n@layer b;\n@layer a;\n" := by
    rw [output, bundleChunks, hfiles]
    decide +kernel
  rw [hbundle] at hcss
  exact ⟨hfiles, horder, bundle, hbundle, Option.some.inj hcss⟩

end ModuleStore

end StyleModules
