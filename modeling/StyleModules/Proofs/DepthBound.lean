import Mathlib.Data.List.Chain
import StyleModules.Proofs.Dependents
import StyleModules.Proofs.Place

/-!
# What the bound on chains leaves out

The walk over dependents goes to each file once, by the way on which it comes to the file first, and
the bound on chains counts the files of that way.  A file that the walk comes to with the last level
is in the tree, but what it leads to is not looked at, also not when the walk comes to the file once
more by a shorter way.  So what is left out can be close to the file that the tree belongs to.  It
is left out because every way to it goes through a file at which some chain ends that is as long as
chains are followed.
-/

namespace StyleModules

open Relation Traversal

/-! ## Chains -/

namespace Traversal

variable {next : Path → List Path} {levels : Nat} {tree files new chain : List Path}
  {p q x : Path}

/-- Each file of a chain leads to the next one, and no two of them denote the same. -/
structure IsChainFrom (next : Path → List Path) (p x : Path) (chain : List Path) : Prop where
  steps : chain.IsChain fun p q ↦ q ∈ next p
  distinct : Path.AreDistinct chain
  first : chain.head? = some p
  last : chain.getLast? = some x

theorem isChainFrom_self (next : Path → List Path) (p : Path) : IsChainFrom next p p [p] where
  steps := .singleton p
  distinct := List.nodup_singleton _
  first := rfl
  last := rfl

theorem IsChainFrom.cons (h : IsChainFrom next q x chain) (hpq : q ∈ next p)
    (hp : p.isAmong chain = false) : IsChainFrom next p x (p :: chain) where
  steps := List.isChain_cons.2 ⟨fun r hr ↦ by
    obtain rfl : q = r := Option.some.inj (h.first.symm.trans hr)
    exact hpq, h.steps⟩
  distinct := List.nodup_cons.2 ⟨fun hmem ↦
    Bool.eq_false_iff.1 hp (Path.isAmong_iff_mem_map.2 hmem), h.distinct⟩
  first := rfl
  last := by rw [List.getLast?_cons, h.last, Option.getD_some]

/-- While a level is left, the files that a walk is over get into the tree. -/
theorem Walk.isAmong_of_mem (h : Walk next (levels + 1) tree files new) :
    ∀ f ∈ files, f.isAmong (tree ++ new) = true := by
  generalize hn : levels + 1 = n at h
  induction h with
  | nil => exact List.forall_mem_nil _
  | cut file _ _ => cases hn
  | skip met _ ih => exact List.forall_mem_cons.2 ⟨Path.isAmong_append_left met _, ih hn⟩
  | @visit _ tree files inner new file _ _ _ _ ih =>
    have hrest := ih hn
    rw [List.append_assoc] at hrest
    exact List.forall_mem_cons.2 ⟨Path.isAmong_of_mem (by simp), hrest⟩

/-- Everything that a walk adds is at the end of a chain outside of the tree.  Either that chain has
used up the levels, or all that the file leads to is in the tree as well. -/
theorem Walk.exists_chain (h : Walk next levels tree files new) : ∀ x ∈ new,
    ∃ f ∈ files, ∃ chain, IsChainFrom next f x chain ∧ (∀ y ∈ chain, y.isAmong tree = false) ∧
      chain.length ≤ levels ∧
      (chain.length = levels ∨ ∀ y ∈ next x, y.isAmong (tree ++ new) = true) := by
  induction h with
  | nil => exact List.forall_mem_nil _
  | cut file _ ih =>
    exact fun x hx ↦ (ih x hx).imp fun f ↦ And.imp_left (List.mem_cons_of_mem file)
  | @skip _ _ _ _ file _ _ ih =>
    exact fun x hx ↦ (ih x hx).imp fun f ↦ And.imp_left (List.mem_cons_of_mem file)
  | @visit levels tree files inner new file fresh inside rest ihInside ihRest =>
    intro x hx
    rcases List.mem_append.1 hx with hx | hx
    · refine ⟨file, List.mem_cons_self, ?_⟩
      rcases List.mem_cons.1 hx with rfl | hx
      · refine ⟨[x], isChainFrom_self next x, ?_, Nat.succ_le_succ (Nat.zero_le levels), ?_⟩
        · exact fun y hy ↦ List.mem_singleton.1 hy ▸ fresh
        · cases levels with
          | zero => exact .inl rfl
          | succ levels =>
            exact .inr fun y hy ↦ isAmong_of_inside (inside.isAmong_of_mem y hy) new
      · obtain ⟨f, hf, chain, hchain, hfresh, hlength, hend⟩ := ihInside x hx
        refine ⟨file :: chain, hchain.cons hf ?_, ?_, Nat.succ_le_succ hlength, ?_⟩
        · refine Bool.eq_false_iff.2 fun hmet ↦ ?_
          obtain ⟨y, hy, hsame⟩ := Path.isAmong_iff.1 hmet
          exact Bool.eq_false_iff.1 (hfresh y hy) (Path.isAmong_append_singleton.2 (.inr hsame))
        · exact List.forall_mem_cons.2
            ⟨fresh, fun y hy ↦ Path.not_isAmong_of_append (hfresh y hy)⟩
        · exact hend.imp (congrArg (· + 1)) fun hall y hy ↦ isAmong_of_inside (hall y hy) new
    · obtain ⟨f, hf, chain, hchain, hfresh, hlength, hend⟩ := ihRest x hx
      rw [List.append_assoc] at hend
      exact ⟨f, List.mem_cons_of_mem file hf, chain, hchain,
        fun y hy ↦ Path.not_isAmong_of_append (hfresh y hy), hlength, hend⟩

end Traversal

namespace Invalidation

/-- At the file ends a chain of as many files as chains can have. -/
def IsFar (next : Path → List Path) (p x : Path) : Prop :=
  ∃ r chain, r.Same x ∧ IsChainFrom next p r chain ∧ chain.length = maxDepth + 1

section Tracker

variable {σ : Type} {t : Tracker σ} {s : σ}

/-- What the tree of a file has and what it can leave out, whatever cycles and chains there are.
Each of its files ends a chain that is short enough to be followed.  And all is in it that the file
leads to without going on from a file at which a chain of the greatest length ends; if there is no
such file, the tree has all that the file leads to. -/
theorem isAmong_dependentsTree (ht : t.IsTable s) (imports : ImportLedger) (file : Path) :
    (∀ x ∈ dependentsTree t s imports file, ∃ chain,
      IsChainFrom (next t s imports) file x chain ∧ chain.length ≤ maxDepth + 1) ∧
    ∀ x, ReflTransGen (fun p q ↦ q ∈ next t s imports p ∧ ¬ IsFar (next t s imports) file p)
      file x → x.isAmong (dependentsTree t s imports file) = true := by
  have hwalk := walk_dependentsTree t s imports file
  have hchains : ∀ x ∈ dependentsTree t s imports file, ∃ chain,
      IsChainFrom (next t s imports) file x chain ∧ chain.length ≤ maxDepth + 1 ∧
        (chain.length = maxDepth + 1 ∨
          ∀ y ∈ next t s imports x, y.isAmong (dependentsTree t s imports file) = true) := by
    intro x hx
    obtain ⟨f, hf, chain, hchain, -, hlength, hend⟩ := hwalk.exists_chain x hx
    obtain rfl := List.mem_singleton.1 hf
    exact ⟨chain, hchain, hlength, hend⟩
  refine ⟨fun x hx ↦ ?_, fun x hx ↦ ?_⟩
  · obtain ⟨chain, hchain, hlength, -⟩ := hchains x hx
    exact ⟨chain, hchain, hlength⟩
  · induction hx with
    | refl => exact hwalk.isAmong_of_mem file (List.mem_singleton_self file)
    | @tail p q _ hstep ih =>
      obtain ⟨r, hr, hsame⟩ := Path.isAmong_iff.1 ih
      obtain ⟨chain, hchain, -, hlong | hclosed⟩ := hchains r hr
      · exact absurd ⟨r, chain, hsame, hchain, hlong⟩ hstep.2
      · exact hclosed q (next_same ht imports hsame ▸ hstep.1)

/-! ## A detour -/

/-- The first of some numbered files leads to the second and to the last one, every other one to the
one behind it.  The walk comes to the last one by all the others, and if there are as many files as
a chain can have, it does not look at what the last one leads to. -/
theorem fst_collect_detour (imports : ImportLedger) {f : Nat → Path} {y : Path} {n : Nat}
    (hn : 0 < n) (hdistinct : ∀ i j, (f i).Same (f j) → i = j)
    (hfirst : next t s imports (f 0) = [f 1, f n])
    (hstep : ∀ i, 0 < i → i < n → next t s imports (f i) = [f (i + 1)])
    (hlast : next t s imports (f n) = [y]) :
    (collect t s imports (n + 1) (f 0) []).1 = (List.range (n + 1)).map f := by
  have hfresh : ∀ i, ¬ (f i).isAmong ((List.range i).map f) = true := by
    intro i hmet
    obtain ⟨r, hr, hsame⟩ := Path.isAmong_iff.1 hmet
    obtain ⟨j, hj, rfl⟩ := List.mem_map.1 hr
    rw [List.mem_range, hdistinct j i hsame] at hj
    exact Nat.lt_irrefl i hj
  have hopened : ∀ i, (List.range i).map f ++ [f i] = (List.range (i + 1)).map f := by
    intro i
    rw [List.range_succ, List.map_append, List.map_singleton]
  -- from every file but the first one the walk goes on to the last one
  have hchain : ∀ left i, 0 < i → i + left = n →
      (collect t s imports (left + 1) (f i) ((List.range i).map f)).1 =
        (List.range (n + 1)).map f := by
    intro left
    induction left with
    | zero =>
      rintro i - rfl
      rw [Nat.add_zero] at hlast ⊢
      rw [fst_collect_succ, if_neg (hfresh i), hlast, hopened]
      rfl
    | succ left ih =>
      intro i hi hsum
      rw [fst_collect_succ, if_neg (hfresh i), hstep i hi (by omega), hopened, List.foldl_cons,
        List.foldl_nil]
      exact ih (i + 1) (Nat.succ_pos i) (by omega)
  obtain ⟨left, rfl⟩ : ∃ left, n = left + 1 := ⟨n - 1, by omega⟩
  have hmet : (f (left + 1)).isAmong ((List.range (left + 1 + 1)).map f) = true :=
    Path.isAmong_of_mem (List.mem_map_of_mem (List.mem_range.2 (Nat.lt_succ_self _)))
  have hone := hchain left 1 Nat.one_pos (Nat.add_comm 1 left)
  rw [fst_collect_succ, if_neg (by simp), hfirst, List.nil_append, List.foldl_cons,
    List.foldl_cons, List.foldl_nil]
  rw [List.range_one, List.map_singleton] at hone
  rw [hone, fst_collect_succ, if_pos hmet]

end Tracker

namespace Sample

/-- As many files as one likes. -/
def numbered (n : Nat) : Path :=
  .ofComponents [.root, .normal (String.ofList (List.replicate (n + 1) 'a'))]

def beyond : Path := ⟨"/b"⟩

/-- Each of the first files is imported by the one behind it. -/
def chain : Nat → ImportLedger
  | 0 => .empty
  | n + 1 => ((chain n).record (numbered n) (numbered (n + 1))).1

/-- The file at the end of a chain of the greatest length is imported by another one, and it also
imports the first file of the chain. -/
def detour : ImportLedger :=
  (((chain maxDepth).record (numbered 0) (numbered maxDepth)).1.record (numbered maxDepth) beyond).1

theorem components_numbered (n : Nat) : (numbered n).components =
    [.root, .normal (String.ofList (List.replicate (n + 1) 'a'))] := by
  refine Path.components_ofComponents fun c hc ↦ ?_
  obtain rfl := List.mem_singleton.1 hc
  refine ⟨_, rfl, ?_, ?_, ?_, ?_⟩ <;> rw [String.toList_ofList]
  · simp
  · simp [List.replicate_succ]
  · simp [List.replicate_succ]
  · simp [List.mem_replicate]

theorem eq_of_numbered_same {i j : Nat} (h : (numbered i).Same (numbered j)) : i = j := by
  rw [Path.Same, components_numbered, components_numbered] at h
  have hlength := congrArg (fun cs ↦ (cs.map fun c ↦ c.text.toList.length).sum) h
  simpa using hlength

theorem isOrdered_chain (n : Nat) : (chain n).importers.IsOrdered := by
  induction n with
  | zero => exact PathMap.isOrdered_empty
  | succ n ih => exact ImportLedger.isOrdered_record ih _ _

theorem parents_chain (n i : Nat) :
    (chain n).parents (numbered i) = if i < n then [numbered (i + 1)] else [] := by
  induction n with
  | zero => rfl
  | succ n ih =>
    rw [chain]
    by_cases hi : i = n
    · subst hi
      rw [ImportLedger.parents_record_self (isOrdered_chain i), ih, if_neg (Nat.lt_irrefl i),
        if_pos (Nat.lt_succ_self i), Path.addTo, if_neg (by simp), List.nil_append]
    · rw [ImportLedger.parents_record_of_ne fun heq ↦ hi (eq_of_numbered_same heq), ih]
      exact if_congr (by omega) rfl rfl

/-- Nothing is tracked, so only the ledger counts. -/
theorem next_ofTable_empty (l : ImportLedger) (p : Path) :
    next Tracker.ofTable .empty l p = l.parents p := rfl

theorem next_detour_first :
    next Tracker.ofTable .empty detour (numbered 0) = [numbered 1, numbered maxDepth] := by
  have hne : ∀ i j, i ≠ j → (numbered i).components ≠ (numbered j).components :=
    fun i j hij heq ↦ hij (eq_of_numbered_same heq)
  rw [next_ofTable_empty, detour, ImportLedger.parents_record_of_ne (hne _ _ (by decide)),
    ImportLedger.parents_record_self (isOrdered_chain _), parents_chain, if_pos (by decide),
    Path.addTo, if_neg]
  · rfl
  · rw [Path.isAmong_singleton]
    exact hne _ _ (by decide)

theorem next_detour_step (i : Nat) (hi : 0 < i) (hlt : i < maxDepth) :
    next Tracker.ofTable .empty detour (numbered i) = [numbered (i + 1)] := by
  have hne : ∀ j, i ≠ j → (numbered i).components ≠ (numbered j).components :=
    fun j hij heq ↦ hij (eq_of_numbered_same heq)
  rw [next_ofTable_empty, detour, ImportLedger.parents_record_of_ne (hne _ (by omega)),
    ImportLedger.parents_record_of_ne (hne _ (by omega)), parents_chain, if_pos hlt]

theorem next_detour_last :
    next Tracker.ofTable .empty detour (numbered maxDepth) = [beyond] := by
  have hne : (numbered maxDepth).components ≠ (numbered 0).components :=
    fun heq ↦ absurd (eq_of_numbered_same heq) (by decide)
  have hordered : ((chain maxDepth).record (numbered 0) (numbered maxDepth)).1.importers.IsOrdered :=
    ImportLedger.isOrdered_record (isOrdered_chain _) _ _
  rw [next_ofTable_empty, detour, ImportLedger.parents_record_self hordered,
    ImportLedger.parents_record_of_ne hne, parents_chain, if_neg (Nat.lt_irrefl _), Path.addTo,
    if_neg (by simp), List.nil_append]

theorem dependentsTree_detour : dependentsTree Tracker.ofTable .empty detour (numbered 0) =
    (List.range (maxDepth + 1)).map numbered :=
  fst_collect_detour detour (by decide) (fun _ _ ↦ eq_of_numbered_same) next_detour_first
    next_detour_step next_detour_last

theorem not_isAmong_detour :
    beyond.isAmong (dependentsTree Tracker.ofTable .empty detour (numbered 0)) = false := by
  rw [dependentsTree_detour]
  refine Bool.eq_false_iff.2 fun hmet ↦ ?_
  obtain ⟨r, hr, hsame⟩ := Path.isAmong_iff.1 hmet
  obtain ⟨i, -, rfl⟩ := List.mem_map.1 hr
  rw [components_numbered, List.replicate_succ] at hsame
  have htext := congrArg (fun cs ↦ (cs.map fun c ↦ c.text.toList)) hsame
  simp [show beyond.components = [.root, .normal "b"] by decide +kernel] at htext

end Sample

/-- A file that two steps lead to is left out of the tree: the file in the middle ends a chain of
the greatest length, and the walk comes to it by that chain first. -/
theorem dependentsTree_leaves_out :
    [Sample.numbered 0, Sample.numbered maxDepth, Sample.beyond].IsChain
        (fun p q ↦ q ∈ next Tracker.ofTable .empty Sample.detour p) ∧
      Sample.beyond.isAmong
        (dependentsTree Tracker.ofTable .empty Sample.detour (Sample.numbered 0)) = false := by
  refine ⟨.cons_cons ?_ (.cons_cons ?_ (.singleton _)), Sample.not_isAmong_detour⟩
  · rw [Sample.next_detour_first]
    exact List.mem_cons_of_mem _ (List.mem_singleton_self _)
  · rw [Sample.next_detour_last]
    exact List.mem_singleton_self _

theorem isAmong_dependentsTree_sample :
    (∃ chain, IsChainFrom (next Tracker.ofTable .empty Sample.detour) (Sample.numbered 0)
        (Sample.numbered maxDepth) chain ∧ chain.length ≤ maxDepth + 1) ∧
      (IsFar (next Tracker.ofTable .empty Sample.detour) (Sample.numbered 0) (Sample.numbered 0) ∨
        IsFar (next Tracker.ofTable .empty Sample.detour) (Sample.numbered 0)
          (Sample.numbered maxDepth)) := by
  obtain ⟨hchains, hall⟩ := isAmong_dependentsTree (Tracker.isTable_ofTable .empty) Sample.detour
    (Sample.numbered 0)
  refine ⟨hchains _ ?_, ?_⟩
  · rw [Sample.dependentsTree_detour]
    exact List.mem_map_of_mem (List.mem_range.2 (Nat.lt_succ_self _))
  · by_contra hnear
    rw [not_or] at hnear
    have hfirst : Sample.numbered maxDepth ∈
        next Tracker.ofTable .empty Sample.detour (Sample.numbered 0) := by
      rw [Sample.next_detour_first]
      exact List.mem_cons_of_mem _ (List.mem_singleton_self _)
    have hlast : Sample.beyond ∈
        next Tracker.ofTable .empty Sample.detour (Sample.numbered maxDepth) := by
      rw [Sample.next_detour_last]
      exact List.mem_singleton_self _
    have hmet := hall _ ((ReflTransGen.single ⟨hfirst, hnear.1⟩).tail ⟨hlast, hnear.2⟩)
    rw [Sample.not_isAmong_detour] at hmet
    exact Bool.false_ne_true hmet

end Invalidation

end StyleModules
