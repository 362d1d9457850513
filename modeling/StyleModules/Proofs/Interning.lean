import StyleModules.Proofs.Links

/-!
# Graphs with numbered nodes

A graph of files can be kept in a directed graph whose nodes go by number, beside a table of the
node that each path has.  Nodes are added when a path is first met and stay; edges are looked up
before they are added, and go when their file is cleared.

The directed graphs themselves are taken as given, with the laws that they are documented to have.
Whatever their order of edges and whichever numbers they give out again, table and graph stay
together through any changes, and list what the plain graph lists.
-/

namespace StyleModules

/-- Which edges of a node: those that start there or those that end there. -/
inductive Direction where
  | outgoing
  | incoming
deriving DecidableEq, Repr

namespace Direction

/-- The end of an edge that it has in common with the others of its direction. -/
def near : Direction → Nat × Nat → Nat
  | outgoing, ends => ends.1
  | incoming, ends => ends.2

def far : Direction → Nat × Nat → Nat
  | outgoing, ends => ends.2
  | incoming, ends => ends.1

theorem eq_of_near_of_far {dir : Direction} {ends ends' : Nat × Nat}
    (hnear : dir.near ends = dir.near ends') (hfar : dir.far ends = dir.far ends') :
    ends = ends' := by
  cases dir with
  | outgoing => exact Prod.ext hnear hfar
  | incoming => exact Prod.ext hfar hnear

end Direction

/-- Directed graphs with a path at each node.  Nodes and edges go by numbers. -/
structure DirectedGraphs where
  Graph : Type
  empty : Graph
  /-- The path at a node, if there is a node of that number. -/
  path? : Graph → Nat → Option Path
  /-- Where an edge starts and where it ends, if there is an edge of that number. -/
  ends? : Graph → Nat → Option (Nat × Nat)
  addNode : Graph → Path → Graph × Nat
  /-- Nothing comes back unless both nodes are there. -/
  addEdge : Graph → Nat → Nat → Option Graph
  removeEdge : Graph → Nat → Graph
  findEdge : Graph → Nat → Nat → Option Nat
  edgesOf : Graph → Nat → Direction → List Nat
  /-- The other ends of the edges of a node. -/
  neighbors : Graph → Nat → Direction → List Nat

/-- What a directed graph promises.  Neither the order in which edges come nor the numbers that new
nodes and edges get are part of it. -/
structure DirectedGraphs.IsCorrect (d : DirectedGraphs) : Prop where
  path?_empty : ∀ n, d.path? d.empty n = none
  ends?_empty : ∀ e, d.ends? d.empty e = none
  new_addNode : ∀ g p, d.path? g (d.addNode g p).2 = none
  path?_addNode : ∀ g p n,
    d.path? (d.addNode g p).1 n = if n = (d.addNode g p).2 then some p else d.path? g n
  ends?_addNode : ∀ g p e, d.ends? (d.addNode g p).1 e = d.ends? g e
  addEdge : ∀ g a b, (d.path? g a).isSome → (d.path? g b).isSome → ∃ g' new,
    d.addEdge g a b = some g' ∧ d.ends? g new = none ∧ (∀ n, d.path? g' n = d.path? g n) ∧
      ∀ e, d.ends? g' e = if e = new then some (a, b) else d.ends? g e
  path?_removeEdge : ∀ g e n, d.path? (d.removeEdge g e) n = d.path? g n
  ends?_removeEdge : ∀ g e e',
    d.ends? (d.removeEdge g e) e' = if e' = e then none else d.ends? g e'
  findEdge_some : ∀ g a b e, d.findEdge g a b = some e → d.ends? g e = some (a, b)
  findEdge_none : ∀ g a b, d.findEdge g a b = none → ∀ e, d.ends? g e ≠ some (a, b)
  nodup_edgesOf : ∀ g n dir, (d.edgesOf g n dir).Nodup
  mem_edgesOf : ∀ g n dir e,
    e ∈ d.edgesOf g n dir ↔ ∃ ends, d.ends? g e = some ends ∧ dir.near ends = n
  neighbors : ∀ g n dir,
    (d.neighbors g n dir).Perm ((d.edgesOf g n dir).filterMap fun e ↦ (d.ends? g e).map dir.far)

/-- Directed graphs as a list of paths and a list of edges, in which an edge that was removed leaves
a gap.  The edges of a node come the newest one first. -/
def DirectedGraphs.listed : DirectedGraphs where
  Graph := List Path × List (Option (Nat × Nat))
  empty := ([], [])
  path? g n := g.1[n]?
  ends? g e := g.2[e]?.join
  addNode g p := ((g.1 ++ [p], g.2), g.1.length)
  addEdge g a b :=
    if a < g.1.length ∧ b < g.1.length then some (g.1, g.2 ++ [some (a, b)]) else none
  removeEdge g e := (g.1, g.2.set e none)
  findEdge g a b := g.2.idxOf? (some (a, b))
  edgesOf g n dir :=
    (List.range g.2.length).reverse.filter fun e ↦ g.2[e]?.join.any fun ends ↦ dir.near ends = n
  neighbors g n dir :=
    ((List.range g.2.length).reverse.filter fun e ↦
      g.2[e]?.join.any fun ends ↦ dir.near ends = n).filterMap fun e ↦ g.2[e]?.join.map dir.far

theorem DirectedGraphs.isCorrect_listed : listed.IsCorrect where
  path?_empty n := rfl
  ends?_empty e := rfl
  new_addNode g p := List.getElem?_eq_none (Nat.le_refl _)
  path?_addNode g p n := by
    change (g.1 ++ [p])[n]? = if n = g.1.length then some p else g.1[n]?
    grind
  ends?_addNode g p e := rfl
  addEdge g a b ha hb := by
    have hnodes : a < g.1.length ∧ b < g.1.length :=
      ⟨isSome_getElem? g.1 a ▸ ha, isSome_getElem? g.1 b ▸ hb⟩
    refine ⟨(g.1, g.2 ++ [some (a, b)]), g.2.length, if_pos hnodes, ?_, fun n ↦ rfl, fun e ↦ ?_⟩
    · change g.2[g.2.length]?.join = none
      rw [List.getElem?_eq_none (Nat.le_refl _), Option.join_none]
    · change (g.2 ++ [some (a, b)])[e]?.join = if e = g.2.length then _ else g.2[e]?.join
      grind
  path?_removeEdge g e n := rfl
  ends?_removeEdge g e e' := by
    change (g.2.set e none)[e']?.join = if e' = e then none else g.2[e']?.join
    rw [List.getElem?_set]
    split
    next heq =>
      rw [if_pos heq.symm]
      split <;> rfl
    next hne => rw [if_neg (Ne.symm hne)]
  findEdge_some g a b e he := by
    obtain ⟨hlt, heq, -⟩ := List.idxOf?_eq_some_iff.1 he
    change g.2[e]?.join = some (a, b)
    rw [List.getElem?_eq_getElem hlt, heq, Option.join_some]
  findEdge_none g a b hnone e he := by
    refine List.idxOf?_eq_none_iff.1 hnone (List.mem_of_getElem? (i := e) ?_)
    exact Option.join_eq_some_iff.1 he
  nodup_edgesOf g n dir := (List.nodup_reverse.2 List.nodup_range).filter _
  mem_edgesOf g n dir e := by
    change e ∈ (List.range g.2.length).reverse.filter _ ↔ ∃ ends, g.2[e]?.join = some ends ∧ _
    rw [List.mem_filter, List.mem_reverse, List.mem_range, Option.any_eq_true]
    simp only [decide_eq_true_eq]
    refine and_iff_right_of_imp ?_
    rintro ⟨ends, he, -⟩
    exact (List.getElem?_eq_some_iff.1 (Option.join_eq_some_iff.1 he)).1
  neighbors g n dir := .refl _

/-- A directed graph, and the nodes of the paths that were met. -/
structure Interned (d : DirectedGraphs) where
  graph : d.Graph
  nodes : PathMap Nat

namespace Interned

variable {d : DirectedGraphs}

def empty (d : DirectedGraphs) : Interned d := ⟨d.empty, .empty⟩

def addNode (g : Interned d) (p : Path) : Interned d × Nat :=
  let (graph, n) := d.addNode g.graph p
  (⟨graph, g.nodes.insert p n⟩, n)

/-- The node of a path, which is added where the path has none. -/
def node (g : Interned d) (p : Path) : Interned d × Nat :=
  match g.nodes.get? p with
  | some n => (g, n)
  | none => g.addNode p

/-- Adds the edge between two nodes, unless there is one already. -/
def link (g : Interned d) (a b : Nat) : Option (Interned d) :=
  if (d.findEdge g.graph a b).isNone then
    (d.addEdge g.graph a b).map fun graph ↦ { g with graph }
  else some g

/-- Adds the edge from a file to one that it composes from. -/
def add (g : Interned d) (source target : Path) : Option (Interned d) :=
  let (g, a) := g.node source
  let (g, b) := g.node target
  g.link a b

/-- Removes every edge from a file, one after the other. -/
def clear (g : Interned d) (p : Path) : Interned d :=
  match g.nodes.get? p with
  | none => g
  | some n => { g with graph := (d.edgesOf g.graph n .outgoing).foldl d.removeEdge g.graph }

/-- The files at the other ends of a file's edges, in order. -/
def adjacent (g : Interned d) (dir : Direction) (p : Path) : Option (List Path) :=
  match g.nodes.get? p with
  | none => some []
  | some n => ((d.neighbors g.graph n dir).mapM (d.path? g.graph)).map Path.sort

def perform (g : Interned d) : ModuleGraph.Change → Option (Interned d)
  | .add source target => g.add source target
  | .clear path => some (g.clear path)

/-- The graph after some changes, if none of them fails. -/
def afterAll (d : DirectedGraphs) (changes : List ModuleGraph.Change) : Option (Interned d) :=
  changes.foldlM perform (empty d)

variable {g : Interned d} {m : ModuleGraph} {p q x y : Path} {a b n : Nat}

def HasEdge (g : Interned d) (a b : Nat) : Prop := ∃ e, d.ends? g.graph e = some (a, b)

def Joins (g : Interned d) (p q : Path) : Prop :=
  ∃ a b, g.nodes.get? p = some a ∧ g.nodes.get? q = some b ∧ g.HasEdge a b

/-- The table has each node under its path, and no two edges run between the same nodes. -/
structure IsConsistent (g : Interned d) : Prop where
  table : g.nodes.IsOrdered
  node : ∀ p n, g.nodes.get? p = some n ↔ ∃ x, d.path? g.graph n = some x ∧ x.Same p
  ends : ∀ a b, g.HasEdge a b → (d.path? g.graph a).isSome ∧ (d.path? g.graph b).isSome
  single : ∀ e e' ends, d.ends? g.graph e = some ends → d.ends? g.graph e' = some ends → e = e'

/-- The nodes are the files that a plain graph knows, under the same texts, and the edges are its
edges. -/
structure Represents (g : Interned d) (m : ModuleGraph) : Prop extends g.IsConsistent where
  ordered : m.IsOrdered
  known : ∀ x, x ∈ m.targets.keys ↔ ∃ n, d.path? g.graph n = some x
  edge : ∀ p q, q.isAmong (m.edges p) = true ↔ g.Joins p q

theorem IsConsistent.same_iff (h : g.IsConsistent) (hp : g.nodes.get? p = some n) :
    g.nodes.get? x = some n ↔ x.Same p := by
  refine ⟨fun hx ↦ ?_, fun hsame ↦ (PathMap.get?_congr hsame g.nodes).trans hp⟩
  obtain ⟨z, hz, hzp⟩ := (h.node p n).1 hp
  obtain ⟨z', hz', hzx⟩ := (h.node x n).1 hx
  obtain rfl := Option.some.inj (hz.symm.trans hz')
  exact Eq.trans hzx.symm hzp

theorem IsConsistent.get?_of_path? (h : g.IsConsistent) (hn : d.path? g.graph n = some x) :
    g.nodes.get? x = some n :=
  (h.node x n).2 ⟨x, hn, rfl⟩

theorem IsConsistent.path?_isSome (h : g.IsConsistent) (hp : g.nodes.get? p = some n) :
    (d.path? g.graph n).isSome := by
  obtain ⟨z, hz, -⟩ := (h.node p n).1 hp
  rw [hz, Option.isSome_some]

namespace Represents

theorem contains_eq (h : g.Represents m) (p : Path) :
    m.targets.contains p = (g.nodes.get? p).isSome := by
  rw [Bool.eq_iff_iff, Option.isSome_iff_exists]
  constructor
  · intro hp
    obtain ⟨n, hn⟩ := (h.known _).1 (h.ordered.targets.key_mem_keys hp)
    exact ⟨n, (h.node p n).2 ⟨_, hn, h.ordered.targets.components_key p⟩⟩
  · rintro ⟨n, hn⟩
    obtain ⟨x, hx, hsame⟩ := (h.node p n).1 hn
    obtain ⟨a, ha⟩ := h.ordered.targets.mem_keys_iff.1 ((h.known x).2 ⟨n, hx⟩)
    rw [PathMap.contains, Table.contains, ← hsame, ha, Option.isSome_some]

theorem path?_eq_some_iff (h : g.Represents m) :
    d.path? g.graph n = some x ↔ x ∈ m.targets.keys ∧ g.nodes.get? x = some n := by
  refine ⟨fun hn ↦ ⟨(h.known x).2 ⟨n, hn⟩, h.get?_of_path? hn⟩, fun ⟨hx, hget⟩ ↦ ?_⟩
  obtain ⟨a, ha⟩ := (h.known x).1 hx
  rwa [Option.some.inj (hget.symm.trans (h.get?_of_path? ha))]

end Represents

theorem represents_empty (hd : d.IsCorrect) : (empty d).Represents .empty where
  table := PathMap.isOrdered_empty
  node p n := by simp [empty, hd.path?_empty]
  ends a b := by simp [HasEdge, empty, hd.ends?_empty]
  single e e' ends := by simp [empty, hd.ends?_empty]
  ordered := ModuleGraph.isOrdered_empty
  known x := by
    simp [empty, hd.path?_empty, ModuleGraph.empty, PathMap.keys, PathMap.toList, PathMap.empty,
      Table.values, Table.empty]
  edge p q := by simp [Joins, empty]

/-! ## New nodes -/

theorem path?_addNode (hd : d.IsCorrect) : d.path? (g.addNode p).1.graph n = some x ↔
    (n = (g.addNode p).2 ∧ x = p) ∨ d.path? g.graph n = some x := by
  have hnew : d.path? g.graph (g.addNode p).2 = none := hd.new_addNode g.graph p
  have hpath : d.path? (g.addNode p).1.graph n =
      if n = (g.addNode p).2 then some p else d.path? g.graph n := hd.path?_addNode g.graph p n
  rw [hpath]
  split
  next hn => simp [hn, hnew, eq_comm]
  next hn => simp [hn]

theorem IsConsistent.get?_addNode (h : g.IsConsistent) (hp : g.nodes.get? p = none) :
    (g.addNode p).1.nodes.get? x = some n ↔
      (n = (g.addNode p).2 ∧ x.Same p) ∨ g.nodes.get? x = some n := by
  change (g.nodes.insert p (g.addNode p).2).get? x = some n ↔ _
  by_cases hx : x.Same p
  · rw [PathMap.get?_congr hx, PathMap.get?_congr hx, h.table.get?_insert_self, hp]
    simp [hx, eq_comm]
  · rw [PathMap.get?_insert_of_ne hx]
    simp [hx]

theorem hasEdge_addNode (hd : d.IsCorrect) : (g.addNode p).1.HasEdge a b ↔ g.HasEdge a b :=
  exists_congr fun e ↦ Eq.congr_left (hd.ends?_addNode g.graph p e)

theorem IsConsistent.addNode (hd : d.IsCorrect) (h : g.IsConsistent)
    (hp : g.nodes.get? p = none) : (g.addNode p).1.IsConsistent where
  table := h.table.insert p _
  node x k := by
    rw [h.get?_addNode hp, h.node]
    simp only [path?_addNode hd, or_and_right, exists_or, and_assoc, exists_and_left,
      exists_eq_left]
    exact or_congr_left (and_congr_right fun _ ↦ eq_comm)
  ends a b hab := by
    have hold : ∀ k, (d.path? g.graph k).isSome → (d.path? (g.addNode p).1.graph k).isSome := by
      intro k hk
      obtain ⟨y, hy⟩ := Option.isSome_iff_exists.1 hk
      exact Option.isSome_iff_exists.2 ⟨y, (path?_addNode hd).2 (.inr hy)⟩
    have hends := h.ends a b ((hasEdge_addNode hd).1 hab)
    exact ⟨hold a hends.1, hold b hends.2⟩
  single e e' ends he he' := h.single e e' ends ((hd.ends?_addNode g.graph p e).symm.trans he)
    ((hd.ends?_addNode g.graph p e').symm.trans he')

/-- A node that is added has no edges yet. -/
theorem IsConsistent.joins_addNode (hd : d.IsCorrect) (h : g.IsConsistent)
    (hp : g.nodes.get? p = none) : (g.addNode p).1.Joins x y ↔ g.Joins x y := by
  have hnew : d.path? g.graph (g.addNode p).2 = none := hd.new_addNode g.graph p
  have hold : ∀ z k, (d.path? g.graph k).isSome → (g.addNode p).1.nodes.get? z = some k →
      g.nodes.get? z = some k := by
    intro z k hk hz
    rcases (h.get?_addNode hp).1 hz with ⟨rfl, -⟩ | hz
    · simp [hnew] at hk
    · exact hz
  constructor
  · rintro ⟨a, b, ha, hb, hab⟩
    rw [hasEdge_addNode hd] at hab
    exact ⟨a, b, hold x a (h.ends a b hab).1 ha, hold y b (h.ends a b hab).2 hb, hab⟩
  · rintro ⟨a, b, ha, hb, hab⟩
    exact ⟨a, b, (h.get?_addNode hp).2 (.inr ha), (h.get?_addNode hp).2 (.inr hb),
      (hasEdge_addNode hd).2 hab⟩

theorem Represents.addNode (hd : d.IsCorrect) (h : g.Represents m)
    (hp : g.nodes.get? p = none) : (g.addNode p).1.Represents (m.know p) where
  toIsConsistent := h.toIsConsistent.addNode hd hp
  ordered := h.ordered.know p
  known x := by
    have hunknown : m.targets.contains p = false := by rw [h.contains_eq, hp, Option.isSome_none]
    rw [h.ordered.mem_keys_know, h.known]
    simp only [path?_addNode hd, hunknown, exists_or, exists_and_right, exists_eq, and_true,
      true_and]
    exact or_comm
  edge x y := by
    rw [ModuleGraph.edges_know h.ordered.targets, h.edge, h.joins_addNode hd hp]

/-- A file that has a node is known. -/
theorem Represents.know (h : g.Represents m) (hp : g.nodes.get? p = some n) :
    g.Represents (m.know p) where
  toIsConsistent := h.toIsConsistent
  ordered := h.ordered.know p
  known x := by
    have hknown : m.targets.contains p = true := by rw [h.contains_eq, hp, Option.isSome_some]
    rw [h.ordered.mem_keys_know, h.known, hknown]
    simp
  edge x y := by rw [ModuleGraph.edges_know h.ordered.targets, h.edge]

theorem Represents.represents_node (hd : d.IsCorrect) (h : g.Represents m) (p : Path) :
    (g.node p).1.Represents (m.know p) ∧
      (g.node p).1.nodes.get? p = some (g.node p).2 := by
  unfold Interned.node
  cases hp : g.nodes.get? p with
  | some n => exact ⟨h.know hp, hp⟩
  | none => exact ⟨h.addNode hd hp, h.table.get?_insert_self _⟩

/-- Nodes stay when others are added. -/
theorem IsConsistent.get?_node (h : g.IsConsistent) (hx : g.nodes.get? x = some n) :
    (g.node p).1.nodes.get? x = some n := by
  unfold Interned.node
  cases hp : g.nodes.get? p with
  | some k => exact hx
  | none => exact (h.get?_addNode hp).2 (.inr hx)

/-! ## Edges -/

section Edges

variable {g' : Interned d}

/-- Graphs that differ in their edges only. -/
structure SameNodes (g g' : Interned d) : Prop where
  nodes : g'.nodes = g.nodes
  path? : ∀ n, d.path? g'.graph n = d.path? g.graph n

theorem SameNodes.isConsistent (hs : g.SameNodes g') (h : g.IsConsistent)
    (hends : ∀ a b, g'.HasEdge a b →
      (d.path? g.graph a).isSome ∧ (d.path? g.graph b).isSome)
    (hsingle : ∀ e e' ends, d.ends? g'.graph e = some ends → d.ends? g'.graph e' = some ends →
      e = e') : g'.IsConsistent where
  table := hs.nodes ▸ h.table
  node p n := by simpa only [hs.nodes, hs.path?] using h.node p n
  ends a b hab := by simpa only [hs.path?] using hends a b hab
  single := hsingle

theorem SameNodes.joins_iff (hs : g.SameNodes g') : g'.Joins x y ↔
    ∃ a b, g.nodes.get? x = some a ∧ g.nodes.get? y = some b ∧ g'.HasEdge a b := by
  rw [Joins, hs.nodes]

section NewEdge

variable {new : Nat} (hends : ∀ e, d.ends? g'.graph e =
  if e = new then some (a, b) else d.ends? g.graph e)

include hends

theorem hasEdge_of_new (hnew : d.ends? g.graph new = none) (k l : Nat) :
    g'.HasEdge k l ↔ g.HasEdge k l ∨ (k = a ∧ l = b) := by
  constructor
  · rintro ⟨e, he⟩
    rw [hends] at he
    split at he
    next =>
      obtain ⟨rfl, rfl⟩ := Prod.mk.inj (Option.some.inj he)
      exact .inr ⟨rfl, rfl⟩
    next => exact .inl ⟨e, he⟩
  · rintro (⟨e, he⟩ | ⟨rfl, rfl⟩)
    · have hne : e ≠ new := by
        rintro rfl
        rw [hnew] at he
        cases he
      exact ⟨e, ((hends e).trans (if_neg hne)).trans he⟩
    · exact ⟨new, (hends new).trans (if_pos rfl)⟩

/-- There are no two edges between the same nodes if there was none where one was added. -/
theorem IsConsistent.single_of_new (h : g.IsConsistent)
    (hnone : ∀ e, d.ends? g.graph e ≠ some (a, b)) (e e' : Nat) (ends : Nat × Nat)
    (he : d.ends? g'.graph e = some ends) (he' : d.ends? g'.graph e' = some ends) : e = e' := by
  rw [hends] at he he'
  split at he <;> split at he'
  next heq heq' => rw [heq, heq']
  next => exact absurd (he'.trans he.symm) (hnone e')
  next => exact absurd (he.trans he'.symm) (hnone e)
  next => exact h.single e e' ends he he'

end NewEdge

/-- An edge is added where there was none, and nothing is done where there was one. -/
theorem IsConsistent.exists_link (hd : d.IsCorrect) (h : g.IsConsistent)
    (ha : (d.path? g.graph a).isSome) (hb : (d.path? g.graph b).isSome) :
    ∃ g', g.link a b = some g' ∧ g.SameNodes g' ∧ g'.IsConsistent ∧
      ∀ k l, g'.HasEdge k l ↔ g.HasEdge k l ∨ (k = a ∧ l = b) := by
  unfold link
  cases hfind : d.findEdge g.graph a b with
  | some e =>
    have hab : g.HasEdge a b := ⟨e, hd.findEdge_some _ _ _ _ hfind⟩
    refine ⟨g, rfl, ⟨rfl, fun _ ↦ rfl⟩, h, fun k l ↦ ⟨.inl, ?_⟩⟩
    rintro (hkl | ⟨rfl, rfl⟩)
    · exact hkl
    · exact hab
  | none =>
    obtain ⟨graph, new, hadd, hnew, hpath, hends⟩ := hd.addEdge g.graph a b ha hb
    have hs : g.SameNodes ⟨graph, g.nodes⟩ := ⟨rfl, hpath⟩
    have hedge : ∀ k l, (⟨graph, g.nodes⟩ : Interned d).HasEdge k l ↔
        g.HasEdge k l ∨ (k = a ∧ l = b) := hasEdge_of_new hends hnew
    refine ⟨⟨graph, g.nodes⟩, ?_, hs, hs.isConsistent h (fun k l hkl ↦ ?_) ?_, hedge⟩
    · rw [Option.isNone_none, if_pos rfl, hadd, Option.map_some]
    · rcases (hedge k l).1 hkl with hkl | ⟨rfl, rfl⟩
      · exact h.ends k l hkl
      · exact ⟨ha, hb⟩
    · exact h.single_of_new hends (hd.findEdge_none _ _ _ hfind)

/-- A link between the nodes of two files that are both known. -/
theorem Represents.exists_link (hd : d.IsCorrect) (hm : m.IsOrdered)
    (h : g.Represents ((m.know p).know q)) (ha : g.nodes.get? p = some a)
    (hb : g.nodes.get? q = some b) :
    ∃ g', g.link a b = some g' ∧ g'.Represents (m.add p q) := by
  obtain ⟨g', hlink, hs, hconsistent, hedge⟩ :=
    h.toIsConsistent.exists_link hd (h.path?_isSome ha) (h.path?_isSome hb)
  have hedges : ∀ x, ((m.know p).know q).edges x = m.edges x := fun x ↦
    (ModuleGraph.edges_know (hm.know p).targets q x).trans (ModuleGraph.edges_know hm.targets p x)
  refine ⟨g', hlink, hconsistent, hm.add p q, fun x ↦ ?_, fun x y ↦ ?_⟩
  · simp only [hm.mem_keys_add, h.known, hs.path?]
  · rw [ModuleGraph.isAmong_edges_add hm.targets, ← hedges, h.edge, hs.joins_iff]
    simp only [hedge, and_or_left, exists_or]
    refine or_congr_right ⟨?_, ?_⟩
    · rintro ⟨hx, hy⟩
      exact ⟨a, b, (h.same_iff ha).2 hx, (h.same_iff hb).2 hy, rfl, rfl⟩
    · rintro ⟨k, l, hx, hy, rfl, rfl⟩
      exact ⟨(h.same_iff ha).1 hx, (h.same_iff hb).1 hy⟩

theorem Represents.exists_add (hd : d.IsCorrect) (h : g.Represents m) (p q : Path) :
    ∃ g', g.add p q = some g' ∧ g'.Represents (m.add p q) := by
  obtain ⟨hsource, ha⟩ := h.represents_node hd p
  obtain ⟨htarget, hb⟩ := hsource.represents_node hd q
  exact htarget.exists_link hd h.ordered (hsource.get?_node ha) hb

/-! ## Removal -/

theorem path?_foldl_removeEdge (hd : d.IsCorrect) (es : List Nat) (graph : d.Graph) :
    d.path? (es.foldl d.removeEdge graph) n = d.path? graph n := by
  induction es generalizing graph with
  | nil => rfl
  | cons e es ih => rw [List.foldl_cons, ih, hd.path?_removeEdge]

theorem ends?_foldl_removeEdge (hd : d.IsCorrect) (es : List Nat) (graph : d.Graph) (e : Nat) :
    d.ends? (es.foldl d.removeEdge graph) e = if e ∈ es then none else d.ends? graph e := by
  induction es generalizing graph with
  | nil => rfl
  | cons e' es ih =>
    rw [List.foldl_cons, ih, hd.ends?_removeEdge]
    by_cases he : e = e'
    · simp [he]
    · simp [he]

theorem sameNodes_clear (hd : d.IsCorrect) (g : Interned d) (p : Path) :
    g.SameNodes (g.clear p) := by
  unfold clear
  cases g.nodes.get? p with
  | none => exact ⟨rfl, fun _ ↦ rfl⟩
  | some n => exact ⟨rfl, fun _ ↦ path?_foldl_removeEdge hd _ _⟩

/-- The edges that are left start at other nodes. -/
theorem ends?_clear (hd : d.IsCorrect) (e : Nat) (ends : Nat × Nat) :
    d.ends? (g.clear p).graph e = some ends ↔
      d.ends? g.graph e = some ends ∧ g.nodes.get? p ≠ some ends.1 := by
  unfold clear
  cases g.nodes.get? p with
  | none => simp
  | some n =>
    change d.ends? ((d.edgesOf g.graph n .outgoing).foldl d.removeEdge g.graph) e = _ ↔ _
    rw [ends?_foldl_removeEdge hd, ite_eq_iff, hd.mem_edgesOf]
    constructor
    · rintro (⟨-, hnone⟩ | ⟨hout, he⟩)
      · cases hnone
      · exact ⟨he, fun hn ↦ hout ⟨ends, he, (Option.some.inj hn).symm⟩⟩
    · rintro ⟨he, hne⟩
      refine .inr ⟨?_, he⟩
      rintro ⟨ends', he', rfl⟩
      obtain rfl := Option.some.inj (he.symm.trans he')
      exact hne rfl

theorem hasEdge_clear (hd : d.IsCorrect) :
    (g.clear p).HasEdge a b ↔ g.HasEdge a b ∧ g.nodes.get? p ≠ some a := by
  simp only [HasEdge, ends?_clear hd, exists_and_right]

theorem IsConsistent.clear (hd : d.IsCorrect) (h : g.IsConsistent) (p : Path) :
    (g.clear p).IsConsistent :=
  (sameNodes_clear hd g p).isConsistent h
    (fun a b hab ↦ h.ends a b ((hasEdge_clear hd).1 hab).1)
    fun e e' ends he he' ↦ h.single e e' ends ((ends?_clear hd e ends).1 he).1
      ((ends?_clear hd e' ends).1 he').1

theorem Represents.clear (hd : d.IsCorrect) (h : g.Represents m) (p : Path) :
    (g.clear p).Represents (m.clear p) where
  toIsConsistent := h.toIsConsistent.clear hd p
  ordered := h.ordered.clear p
  known x := by
    simp only [h.ordered.mem_keys_clear, h.known, (sameNodes_clear hd g p).path?]
  edge x y := by
    rw [h.ordered.edges_clear, (sameNodes_clear hd g p).joins_iff]
    simp only [hasEdge_clear hd]
    by_cases hx : x.Same p
    · rw [if_pos hx, Path.isAmong_nil, ← PathMap.get?_congr hx]
      refine iff_of_false Bool.false_ne_true ?_
      rintro ⟨a, b, ha, -, -, hne⟩
      exact hne ha
    · rw [if_neg hx, h.edge]
      refine exists_congr fun a ↦ exists_congr fun b ↦ and_congr_right fun ha ↦ ?_
      have hne : g.nodes.get? p ≠ some a := fun hp ↦ hx ((h.same_iff hp).1 ha)
      exact and_congr_right fun _ ↦ (and_iff_left hne).symm

end Edges

theorem Represents.exists_perform (hd : d.IsCorrect) (h : g.Represents m)
    (c : ModuleGraph.Change) : ∃ g', g.perform c = some g' ∧ g'.Represents (m.perform c) := by
  cases c with
  | add source target => exact h.exists_add hd source target
  | clear path => exact ⟨g.clear path, rfl, h.clear hd path⟩

/-- No change fails, and table and graph stay together. -/
theorem exists_afterAll (hd : d.IsCorrect) (changes : List ModuleGraph.Change) :
    ∃ g, afterAll d changes = some g ∧ g.Represents (ModuleGraph.afterAll changes) := by
  induction changes using List.reverseRecOn with
  | nil => exact ⟨empty d, rfl, represents_empty hd⟩
  | append_singleton changes c ih =>
    obtain ⟨g, hg, hrepresents⟩ := ih
    obtain ⟨g', hg', hrepresents'⟩ := hrepresents.exists_perform hd c
    rw [ModuleGraph.afterAll_append]
    refine ⟨g', ?_, hrepresents'⟩
    rw [afterAll] at hg ⊢
    simp [List.foldlM_append, hg, hg']

/-! ## Both sides of the edges -/

theorem mapM_eq_filterMap {α β : Type} {f : α → Option β} {as : List α}
    (h : ∀ a ∈ as, (f a).isSome) : as.mapM f = some (as.filterMap f) := by
  induction as with
  | nil => rfl
  | cons a as ih =>
    obtain ⟨hhead, htail⟩ := List.forall_mem_cons.1 h
    obtain ⟨b, hb⟩ := Option.isSome_iff_exists.1 hhead
    simp [List.mapM_cons, hb, ih htail]

theorem mem_neighbors (hd : d.IsCorrect) {dir : Direction} {k : Nat} :
    k ∈ d.neighbors g.graph n dir ↔
      ∃ a b, g.HasEdge a b ∧ dir.near (a, b) = n ∧ dir.far (a, b) = k := by
  rw [(hd.neighbors g.graph n dir).mem_iff, List.mem_filterMap]
  simp only [hd.mem_edgesOf, Option.map_eq_some_iff]
  constructor
  · rintro ⟨e, ⟨ends, he, hnear⟩, ends', he', hfar⟩
    obtain rfl := Option.some.inj (he.symm.trans he')
    exact ⟨ends.1, ends.2, ⟨e, he⟩, hnear, hfar⟩
  · rintro ⟨a, b, ⟨e, he⟩, hnear, hfar⟩
    exact ⟨e, ⟨(a, b), he, hnear⟩, (a, b), he, hfar⟩

/-- No neighbor is there twice, since no edge is. -/
theorem IsConsistent.nodup_neighbors (hd : d.IsCorrect) (h : g.IsConsistent) (n : Nat)
    (dir : Direction) : (d.neighbors g.graph n dir).Nodup := by
  refine (hd.neighbors g.graph n dir).nodup_iff.2 (List.pairwise_filterMap.2 ?_)
  refine (hd.nodup_edgesOf g.graph n dir).imp_of_mem fun {e e'} he he' hne ↦ ?_
  obtain ⟨ends, hends, hnear⟩ := (hd.mem_edgesOf _ _ _ _).1 he
  obtain ⟨ends', hends', hnear'⟩ := (hd.mem_edgesOf _ _ _ _).1 he'
  rw [hends, hends', Option.map_some, Option.map_some]
  rintro k hk k' hk' rfl
  obtain rfl : dir.far ends = k := Option.some.inj hk
  have hfar : dir.far ends' = dir.far ends := Option.some.inj hk'
  have heq : ends' = ends := Direction.eq_of_near_of_far (hnear'.trans hnear.symm) hfar
  exact hne (h.single e e' ends hends (heq ▸ hends'))

theorem IsConsistent.path?_neighbor_isSome (hd : d.IsCorrect) (h : g.IsConsistent) {dir : Direction}
    {k : Nat} (hk : k ∈ d.neighbors g.graph n dir) : (d.path? g.graph k).isSome := by
  obtain ⟨a, b, hab, -, rfl⟩ := (mem_neighbors hd).1 hk
  cases dir with
  | outgoing => exact (h.ends a b hab).2
  | incoming => exact (h.ends a b hab).1

/-- Different neighbors have different paths, since each path has one node. -/
theorem IsConsistent.areDistinct_neighbors (hd : d.IsCorrect) (h : g.IsConsistent) (n : Nat)
    (dir : Direction) :
    Path.AreDistinct ((d.neighbors g.graph n dir).filterMap (d.path? g.graph)) := by
  rw [Path.AreDistinct, List.map_filterMap]
  refine (h.nodup_neighbors hd n dir).filterMap fun k k' cs hk hk' ↦ ?_
  obtain ⟨x, hx, rfl⟩ := Option.map_eq_some_iff.1 hk
  obtain ⟨x', hx', hsame⟩ := Option.map_eq_some_iff.1 hk'
  have hget : g.nodes.get? x = some k := h.get?_of_path? hx
  have hget' : g.nodes.get? x = some k' := (h.node x k').2 ⟨x', hx', hsame⟩
  exact Option.some.inj (hget.symm.trans hget')

/-- What is listed as adjacent is decided by the nodes and edges alone. -/
theorem IsConsistent.adjacent_eq (hd : d.IsCorrect) (h : g.IsConsistent) {dir : Direction}
    {ps : List Path} (hps : Path.Ascends ps)
    (hmem : ∀ x, x ∈ ps ↔ ∃ a b, g.HasEdge a b ∧ g.nodes.get? p = some (dir.near (a, b)) ∧
      d.path? g.graph (dir.far (a, b)) = some x) : g.adjacent dir p = some ps := by
  unfold adjacent
  cases hp : g.nodes.get? p with
  | none =>
    have hnil : ps = [] := List.eq_nil_iff_forall_not_mem.2 fun x hx ↦ by
      obtain ⟨a, b, -, hnear, -⟩ := (hmem x).1 hx
      simp [hp] at hnear
    rw [hnil]
  | some n =>
    change ((d.neighbors g.graph n dir).mapM (d.path? g.graph)).map Path.sort = some ps
    rw [mapM_eq_filterMap fun k hk ↦ h.path?_neighbor_isSome hd hk, Option.map_some]
    apply congrArg some
    refine (h.areDistinct_neighbors hd n dir).ascends_sort.eq_of_mem_iff hps fun x ↦ ?_
    rw [Path.mem_sort, List.mem_filterMap, hmem, hp]
    simp only [mem_neighbors hd]
    constructor
    · rintro ⟨k, ⟨a, b, hab, hnear, rfl⟩, hx⟩
      exact ⟨a, b, hab, congrArg some hnear.symm, hx⟩
    · rintro ⟨a, b, hab, hnear, hx⟩
      exact ⟨_, ⟨a, b, hab, (Option.some.inj hnear).symm, rfl⟩, hx⟩

theorem Represents.outgoing_eq (hd : d.IsCorrect) (h : g.Represents m) (hm : m.KnowsTargets)
    (p : Path) : g.adjacent .outgoing p = some (m.dependencies p) := by
  refine h.toIsConsistent.adjacent_eq hd (h.ordered.ascends_dependencies p) fun x ↦ ?_
  rw [ModuleGraph.dependencies_eq, Path.mem_sort]
  constructor
  · intro hx
    obtain ⟨a, b, ha, hb, hab⟩ := (h.edge p x).1 (Path.isAmong_of_mem hx)
    exact ⟨a, b, hab, ha, h.path?_eq_some_iff.2 ⟨hm p x hx, hb⟩⟩
  · rintro ⟨a, b, hab, ha, hx⟩
    obtain ⟨hxKnown, hb⟩ := h.path?_eq_some_iff.1 hx
    obtain ⟨y, hy, hsame⟩ := Path.isAmong_iff.1 ((h.edge p x).2 ⟨a, b, ha, hb, hab⟩)
    obtain rfl := h.ordered.targets.eq_of_same (hm p y hy) hxKnown hsame
    exact hy

theorem Represents.incoming_eq (hd : d.IsCorrect) (h : g.Represents m) (p : Path) :
    g.adjacent .incoming p = some (m.dependents p) := by
  refine h.toIsConsistent.adjacent_eq hd (h.ordered.ascends_dependents p) fun x ↦ ?_
  rw [h.ordered.mem_dependents_iff, h.edge]
  constructor
  · rintro ⟨hx, a, b, ha, hb, hab⟩
    exact ⟨a, b, hab, hb, h.path?_eq_some_iff.2 ⟨hx, ha⟩⟩
  · rintro ⟨a, b, hab, hb, hx⟩
    obtain ⟨hxKnown, ha⟩ := h.path?_eq_some_iff.1 hx
    exact ⟨hxKnown, a, b, ha, hb, hab⟩

end Interned

/-- After any changes a graph lists, on either side of the links, each file once and in ascending
order, and what is cleared takes no other file's targets along.  A graph with numbered nodes goes
through the same changes without failing and lists the same files. -/
theorem ModuleGraph.lists_links (d : DirectedGraphs) (hd : d.IsCorrect) (changes : List Change)
    (p : Path) :
    Path.Ascends ((afterAll changes).dependencies p) ∧
      (∀ q : Path, q.isAmong ((afterAll changes).dependencies p) = true ↔
        IsLinked changes p q) ∧
      Path.Ascends ((afterAll changes).dependents p) ∧
      (∀ q : Path, q.isAmong ((afterAll changes).dependents p) = true ↔
        p.isAmong ((afterAll changes).dependencies q) = true) ∧
      (∀ q : Path, ¬ q.Same p → ((afterAll changes).clear p).dependencies q =
        (afterAll changes).dependencies q) ∧
      ∃ g, Interned.afterAll d changes = some g ∧
        g.adjacent .outgoing p = some ((afterAll changes).dependencies p) ∧
        g.adjacent .incoming p = some ((afterAll changes).dependents p) := by
  have hordered : (afterAll changes).IsOrdered := isOrdered_afterAll changes
  obtain ⟨g, hg, hrepresents⟩ := Interned.exists_afterAll hd changes
  refine ⟨hordered.ascends_dependencies p, fun q ↦ ?_, hordered.ascends_dependents p,
    fun q ↦ ?_, fun q hq ↦ hordered.dependencies_clear_of_ne hq, g, hg,
    hrepresents.outgoing_eq hd (knowsTargets_afterAll changes) p, hrepresents.incoming_eq hd p⟩
  · rw [isAmong_dependencies, isAmong_edges_afterAll]
  · rw [isAmong_dependents hordered.targets, isAmong_dependencies]

namespace ModuleGraph

/-- Files that compose from each other and from themselves, some of them written in other ways.
One is cleared in between and linked again. -/
def Sample.relinked : List Change :=
  [.add ⟨"/a"⟩ ⟨"/b"⟩, .add ⟨"/a"⟩ ⟨"/./b"⟩, .add ⟨"/b"⟩ ⟨"/b"⟩, .add ⟨"/b"⟩ ⟨"/a"⟩,
    .clear ⟨"/a"⟩, .add ⟨"/a"⟩ ⟨"/c"⟩, .add ⟨"//a"⟩ ⟨"/b"⟩]

theorem lists_links_sample : DirectedGraphs.listed.IsCorrect ∧
    ∃ g, Interned.afterAll .listed Sample.relinked = some g ∧
      g.adjacent .outgoing ⟨"/a"⟩ = some [⟨"/b"⟩, ⟨"/c"⟩] ∧
      g.adjacent .incoming ⟨"/a"⟩ = some [⟨"/b"⟩] := by
  have hcorrect : DirectedGraphs.listed.IsCorrect := DirectedGraphs.isCorrect_listed
  obtain ⟨hascends, -, -, -, -, g, hg, houtgoing, hincoming⟩ :=
    lists_links .listed hcorrect Sample.relinked ⟨"/a"⟩
  have hdependencies : (afterAll Sample.relinked).dependencies ⟨"/a"⟩ = [⟨"/b"⟩, ⟨"/c"⟩] := by
    have hedges : (afterAll Sample.relinked).edges ⟨"/a"⟩ = [⟨"/c"⟩, ⟨"/b"⟩] := by
      decide +kernel
    refine hascends.eq_of_mem_iff (by decide +kernel) fun x ↦ ?_
    rw [dependencies_eq, Path.mem_sort, hedges, List.mem_pair, List.mem_pair, or_comm]
  have hdependents : (afterAll Sample.relinked).dependents ⟨"/a"⟩ = [⟨"/b"⟩] := by
    decide +kernel
  exact ⟨hcorrect, g, hg, hdependencies ▸ houtgoing, hdependents ▸ hincoming⟩

end ModuleGraph

end StyleModules
