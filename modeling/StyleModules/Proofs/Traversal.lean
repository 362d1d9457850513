import Mathlib.Data.Set.Card
import StyleModules.Proofs.Edges

/-!
# Walks over files

A walk goes to each file once and from each file on to what it leads to, in order.  With a bounded
number of levels it passes over what it is at when no level is left.  While there are at least as
many levels as files to be found, that does not happen: the walk is a depth-first one, and adds what
can be reached outside of the files it starts with and nothing else.
-/

namespace StyleModules

open Relation

namespace Traversal

variable {next : Path → List Path} {levels : Nat} {tree tree' files files' new new' : List Path}
  {p q x : Path}

/-- A file leads to another one by steps that stay outside of a tree. -/
def Reaches (next : Path → List Path) (tree : List Path) : Path → Path → Prop :=
  ReflTransGen fun p q ↦ q ∈ next p ∧ q.isAmong tree = false

/-- What the files denote that a file leads to outside of a tree. -/
def reached (next : Path → List Path) (tree : List Path) (file : Path) :
    Set (List Path.Component) :=
  Path.components '' {q | Reaches next tree file q}

theorem Reaches.mono (htree : ∀ x : Path, x.isAmong tree = true → x.isAmong tree' = true)
    (h : Reaches next tree' p q) : Reaches next tree p q := by
  refine ReflTransGen.mono (fun _ _ hstep ↦ ⟨hstep.1, ?_⟩) _ _ h
  exact Bool.eq_false_iff.2 fun hmet ↦ Bool.eq_false_iff.1 hstep.2 (htree _ hmet)

theorem Reaches.not_isAmong (hp : p.isAmong tree = false) (h : Reaches next tree p q) :
    q.isAmong tree = false := by
  rcases h.cases_tail with rfl | ⟨r, -, hstep⟩
  · exact hp
  · exact hstep.2

theorem reached_mono (htree : ∀ x : Path, x.isAmong tree = true → x.isAmong tree' = true) :
    reached next tree' p ⊆ reached next tree p :=
  Set.image_mono fun _ h ↦ Reaches.mono htree h

/-- Going on from a file that is in the tree by now, there is less to be reached than from that
file before. -/
theorem encard_reached_lt (htree : ∀ x : Path, x.isAmong tree = true → x.isAmong tree' = true)
    (hp : p.isAmong tree' = true) (hpq : q ∈ next p) (hq : q.isAmong tree' = false) :
    (reached next tree' q).encard + 1 ≤ (reached next tree p).encard := by
  have hfresh : q.isAmong tree = false :=
    Bool.eq_false_iff.2 fun hmet ↦ Bool.eq_false_iff.1 hq (htree q hmet)
  have hnotMem : p.components ∉ reached next tree' q := by
    rintro ⟨r, hr, hsame⟩
    have hrp : r.Same p := hsame
    rw [← hrp.isAmong_eq, Reaches.not_isAmong hq hr] at hp
    exact Bool.false_ne_true hp
  have hsub : insert p.components (reached next tree' q) ⊆ reached next tree p := by
    refine Set.insert_subset ⟨p, ReflTransGen.refl, rfl⟩ ?_
    rintro _ ⟨r, hr, rfl⟩
    exact ⟨r, (Reaches.mono htree hr).head ⟨hpq, hfresh⟩, rfl⟩
  calc (reached next tree' q).encard + 1
      = (insert p.components (reached next tree' q)).encard :=
        (Set.encard_insert_of_notMem hnotMem).symm
    _ ≤ (reached next tree p).encard := Set.encard_le_encard hsub

/-- Files that are closed under going on bound what can be reached from one of them. -/
theorem encard_reached_le (files : List Path)
    (hfiles : ∀ p ∈ files, ∀ q ∈ next p, q.isAmong tree = false → q ∈ files) (hp : p ∈ files) :
    (reached next tree p).encard ≤ files.length := by
  have hsub : reached next tree p ⊆ {cs | cs ∈ files.map Path.components} := by
    rintro _ ⟨q, hq, rfl⟩
    refine List.mem_map_of_mem ?_
    induction hq with
    | refl => exact hp
    | tail _ hstep ih => exact hfiles _ ih _ hstep.1 hstep.2
  calc (reached next tree p).encard
      ≤ {cs | cs ∈ files.map Path.components}.encard := Set.encard_le_encard hsub
    _ ≤ (files.map Path.components).length := by
        rw [← List.coe_toFinset, Set.encard_coe_eq_coe_finsetCard]
        exact_mod_cast List.toFinset_card_le _
    _ = files.length := by rw [List.length_map]

/-! ## Walks with a bounded number of levels -/

/-- What a walk over some files adds to a tree.  A file that was met before is passed over, and so
is every file when no level is left.  Behind any other file stands what is added by going on from
it, with one level less. -/
inductive Walk (next : Path → List Path) : Nat → List Path → List Path → List Path → Prop
  | nil (levels : Nat) (tree : List Path) : Walk next levels tree [] []
  | cut {tree files new : List Path} (file : Path) (rest : Walk next 0 tree files new) :
      Walk next 0 tree (file :: files) new
  | skip {levels : Nat} {tree files new : List Path} {file : Path}
      (met : file.isAmong tree = true) (rest : Walk next (levels + 1) tree files new) :
      Walk next (levels + 1) tree (file :: files) new
  | visit {levels : Nat} {tree files inner new : List Path} {file : Path}
      (fresh : file.isAmong tree = false)
      (inside : Walk next levels (tree ++ [file]) (next file) inner)
      (rest : Walk next (levels + 1) (tree ++ file :: inner) files new) :
      Walk next (levels + 1) tree (file :: files) (file :: inner ++ new)

theorem Walk.append (h : Walk next levels tree files new)
    (h' : Walk next levels (tree ++ new) files' new') :
    Walk next levels tree (files ++ files') (new ++ new') := by
  induction h with
  | nil levels tree => simpa using h'
  | cut file _ ih => exact .cut file (ih h')
  | skip met _ ih => exact .skip met (ih h')
  | @visit levels tree files inner new file fresh inside _ _ ih =>
    have hrest := ih (by simpa using h')
    simpa using Walk.visit fresh inside hrest

/-- What is in the tree when the walk comes back from a file is in the tree at the end. -/
theorem isAmong_of_inside {file : Path} {inner : List Path}
    (h : x.isAmong (tree ++ [file] ++ inner) = true) (new : List Path) :
    x.isAmong (tree ++ (file :: inner ++ new)) = true := by
  have happend : tree ++ (file :: inner ++ new) = tree ++ [file] ++ inner ++ new := by simp
  rw [happend]
  exact Path.isAmong_append_left h new

/-- A walk from one new file adds this file first. -/
theorem Walk.eq_cons (h : Walk next (levels + 1) tree [p] new) (hp : p.isAmong tree = false) :
    ∃ inner, new = p :: inner ∧ Walk next levels (tree ++ [p]) (next p) inner := by
  cases h with
  | skip met rest => exact absurd met (Bool.eq_false_iff.1 hp)
  | @visit _ _ _ inner _ _ fresh inside rest =>
    cases rest
    exact ⟨inner, List.append_nil _, inside⟩

/-- No file is added twice, and none that is in the tree before. -/
theorem Walk.areDistinct (h : Walk next levels tree files new) {kept : List Path}
    (hkept : ∀ x : Path, x.isAmong kept = true → x.isAmong tree = true)
    (hdistinct : Path.AreDistinct kept) : Path.AreDistinct (kept ++ new) := by
  induction h generalizing kept with
  | nil => simpa using hdistinct
  | cut _ _ ih => exact ih hkept hdistinct
  | skip _ _ ih => exact ih hkept hdistinct
  | @visit levels tree files inner new file fresh inside rest ihInside ihRest =>
    have hopened := hdistinct.append_singleton fun hmet ↦
      Bool.eq_false_iff.1 fresh (hkept file hmet)
    have hinner := ihInside (fun x hx ↦ Path.isAmong_append_singleton.2
      ((Path.isAmong_append_singleton.1 hx).imp_left (hkept x))) hopened
    have hclosed : ∀ x : Path, x.isAmong (kept ++ [file] ++ inner) = true →
        x.isAmong (tree ++ file :: inner) = true := by
      intro x hx
      rw [List.append_assoc, Path.isAmong_append, Bool.or_eq_true] at hx
      rw [Path.isAmong_append, Bool.or_eq_true]
      exact hx.imp_left (hkept x)
    simpa using ihRest hclosed hinner

/-- What is added can be reached outside of the tree. -/
theorem Walk.reaches (h : Walk next levels tree files new) :
    ∀ x ∈ new, ∃ f ∈ files, f.isAmong tree = false ∧ Reaches next tree f x := by
  induction h with
  | nil => exact List.forall_mem_nil _
  | cut file _ ih =>
    exact fun x hx ↦ (ih x hx).imp fun f ↦ And.imp_left (List.mem_cons_of_mem file)
  | @skip _ _ _ _ file _ _ ih =>
    exact fun x hx ↦ (ih x hx).imp fun f ↦ And.imp_left (List.mem_cons_of_mem file)
  | @visit levels tree files inner new file fresh inside rest ihInside ihRest =>
    intro x hx
    rcases List.mem_append.1 hx with hx | hx
    · refine ⟨file, List.mem_cons_self, fresh, ?_⟩
      rcases List.mem_cons.1 hx with rfl | hx
      · exact ReflTransGen.refl
      · obtain ⟨f, hf, hfFresh, hreaches⟩ := ihInside x hx
        exact (hreaches.mono fun x hx ↦ Path.isAmong_append_left hx _).head
          ⟨hf, Path.not_isAmong_of_append hfFresh⟩
    · obtain ⟨f, hf, hfFresh, hreaches⟩ := ihRest x hx
      exact ⟨f, List.mem_cons_of_mem file hf, Path.not_isAmong_of_append hfFresh,
        hreaches.mono fun x hx ↦ Path.isAmong_append_left hx _⟩

/-- Whatever is added is one of the files that the walk is over, or another file that was added
leads to it. -/
theorem Walk.mem_next (h : Walk next levels tree files new) :
    ∀ x ∈ new, x ∈ files ∨ ∃ y ∈ new, x ∈ next y := by
  induction h with
  | nil => exact List.forall_mem_nil _
  | cut file _ ih => exact fun x hx ↦ (ih x hx).imp_left (List.mem_cons_of_mem file)
  | @skip _ _ _ _ file _ _ ih => exact fun x hx ↦ (ih x hx).imp_left (List.mem_cons_of_mem file)
  | @visit levels tree files inner new file fresh inside rest ihInside ihRest =>
    intro x hx
    rcases List.mem_append.1 hx with hx | hx
    · rcases List.mem_cons.1 hx with rfl | hx
      · exact .inl List.mem_cons_self
      · rcases ihInside x hx with hfile | ⟨y, hy, hxy⟩
        · exact .inr ⟨file, by simp, hfile⟩
        · exact .inr ⟨y, by simp [hy], hxy⟩
    · rcases ihRest x hx with hfile | ⟨y, hy, hxy⟩
      · exact .inl (List.mem_cons_of_mem file hfile)
      · exact .inr ⟨y, by simp [hy], hxy⟩

/-! ## Depth-first order -/

/-- What a depth-first walk over some files adds to a tree: files that were met before are passed
over, and behind any other file stands all that is added by going on from it. -/
inductive Preorder (next : Path → List Path) : List Path → List Path → List Path → Prop
  | nil (tree : List Path) : Preorder next tree [] []
  | skip {tree files new : List Path} {file : Path} (met : file.isAmong tree = true)
      (rest : Preorder next tree files new) : Preorder next tree (file :: files) new
  | visit {tree files inner new : List Path} {file : Path} (fresh : file.isAmong tree = false)
      (inside : Preorder next (tree ++ [file]) (next file) inner)
      (rest : Preorder next (tree ++ file :: inner) files new) :
      Preorder next tree (file :: files) (file :: inner ++ new)

/-- A walk that has a level for every file that it can reach is depth-first. -/
theorem Walk.preorder (h : Walk next levels tree files new)
    (hbound : ∀ f ∈ files, f.isAmong tree = false → (reached next tree f).encard ≤ levels) :
    Preorder next tree files new := by
  induction h with
  | nil levels tree => exact .nil tree
  | @cut tree files new file _ ih =>
    obtain ⟨hfile, hfiles⟩ := List.forall_mem_cons.1 hbound
    refine .skip ?_ (ih hfiles)
    -- a new file would at least reach itself
    by_contra hfresh
    have hnone := hfile (Bool.eq_false_iff.2 hfresh)
    rw [Nat.cast_zero, nonpos_iff_eq_zero, Set.encard_eq_zero] at hnone
    exact Set.eq_empty_iff_forall_notMem.1 hnone file.components ⟨file, ReflTransGen.refl, rfl⟩
  | skip met _ ih => exact .skip met (ih (List.forall_mem_cons.1 hbound).2)
  | @visit levels tree files inner new file fresh inside rest ihInside ihRest =>
    obtain ⟨hfile, hfiles⟩ := List.forall_mem_cons.1 hbound
    refine .visit fresh (ihInside fun d hd hdFresh ↦ ?_) (ihRest fun f hf hfFresh ↦ ?_)
    · have hlt := encard_reached_lt (fun x hx ↦ Path.isAmong_append_left hx [file])
        (Path.isAmong_append_singleton.2 (.inr rfl)) hd hdFresh
      have hle := hlt.trans (hfile fresh)
      rwa [Nat.cast_add, Nat.cast_one, ENat.add_le_add_iff_right ENat.one_ne_top] at hle
    · have hsub : reached next (tree ++ file :: inner) f ⊆ reached next tree f :=
        reached_mono fun x hx ↦ Path.isAmong_append_left hx (file :: inner)
      exact (Set.encard_le_encard hsub).trans (hfiles f hf (Path.not_isAmong_of_append hfFresh))

/-- A depth-first walk is one with any large enough number of levels. -/
theorem Preorder.exists_walk (h : Preorder next tree files new) :
    ∃ n, ∀ levels, n ≤ levels → Walk next levels tree files new := by
  induction h with
  | nil tree => exact ⟨0, fun levels _ ↦ .nil levels tree⟩
  | skip met _ ih =>
    obtain ⟨n, hn⟩ := ih
    refine ⟨n + 1, fun levels hlevels ↦ ?_⟩
    obtain ⟨levels, rfl⟩ : ∃ l, levels = l + 1 := ⟨levels - 1, by omega⟩
    exact .skip met (hn _ (by omega))
  | visit fresh _ _ ihInside ihRest =>
    obtain ⟨n, hn⟩ := ihInside
    obtain ⟨m, hm⟩ := ihRest
    refine ⟨n + m + 1, fun levels hlevels ↦ ?_⟩
    obtain ⟨levels, rfl⟩ : ∃ l, levels = l + 1 := ⟨levels - 1, by omega⟩
    exact .visit fresh (hn levels (by omega)) (hm (levels + 1) (by omega))

theorem Preorder.reaches (h : Preorder next tree files new) :
    ∀ x ∈ new, ∃ f ∈ files, f.isAmong tree = false ∧ Reaches next tree f x := by
  obtain ⟨n, hn⟩ := h.exists_walk
  exact (hn n (Nat.le_refl n)).reaches

/-- After a depth-first walk the files it is over and those that an added file leads to are in the
tree. -/
theorem Preorder.closed (h : Preorder next tree files new) :
    (∀ f ∈ files, f.isAmong (tree ++ new) = true) ∧
      ∀ x ∈ new, ∀ y ∈ next x, y.isAmong (tree ++ new) = true := by
  induction h with
  | nil => exact ⟨List.forall_mem_nil _, List.forall_mem_nil _⟩
  | skip met _ ih =>
    exact ⟨List.forall_mem_cons.2 ⟨Path.isAmong_append_left met _, ih.1⟩, ih.2⟩
  | @visit tree files inner new file fresh inside rest ihInside ihRest =>
    rw [List.append_assoc] at ihRest
    refine ⟨List.forall_mem_cons.2 ⟨Path.isAmong_of_mem (by simp), ihRest.1⟩, fun x hx y hy ↦ ?_⟩
    rcases List.mem_append.1 hx with hx | hx
    · rcases List.mem_cons.1 hx with rfl | hx
      · exact isAmong_of_inside (ihInside.1 y hy) new
      · exact isAmong_of_inside (ihInside.2 x hx y hy) new
    · exact ihRest.2 x hx y hy

/-- A depth-first walk from a new file adds all that it reaches. -/
theorem Preorder.isAmong_of_reaches (h : Preorder next tree [p] new)
    (hnext : ∀ p q : Path, p.Same q → next p = next q) (hp : p.isAmong tree = false)
    (hq : Reaches next tree p q) : q.isAmong new = true := by
  have hnew : ∀ {x : Path}, x.isAmong (tree ++ new) = true → x.isAmong tree = false →
      x.isAmong new = true := by
    intro x hx hfresh
    rwa [Path.isAmong_append, hfresh, Bool.false_or] at hx
  induction hq with
  | refl => exact hnew (h.closed.1 p (List.mem_singleton_self p)) hp
  | tail _ hstep ih =>
    obtain ⟨x, hx, hsame⟩ := Path.isAmong_iff.1 ih
    exact hnew (h.closed.2 x hx _ (hnext _ _ hsame ▸ hstep.1)) hstep.2

end Traversal

end StyleModules
