import StyleModules.Path
import StyleModules.Resolver
import StyleModules.Options

/-!
# Places

A place is an absolute path in normal form.  Every absolute path is normalized to a place, two
places that denote the same are equal, and what leads from one place to another (joining a
reference, going to the directory, adding an extension) stays among places.
-/

namespace StyleModules.Path

theorem segments_ne_nil (cs : List Char) : segments cs ≠ [] := by
  cases cs with
  | nil => simp [segments]
  | cons c cs =>
    rw [segments]
    split
    · simp
    · split <;> simp

theorem segments_cons_of_ne {c : Char} (h : c ≠ '/') {cs s : List Char} {ss : List (List Char)}
    (hs : segments cs = s :: ss) : segments (c :: cs) = (c :: s) :: ss := by
  rw [segments, if_neg h, hs]

theorem segments_append_slash (as bs : List Char) :
    segments (as ++ '/' :: bs) = segments as ++ segments bs := by
  induction as with
  | nil => simp [segments]
  | cons a as ih =>
    by_cases ha : a = '/'
    · simp [segments, ha, ih]
    · obtain ⟨s, ss, hs⟩ := List.exists_cons_of_ne_nil (segments_ne_nil as)
      have happ : segments (as ++ '/' :: bs) = s :: (ss ++ segments bs) := by
        rw [ih, hs, List.cons_append]
      rw [List.cons_append, segments_cons_of_ne ha happ, segments_cons_of_ne ha hs,
        List.cons_append]

theorem segments_of_not_mem {cs : List Char} (h : '/' ∉ cs) : segments cs = [cs] := by
  induction cs with
  | nil => rfl
  | cons c cs ih =>
    rw [List.mem_cons, not_or] at h
    exact segments_cons_of_ne (Ne.symm h.1) (ih h.2)

theorem not_mem_of_mem_segments {cs s : List Char} (h : s ∈ segments cs) : '/' ∉ s := by
  induction cs generalizing s with
  | nil => simp_all [segments]
  | cons c cs ih =>
    by_cases hc : c = '/'
    · rw [segments, if_pos hc] at h
      rcases List.mem_cons.1 h with rfl | h
      · simp
      · exact ih h
    · obtain ⟨t, ts, ht⟩ := List.exists_cons_of_ne_nil (segments_ne_nil cs)
      rw [segments_cons_of_ne hc ht] at h
      rcases List.mem_cons.1 h with rfl | h
      · rw [List.mem_cons, not_or]
        exact ⟨Ne.symm hc, ih (ht ▸ List.mem_cons_self)⟩
      · exact ih (ht ▸ List.mem_cons_of_mem _ h)

/-- A text that a single segment can spell, other than the two that name no entry. -/
structure IsName (n : String) : Prop where
  ne_empty : n.toList ≠ []
  ne_current : n.toList ≠ ['.']
  ne_parent : n.toList ≠ ['.', '.']
  no_slash : '/' ∉ n.toList

/-- The component is a plain name. -/
def Component.IsNamed (c : Component) : Prop := ∃ n, c = .normal n ∧ IsName n

@[simp]
theorem Component.text_normal (n : String) : (Component.normal n).text = n := rfl

theorem component?_of_isName {n : String} (h : IsName n) :
    component? n.toList = some (.normal n) := by
  simp [component?, h.ne_empty, h.ne_current, h.ne_parent]

theorem component?_eq_some {s : List Char} (hs : '/' ∉ s) {c : Component}
    (h : component? s = some c) : c = .parent ∨ c.IsNamed := by
  unfold component? at h
  split at h
  next => simp at h
  next hne =>
    rw [not_or] at hne
    split at h
    next => exact .inl (Option.some.inj h).symm
    next hp =>
      refine .inr ⟨_, (Option.some.inj h).symm, ?_, ?_, ?_, ?_⟩ <;>
        simp_all [String.toList_ofList]

/-- What follows the root of an absolute path are names and steps upwards. -/
theorem components_of_isAbsolute {p : Path} (h : p.isAbsolute = true) :
    ∃ cs, p.components = .root :: cs ∧ ∀ c ∈ cs, c = .parent ∨ c.IsNamed := by
  obtain ⟨text⟩ := p
  unfold isAbsolute at h
  unfold components componentsOfText
  generalize text.toList = l at h ⊢
  match l with
  | [] => simp at h
  | c :: rest =>
    obtain rfl : c = '/' := by simpa using h
    refine ⟨_, rfl, fun c hc ↦ ?_⟩
    obtain ⟨s, hs, hsc⟩ := List.mem_filterMap.1 hc
    exact component?_eq_some (not_mem_of_mem_segments hs) hsc

/-! ## Normal forms -/

theorem push_name (stack : List Component) (n : String) :
    push stack (.normal n) = .normal n :: stack := by
  rcases stack with _ | ⟨d, rest⟩
  · rfl
  · cases d <;> rfl

theorem foldl_push_named {cs stack : List Component} (h : ∀ c ∈ cs, c.IsNamed) :
    cs.foldl push stack = cs.reverse ++ stack := by
  induction cs generalizing stack with
  | nil => rfl
  | cons c cs ih =>
    obtain ⟨⟨n, rfl, -⟩, hrest⟩ := List.forall_mem_cons.1 h
    rw [List.foldl_cons, push_name, ih hrest]
    simp

/-- Steps upwards never lead above the root. -/
theorem foldl_push_root {cs stack : List Component} (h : ∀ c ∈ cs, c = .parent ∨ c.IsNamed)
    (hstack : ∀ c ∈ stack, c.IsNamed) :
    ∃ names, (∀ c ∈ names, c.IsNamed) ∧ cs.foldl push (stack ++ [.root]) = names ++ [.root] := by
  induction cs generalizing stack with
  | nil => exact ⟨stack, hstack, rfl⟩
  | cons c cs ih =>
    obtain ⟨hc, hrest⟩ := List.forall_mem_cons.1 h
    rw [List.foldl_cons]
    rcases hc with rfl | ⟨n, rfl, hn⟩
    · cases stack with
      | nil => exact ih hrest hstack
      | cons d stack =>
        obtain ⟨⟨m, rfl, -⟩, htail⟩ := List.forall_mem_cons.1 hstack
        exact ih hrest htail
    · rw [push_name, ← List.cons_append]
      exact ih hrest (List.forall_mem_cons.2 ⟨⟨n, rfl, hn⟩, hstack⟩)

theorem fold_named {cs : List Component} (h : ∀ c ∈ cs, c.IsNamed) :
    fold (.root :: cs) = .root :: cs := by
  rw [fold, List.foldl_cons]
  change (cs.foldl push [.root]).reverse = _
  simp [foldl_push_named h]

theorem fold_of_isAbsolute {p : Path} (h : p.isAbsolute = true) :
    ∃ cs, (∀ c ∈ cs, c.IsNamed) ∧ fold p.components = .root :: cs := by
  obtain ⟨cs, hcs, hall⟩ := components_of_isAbsolute h
  obtain ⟨names, hnames, hfold⟩ := foldl_push_root hall (List.forall_mem_nil _)
  refine ⟨names.reverse, by simpa using hnames, ?_⟩
  rw [hcs, fold, List.foldl_cons]
  change (cs.foldl push ([] ++ [.root])).reverse = _
  rw [hfold]
  simp

theorem Component.IsNamed.no_slash {c : Component} (h : c.IsNamed) : '/' ∉ c.text.toList := by
  obtain ⟨n, rfl, hn⟩ := h
  exact hn.no_slash

/-- The names of a slashed text are the segments of that text. -/
theorem segments_joinNames {cs : List Component} (h : ∀ c ∈ cs, '/' ∉ c.text.toList)
    (hne : cs ≠ []) : segments (joinNames cs).toList = cs.map (fun c ↦ c.text.toList) := by
  induction cs with
  | nil => exact absurd rfl hne
  | cons c cs ih =>
    obtain ⟨hc, hrest⟩ := List.forall_mem_cons.1 h
    cases cs with
    | nil => simpa [joinNames] using segments_of_not_mem hc
    | cons d cs =>
      rw [joinNames, String.toList_append, String.toList_append]
      · have hslash : "/".toList = ['/'] := rfl
        rw [hslash, List.append_assoc, List.cons_append, List.nil_append,
          segments_append_slash, segments_of_not_mem hc, ih hrest (by simp)]
        rfl
      · simp

theorem filterMap_component?_named {cs : List Component} (h : ∀ c ∈ cs, c.IsNamed) :
    (cs.map (fun c ↦ c.text.toList)).filterMap component? = cs := by
  induction cs with
  | nil => rfl
  | cons c cs ih =>
    obtain ⟨⟨n, rfl, hn⟩, hrest⟩ := List.forall_mem_cons.1 h
    rw [List.map_cons, Component.text_normal,
      List.filterMap_cons_some (component?_of_isName hn), ih hrest]

theorem toList_ofComponents_root (cs : List Component) :
    (ofComponents (.root :: cs)).text.toList = '/' :: (joinNames cs).toList := by
  rw [ofComponents, String.toList_append]
  rfl

theorem components_ofComponents {cs : List Component} (h : ∀ c ∈ cs, c.IsNamed) :
    (ofComponents (.root :: cs)).components = .root :: cs := by
  rw [components, toList_ofComponents_root, componentsOfText]
  cases cs with
  | nil => rfl
  | cons c cs =>
    rw [segments_joinNames (fun c hc ↦ (h c hc).no_slash) (by simp), filterMap_component?_named h]

/-- An absolute path in normal form. -/
def IsPlace (p : Path) : Prop :=
  ∃ cs, (∀ c ∈ cs, Component.IsNamed c) ∧ p = ofComponents (.root :: cs)

theorem isEmpty_text_of_isAbsolute {p : Path} (h : p.isAbsolute = true) :
    p.text.isEmpty = false := by
  rw [Bool.eq_false_iff]
  intro hempty
  unfold isAbsolute at h
  simp_all

theorem isPlace_normalize {p : Path} (h : p.isAbsolute = true) : p.normalize.IsPlace := by
  obtain ⟨cs, hcs, hfold⟩ := fold_of_isAbsolute h
  exact ⟨cs, hcs, by rw [normalize, hfold]; rfl⟩

namespace IsPlace

variable {p q : Path}

theorem isAbsolute (h : p.IsPlace) : p.isAbsolute = true := by
  obtain ⟨cs, -, rfl⟩ := h
  rw [Path.isAbsolute, toList_ofComponents_root]
  rfl

theorem normalize_eq (h : p.IsPlace) : p.normalize = p := by
  obtain ⟨cs, hcs, rfl⟩ := h
  rw [normalize, components_ofComponents hcs, fold_named hcs]
  rfl

/-- Places that denote the same are equal. -/
theorem eq_of_components (hp : p.IsPlace) (hq : q.IsPlace) (h : p.components = q.components) :
    p = q := by
  rw [← hp.normalize_eq, ← hq.normalize_eq, normalize, normalize, h]

end IsPlace

/-- The places are the absolute paths that normalizing leaves as they are. -/
theorem isPlace_iff {p : Path} : p.IsPlace ↔ p.isAbsolute = true ∧ p.normalize = p :=
  ⟨fun h ↦ ⟨h.isAbsolute, h.normalize_eq⟩, fun h ↦ h.2 ▸ isPlace_normalize h.1⟩

instance (p : Path) : Decidable p.IsPlace := decidable_of_iff _ isPlace_iff.symm

theorem join_of_isAbsolute {p q : Path} (h : q.isAbsolute = true) : p.join q = q := by
  simp [join, h]

theorem isAbsolute_join {p q : Path} (h : p.isAbsolute = true) : (p.join q).isAbsolute = true := by
  have hp : p.text.toList.head? = some '/' := by simpa [isAbsolute] using h
  unfold join
  split
  next hq =>
    rw [Bool.or_eq_true] at hq
    rcases hq with hq | hq
    · exact hq
    · have hnil : p.text = "" := by simpa using hq
      simp [hnil] at hp
  next =>
    split
    · simp [isAbsolute, String.toList_append, hp]
    · simp [isAbsolute, String.toList_append, hp]

/-! ## Moving between places -/

theorem joinNames_append {cs : List Component} (hne : cs ≠ []) (c : Component) :
    joinNames (cs ++ [c]) = joinNames cs ++ "/" ++ c.text := by
  induction cs with
  | nil => exact absurd rfl hne
  | cons d cs ih =>
    cases cs with
    | nil => simp [joinNames]
    | cons e cs =>
      have hcons : ∀ es : List Component,
          joinNames (d :: e :: es) = d.text ++ "/" ++ joinNames (e :: es) := fun _ ↦ rfl
      have hrest := ih (by simp)
      rw [List.cons_append] at hrest
      rw [List.cons_append, List.cons_append, hcons, hcons, hrest]
      simp [String.append_assoc]

theorem joinNames_append_text (cs : List Component) (n s : String) :
    joinNames (cs ++ [.normal (n ++ s)]) = joinNames (cs ++ [.normal n]) ++ s := by
  cases cs with
  | nil => rfl
  | cons c cs =>
    rw [joinNames_append (by simp), joinNames_append (by simp)]
    simp [String.append_assoc]

theorem IsName.append {n s : String} (hn : IsName n) (hs : '/' ∉ s.toList)
    (hlong : 2 ≤ s.toList.length) : IsName (n ++ s) := by
  have hpos : 0 < n.toList.length := List.length_pos_iff.2 hn.ne_empty
  have hlen : 3 ≤ (n ++ s).toList.length := by
    rw [String.toList_append, List.length_append]
    omega
  refine ⟨?_, ?_, ?_, ?_⟩
  · intro h
    simp [h] at hlen
  · intro h
    simp [h] at hlen
  · intro h
    simp [h] at hlen
  · simpa using ⟨hn.no_slash, hs⟩

theorem isPlace_ofComponents {cs : List Component} (h : ∀ c ∈ cs, c.IsNamed) :
    (ofComponents (.root :: cs)).IsPlace := ⟨cs, h, rfl⟩

namespace IsPlace

variable {p : Path}

/-- The directory of a place is a place. -/
theorem parent? (h : p.IsPlace) {d : Path} (hd : p.parent? = some d) : d.IsPlace := by
  obtain ⟨cs, hcs, rfl⟩ := h
  rw [Path.parent?, components_ofComponents hcs] at hd
  rcases List.eq_nil_or_concat cs with rfl | ⟨init, c, rfl⟩
  · simp at hd
  · rw [List.concat_eq_append] at hcs hd
    obtain ⟨n, rfl, -⟩ := hcs c (by simp)
    have hrev : (Component.root :: (init ++ [.normal n])).reverse =
        .normal n :: (.root :: init).reverse := by simp
    rw [hrev] at hd
    simp only [List.reverse_reverse, Option.some.injEq] at hd
    rw [← hd]
    exact isPlace_ofComponents fun c hc ↦ hcs c (by simp [hc])

/-- Only the root has no directory. -/
theorem parent?_isSome (h : p.IsPlace) (hp : p ≠ ⟨"/"⟩) : p.parent?.isSome = true := by
  obtain ⟨cs, hcs, rfl⟩ := h
  rw [Path.parent?, components_ofComponents hcs]
  rcases List.eq_nil_or_concat cs with rfl | ⟨init, c, rfl⟩
  · exact absurd rfl hp
  · rw [List.concat_eq_append] at hcs ⊢
    obtain ⟨n, rfl, -⟩ := hcs c (by simp)
    have hrev : (Component.root :: (init ++ [.normal n])).reverse =
        .normal n :: (.root :: init).reverse := by simp
    rw [hrev]
    rfl

theorem addExtension (h : p.IsPlace) {e : String} (he : '/' ∉ e.toList) (hne : e.toList ≠ []) :
    (p.addExtension e).IsPlace := by
  obtain ⟨cs, hcs, rfl⟩ := h
  rw [Path.addExtension, fileName?, components_ofComponents hcs]
  rcases List.eq_nil_or_concat cs with rfl | ⟨init, c, rfl⟩
  · exact isPlace_ofComponents hcs
  · rw [List.concat_eq_append] at hcs ⊢
    obtain ⟨n, rfl, hn⟩ := hcs c (by simp)
    have hlast : (Component.root :: (init ++ [.normal n])).getLast? = some (.normal n) := by
      rw [← List.cons_append, List.getLast?_concat]
    have hempty : e.isEmpty = false := by
      rw [Bool.eq_false_iff]
      intro h
      simp_all
    have htext : Path.mk ((ofComponents (.root :: (init ++ [.normal n]))).text ++ "." ++ e) =
        ofComponents (.root :: (init ++ [.normal (n ++ ("." ++ e))])) := by
      simp [ofComponents, joinNames_append_text, String.append_assoc]
    rw [hlast]
    simp only [hempty, Bool.false_eq_true, if_false]
    refine ⟨init ++ [.normal (n ++ ("." ++ e))], ?_, htext⟩
    intro c hc
    rcases List.mem_append.1 hc with hc | hc
    · exact hcs c (by simp [hc])
    · obtain rfl := List.mem_singleton.1 hc
      have hlong : 0 < e.toList.length := List.length_pos_iff.2 hne
      refine ⟨_, rfl, hn.append ?_ ?_⟩
      · simpa [String.toList_append] using he
      · rw [String.toList_append, List.length_append]
        change 2 ≤ 1 + _
        omega

/-- Following a name from a place. -/
theorem join_name {cs : List Component} (h : ∀ c ∈ cs, c.IsNamed) {n : String} (hn : IsName n) :
    (ofComponents (.root :: cs)).join ⟨n⟩ = ofComponents (.root :: (cs ++ [.normal n])) := by
  have hrel : Path.isAbsolute ⟨n⟩ = false := by
    rw [Path.isAbsolute, beq_eq_false_iff_ne]
    intro hhead
    exact hn.no_slash (List.mem_of_head? hhead)
  have hne : (ofComponents (.root :: cs)).text.isEmpty = false :=
    isEmpty_text_of_isAbsolute (by rw [Path.isAbsolute, toList_ofComponents_root]; rfl)
  rw [join, hrel, hne]
  rcases List.eq_nil_or_concat cs with rfl | ⟨init, c, rfl⟩
  · rfl
  · rw [List.concat_eq_append] at h ⊢
    obtain ⟨m, rfl, hm⟩ := h c (by simp)
    have hlast : (ofComponents (.root :: (init ++ [.normal m]))).text.toList.getLast? ≠
        some '/' := by
      obtain ⟨ms, x, hx⟩ := List.eq_nil_or_concat m.toList |>.resolve_left hm.ne_empty
      have hxm : x ∈ m.toList := by simp [hx]
      have hpre : joinNames (init ++ [.normal m]) = joinNames (init ++ [.normal ""]) ++ m := by
        rw [← joinNames_append_text, String.empty_append]
      rw [toList_ofComponents_root, hpre, String.toList_append, hx, List.concat_eq_append,
        ← List.append_assoc, ← List.cons_append, List.getLast?_concat]
      intro heq
      exact hm.no_slash (Option.some.inj heq ▸ hxm)
    have hsucc : joinNames (init ++ [.normal m] ++ [.normal n]) =
        joinNames (init ++ [.normal m]) ++ "/" ++ n := joinNames_append (by simp) _
    rw [if_neg (by simp), if_neg (by simpa using hlast), ofComponents, ofComponents, hsucc]
    simp [String.append_assoc]

end IsPlace

/-! ## File names -/

/-- Normalizing keeps the name of a file. -/
theorem fileName?_normalize {p : Path} (h : p.isAbsolute = true) {n : String}
    (hn : p.fileName? = some n) : p.normalize.fileName? = some n := by
  have hlast : p.components.getLast? = some (.normal n) := by
    unfold fileName? at hn
    split at hn <;> simp_all
  obtain ⟨init, hinit⟩ := List.getLast?_eq_some_iff.1 hlast
  obtain ⟨cs, hcs, hfold⟩ := fold_of_isAbsolute h
  have hcomponents : p.normalize.components = fold p.components := by
    rw [normalize, hfold]
    exact components_ofComponents hcs
  have hfoldLast : fold p.components = fold init ++ [.normal n] := by
    rw [hinit, fold, List.foldl_append, List.foldl_cons, List.foldl_nil, push_name,
      List.reverse_cons, fold]
  rw [fileName?, hcomponents, hfoldLast, List.getLast?_concat]

/-- A path that goes on behind a slash adds the components of what follows. -/
theorem componentsOfText_append_slash (l : List Char) : ∃ above, ∀ m : List Char,
    componentsOfText (l ++ '/' :: m) = above ++ (segments m).filterMap component? := by
  cases l with
  | nil => exact ⟨[.root], fun m ↦ rfl⟩
  | cons c l =>
    by_cases hc : c = '/'
    · subst hc
      refine ⟨.root :: (segments l).filterMap component?, fun m ↦ ?_⟩
      rw [List.cons_append, componentsOfText, segments_append_slash, List.filterMap_append]
      rfl
    · obtain ⟨s, ss, hs⟩ := List.exists_cons_of_ne_nil (segments_ne_nil (c :: l))
      have hall : ∀ m, segments (c :: l ++ '/' :: m) = s :: (ss ++ segments m) := by
        intro m
        rw [segments_append_slash, hs, List.cons_append]
      by_cases hdot : s = ['.']
      · refine ⟨.current :: ss.filterMap component?, fun m ↦ ?_⟩
        unfold componentsOfText
        split
        next heq => exact absurd (List.cons.inj heq).1 hc
        next =>
          rw [hall, hdot, List.cons_append, ← List.filterMap_append]
          rfl
      · refine ⟨(s :: ss).filterMap component?, fun m ↦ ?_⟩
        unfold componentsOfText
        split
        next heq => exact absurd (List.cons.inj heq).1 hc
        next =>
          rw [hall, ← List.filterMap_append, List.cons_append]
          split
          next heq => exact absurd (List.cons.inj heq).1 hdot
          next => rfl

/-- The names that a relative path adds when it is followed from a directory. -/
theorem components_join {root : Path} (hroot : root.text.isEmpty = false) : ∃ above, ∀ p : Path,
    p.isAbsolute = false →
      (root.join p).components = above ++ (segments p.text.toList).filterMap component? := by
  -- in both cases the text of the joined path has a slash in front of what is added
  obtain ⟨l, hl⟩ : ∃ l, ∀ p : Path, p.isAbsolute = false →
      (root.join p).text.toList = l ++ '/' :: p.text.toList := by
    by_cases hlast : root.text.toList.getLast? = some '/'
    · obtain ⟨l, hl⟩ := List.getLast?_eq_some_iff.1 hlast
      exact ⟨l, fun p hp ↦ by simp [join, hp, hroot, String.toList_append, hl]⟩
    · exact ⟨root.text.toList, fun p hp ↦ by
        simp [join, hp, hroot, hlast, String.toList_append]⟩
  obtain ⟨above, habove⟩ := componentsOfText_append_slash l
  exact ⟨above, fun p hp ↦ by rw [components, hl p hp, habove]⟩

theorem fileName?_join {root p : Path} (hroot : root.isAbsolute = true) {n : String}
    (hn : p.fileName? = some n) : (root.join p).fileName? = some n := by
  cases hp : p.isAbsolute with
  | true => rw [join_of_isAbsolute hp, hn]
  | false =>
    obtain ⟨above, habove⟩ := components_join (isEmpty_text_of_isAbsolute hroot)
    have hlast : p.components.getLast? = some (.normal n) := by
      unfold fileName? at hn
      split at hn <;> simp_all
    have hinner : ((segments p.text.toList).filterMap component?).getLast? =
        some (.normal n) := by
      unfold components componentsOfText at hlast
      split at hlast
      next rest heq => simp [isAbsolute, heq] at hp
      next =>
        split at hlast
        next rest heq =>
          rw [heq, List.filterMap_cons_none (by rfl)]
          rcases hrest : rest.filterMap component? with _ | ⟨c, cs⟩
          · simp [hrest] at hlast
          · simpa [hrest] using hlast
        next => exact hlast
    rw [fileName?, habove p hp, List.getLast?_append, hinner]
    rfl

end StyleModules.Path

namespace StyleModules

open StyleModules.Path

/-- A file belongs to the project under its place too. -/
theorem Options.handles_place {o : Options} {root p : Path} (hroot : root.isAbsolute = true)
    (h : o.handles p = true) : o.handles (root.join p).normalize = true := by
  have hname : ∃ n, p.fileName? = some n := by
    unfold Options.handles Path.extension? at h
    cases hp : p.fileName? with
    | none => simp [hp] at h
    | some n => exact ⟨n, rfl⟩
  obtain ⟨n, hn⟩ := hname
  have hplace := fileName?_normalize (isAbsolute_join hroot) (fileName?_join hroot hn)
  have hext : (root.join p).normalize.extension? = p.extension? := by
    rw [Path.extension?, Path.extension?, hplace, hn]
  rwa [Options.handles, hext]

theorem ResolveOptions.isPlace_complete {p : Path} (h : p.IsPlace) (isDirectory : Bool) :
    ((ResolveOptions.stylesheet isDirectory).complete p).IsPlace := by
  unfold ResolveOptions.complete
  split
  next extension hext _ =>
    obtain rfl : ResolveOptions.stylesheetExtension = extension := Option.some.inj hext
    exact h.addExtension (by decide) (by decide)
  next => exact h

/-- All directories behind namespaces are absolute. -/
def PathResolver.AreAbsolute (namespaces : Table String Path) : Prop :=
  ∀ name d, namespaces.get? name = some d → d.isAbsolute = true

/-- The resolver for namespaces whose directories are absolute. -/
def PathResolver.IsNamespaced (r : PathResolver) : Prop :=
  ∃ namespaces, AreAbsolute namespaces ∧ r = ofNamespaces namespaces

theorem PathResolver.isPlace_target? {namespaces : Table String Path}
    (hns : AreAbsolute namespaces) {reference : String} {source t : Path} {options : ResolveOptions}
    (hsource : ∀ d, options.directory? source = some d → d.isAbsolute = true)
    (h : target? namespaces reference source options = some t) : t.IsPlace := by
  unfold target? at h
  split at h
  next name inside _ =>
    obtain ⟨d, hd, rfl⟩ := Option.map_eq_some_iff.1 h
    exact isPlace_normalize (isAbsolute_join (hns name d hd))
  next =>
    obtain ⟨d, hd, rfl⟩ := Option.map_eq_some_iff.1 h
    exact isPlace_normalize (isAbsolute_join (hsource d hd))

theorem PathResolver.isPlace_absoluteIn {namespaces : Table String Path}
    (hns : AreAbsolute namespaces) {reference : String} {source q : Path} {isDirectory : Bool}
    (hsource : ∀ d, (ResolveOptions.stylesheet isDirectory).directory? source = some d →
      d.isAbsolute = true)
    (h : absoluteIn namespaces reference source (.stylesheet isDirectory) = some q) :
    q.IsPlace := by
  unfold absoluteIn at h
  split at h
  · simp at h
  · obtain ⟨t, ht, rfl⟩ := Option.map_eq_some_iff.1 h
    exact ResolveOptions.isPlace_complete (isPlace_target? hns hsource ht) isDirectory

theorem PathResolver.IsNamespaced.isPlace {r : PathResolver} (hr : r.IsNamespaced)
    {reference : String} {source q : Path} {isDirectory : Bool} (hsource : source.IsPlace)
    (h : r.absolute reference source (.stylesheet isDirectory) = some q) : q.IsPlace := by
  obtain ⟨namespaces, hns, rfl⟩ := hr
  refine isPlace_absoluteIn hns (fun d hd ↦ ?_) h
  cases isDirectory with
  | true =>
    obtain rfl : source = d := Option.some.inj hd
    exact hsource.isAbsolute
  | false => exact (hsource.parent? hd).isAbsolute

end StyleModules
