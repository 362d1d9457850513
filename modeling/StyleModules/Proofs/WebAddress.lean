import Mathlib.Data.List.Induction
import Mathlib.Data.List.TakeWhile
import StyleModules.Proofs.Place

/-!
# Addresses as a browser reads them

The path of an address lies between its host and the first question mark or hash.  Before a browser
asks for an address, it resolves the dot segments of this path: two dots take away the name in front
of them, and lead above the beginning of the path only if the path is relative.  So an address that
is put together from two parts does not always lead below the first one.  It does if the second part
descends again into all that it has climbed out of.
-/

namespace StyleModules

namespace WebAddress

variable {text rest place ending : List Char} {names ss : List (List Char)}

/-! ## The parts of an address -/

/-- The path of an address ends at a question mark or a hash. -/
def isMark (c : Char) : Bool := c == '?' || c == '#'

/-- The beginning of a text up to its first mark. -/
def untilMark (text : List Char) : List Char := text.takeWhile fun c ↦ !isMark c

def fromMark (text : List Char) : List Char := text.dropWhile fun c ↦ !isMark c

def isHostChar (c : Char) : Bool := c != '/' && !isMark c

/-- What stands in front of the two slashes of a host: a scheme with its colon, or nothing. -/
def announcesHost : List Char → Bool
  | [] => true
  | c :: cs => c.isAlpha && cs.getLast? == some ':' &&
    cs.dropLast.all fun d ↦ d.isAlphanum || d == '+' || d == '-' || d == '.'

/-- An address up to the end of its host, and what follows. -/
def splitHost (text : List Char) : List Char × List Char :=
  let before := text.takeWhile isHostChar
  match text.dropWhile isHostChar with
  | '/' :: '/' :: rest =>
    if announcesHost before then
      (before ++ '/' :: '/' :: rest.takeWhile isHostChar, rest.dropWhile isHostChar)
    else ([], text)
  | _ => ([], text)

/-- The scheme and the host of an address, if it has a host. -/
def host (text : List Char) : List Char := (splitHost text).1

def path (text : List Char) : List Char := untilMark (splitHost text).2

def query (text : List Char) : List Char := fromMark (splitHost text).2

theorem untilMark_append_fromMark (text : List Char) : untilMark text ++ fromMark text = text :=
  List.takeWhile_append_dropWhile

theorem not_isMark_of_mem_untilMark {c : Char} (h : c ∈ untilMark text) : isMark c = false := by
  simpa using List.mem_takeWhile_imp h

theorem isMark_of_head?_fromMark {c : Char} (h : (fromMark text).head? = some c) :
    isMark c = true := by
  have hhead := List.head?_dropWhile_not (fun c ↦ !isMark c) text
  rw [fromMark] at h
  simpa [h] using hhead

/-- A text without marks can be put in front. -/
theorem untilMark_append (h : fromMark text = []) (rest : List Char) :
    untilMark (text ++ rest) = text ++ untilMark rest ∧ fromMark (text ++ rest) = fromMark rest := by
  have hplain : ∀ c ∈ text, (!isMark c) = true := List.dropWhile_eq_nil_iff.1 h
  exact ⟨List.takeWhile_append_of_pos hplain, List.dropWhile_append_of_pos hplain⟩

/-- The first mark stays the first one whatever follows. -/
theorem untilMark_append_of_fromMark (h : fromMark text ≠ []) (rest : List Char) :
    untilMark (text ++ rest) = untilMark text ∧
      fromMark (text ++ rest) = fromMark text ++ rest := by
  induction text with
  | nil => exact absurd rfl h
  | cons c text ih =>
    cases hc : isMark c with
    | true => simp [untilMark, fromMark, hc]
    | false =>
      have hrest := ih (by simpa [fromMark, hc] using h)
      simpa [untilMark, fromMark, hc] using hrest

theorem takeWhile_append_slash (text rest : List Char) :
    (text ++ '/' :: rest).takeWhile isHostChar = text.takeWhile isHostChar ∧
      (text ++ '/' :: rest).dropWhile isHostChar = text.dropWhile isHostChar ++ '/' :: rest := by
  induction text with
  | nil => exact ⟨rfl, rfl⟩
  | cons c text ih =>
    cases hc : isHostChar c with
    | true => simpa [hc] using ih
    | false => simp [hc]

theorem splitHost_of_not_slashes (h : ¬ ['/', '/'] <+: text.dropWhile isHostChar) :
    splitHost text = ([], text) := by
  unfold splitHost
  split
  next tail heq => exact absurd (heq ▸ ⟨tail, rfl⟩) h
  next => rfl

/-- Where the host ends does not depend on what follows a slash, unless that adds to a slash in front
of it. -/
theorem splitHost_append_slash (hend : text.getLast? ≠ some '/') (hstart : rest.head? ≠ some '/') :
    splitHost (text ++ '/' :: rest) = (host text, (splitHost text).2 ++ '/' :: rest) := by
  obtain ⟨hbefore, hbehind⟩ := takeWhile_append_slash text rest
  by_cases hslashes : ['/', '/'] <+: text.dropWhile isHostChar
  · obtain ⟨tail, htail⟩ := hslashes
    rw [List.cons_append, List.cons_append, List.nil_append] at htail
    obtain ⟨hname, hpath⟩ := takeWhile_append_slash tail rest
    unfold host splitHost
    simp only [hbefore, hbehind, ← htail, List.cons_append, hname, hpath]
    cases announcesHost (text.takeWhile isHostChar) <;> rfl
  · have hlast : text.dropWhile isHostChar ≠ ['/'] := by
      intro hslash
      refine hend ?_
      rw [← List.takeWhile_append_dropWhile (p := isHostChar) (l := text), hslash,
        List.getLast?_concat]
    have hlonger : ¬ ['/', '/'] <+: text.dropWhile isHostChar ++ '/' :: rest := by
      rintro ⟨tail, htail⟩
      generalize text.dropWhile isHostChar = behind at htail hslashes hlast
      match behind with
      | [] =>
        obtain ⟨-, rfl⟩ := List.cons.inj htail
        exact hstart rfl
      | [c] =>
        obtain ⟨rfl, -⟩ := List.cons.inj htail
        exact hlast rfl
      | c :: d :: behind =>
        obtain ⟨rfl, hd⟩ := List.cons.inj htail
        obtain ⟨rfl, -⟩ := List.cons.inj hd
        exact hslashes ⟨behind, rfl⟩
    rw [host, splitHost_of_not_slashes hslashes, splitHost_of_not_slashes (hbehind ▸ hlonger)]

/-! ## Dot segments -/

/-- One dot, which leads nowhere, or two dots, which lead back. -/
def IsDots (s : List Char) : Prop := s = ['.'] ∨ s = ['.', '.']

instance (s : List Char) : Decidable (IsDots s) :=
  inferInstanceAs (Decidable (s = ['.'] ∨ s = ['.', '.']))

/-- Where segments lead: first upwards, and then through names. -/
structure Way where
  climbs : Nat
  names : List (List Char)
deriving DecidableEq

namespace Way

variable {v w : Way} {s : List Char}

def through (names : List (List Char)) : Way := ⟨0, names⟩

/-- Two dots take away the last name, and climb if there is none. -/
def step (w : Way) (s : List Char) : Way :=
  if s = ['.'] then w
  else if s = ['.', '.'] then
    if w.names = [] then ⟨w.climbs + 1, []⟩ else ⟨w.climbs, w.names.dropLast⟩
  else ⟨w.climbs, w.names ++ [s]⟩

def follow (ss : List (List Char)) : Way := ss.foldl step (through [])

def append (v w : Way) : Way where
  climbs := v.climbs + (w.climbs - v.names.length)
  names := v.names.take (v.names.length - w.climbs) ++ w.names

theorem step_of_not_isDots (w : Way) (hs : ¬ IsDots s) : w.step s = ⟨w.climbs, w.names ++ [s]⟩ := by
  rw [IsDots, not_or] at hs
  rw [step, if_neg hs.1, if_neg hs.2]

theorem step_parent (w : Way) : w.step ['.', '.'] =
    ⟨w.climbs + (1 - w.names.length), w.names.take (w.names.length - 1)⟩ := by
  rw [step, if_neg (by decide), if_pos rfl]
  split
  next hnone => simp [hnone]
  next hsome =>
    have hlength : 1 - w.names.length = 0 :=
      Nat.sub_eq_zero_of_le (List.length_pos_iff.2 hsome)
    rw [hlength, List.dropLast_eq_take, Nat.add_zero]

theorem append_through_nil (v : Way) : v.append (through []) = v := by
  simp [append, through]

/-- The dots that end the second of two ways take a name away from it, or else from the first. -/
theorem append_step_parent (v w : Way) :
    (v.append w).step ['.', '.'] = v.append (w.step ['.', '.']) := by
  have hlength : (v.append w).names.length = (v.names.length - w.climbs) + w.names.length := by
    rw [append, List.length_append, List.length_take_of_le (Nat.sub_le _ _)]
  rw [step_parent, step_parent, hlength]
  simp only [append, Way.mk.injEq]
  constructor
  · omega
  · rw [List.take_append, List.take_take, List.length_take_of_le (Nat.sub_le _ _)]
    congr 2 <;> omega

theorem append_step (v w : Way) (s : List Char) : (v.append w).step s = v.append (w.step s) := by
  by_cases hs : IsDots s
  · rcases hs with rfl | rfl
    · rfl
    · exact append_step_parent v w
  · rw [step_of_not_isDots _ hs, step_of_not_isDots _ hs]
    simp only [append, List.append_assoc]

theorem follow_concat (ss : List (List Char)) (s : List Char) :
    follow (ss ++ [s]) = (follow ss).step s :=
  List.foldl_append

/-- Following segments from a place goes on from there. -/
theorem foldl_step (v : Way) (ss : List (List Char)) : ss.foldl step v = v.append (follow ss) := by
  induction ss using List.reverseRecOn with
  | nil => exact (append_through_nil v).symm
  | append_singleton ss s ih =>
    rw [follow_concat, ← append_step, ← ih]
    exact List.foldl_append

theorem follow_append (ss ss' : List (List Char)) :
    follow (ss ++ ss') = (follow ss).append (follow ss') := by
  rw [follow, List.foldl_append, foldl_step]
  rfl

theorem follow_eq_through (h : ∀ s ∈ names, ¬ IsDots s) : follow names = through names := by
  induction names using List.reverseRecOn with
  | nil => rfl
  | append_singleton names s ih =>
    obtain ⟨hnames, hs⟩ := List.forall_mem_append.1 h
    rw [follow_concat, ih hnames, step_of_not_isDots _ (hs s (List.mem_singleton_self s))]
    rfl

/-- A way leads through segments only. -/
theorem mem_of_mem_names_follow (h : s ∈ (follow ss).names) : s ∈ ss := by
  induction ss using List.reverseRecOn with
  | nil => exact h
  | append_singleton ss t ih =>
    rw [follow_concat] at h
    rw [List.mem_append]
    by_cases ht : IsDots t
    · rcases ht with rfl | rfl
      · exact .inl (ih h)
      · rw [step_parent] at h
        exact .inl (ih (List.mem_of_mem_take h))
    · rw [step_of_not_isDots _ ht] at h
      exact (List.mem_append.1 h).imp_left ih

end Way

/-- The segments of a path.  Behind dots at the end there is an empty name, since they lead to a
directory. -/
def route (path : List Char) : List (List Char) :=
  let ss := path.splitOn '/'
  if ss.getLast?.any fun s ↦ IsDots s then ss ++ [[]] else ss

/-- The segments to write for a relative way, which must not look like an absolute one. -/
def relativeSegments : Way → List (List Char)
  | ⟨0, [] :: names⟩ => ['.'] :: [] :: names
  | w => List.replicate w.climbs ['.', '.'] ++ w.names

def resolvePath : List Char → List Char
  | [] => []
  | '/' :: rest => '/' :: ['/'].intercalate (Way.follow (route rest)).names
  | path => ['/'].intercalate (relativeSegments (Way.follow (route path)))

/-- The address that a browser makes of an address.  Only its path changes. -/
def resolve (address : String) : String :=
  let text := address.toList
  String.ofList (host text ++ (resolvePath (path text) ++ query text))

/-- An address is another one or lies below it. -/
def IsAtOrBelow (place address : String) : Prop :=
  address = place ∨ address.startsWith (place ++ "/") = true

instance (place address : String) : Decidable (IsAtOrBelow place address) :=
  inferInstanceAs (Decidable (address = place ∨ address.startsWith (place ++ "/") = true))

/-- The path does not depend on the page it is written in, also if something is added to it. -/
def isRooted (path : List Char) : Bool := path.isEmpty || path.head? == some '/'

def namesIn : List Char → List (List Char)
  | [] => []
  | '/' :: rest => rest.splitOn '/'
  | path => path.splitOn '/'

theorem segments_eq_splitOn (text : List Char) : Path.segments text = text.splitOn '/' := by
  induction text with
  | nil => rfl
  | cons c text ih =>
    rw [List.splitOn_cons_eq_if_modifyHead, Path.segments, ih]
    by_cases hc : c = '/'
    · rw [if_pos hc, if_pos (beq_iff_eq.2 hc)]
    · rw [if_neg hc, if_neg (by simpa using hc)]
      cases hs : text.splitOn '/' with
      | nil => exact absurd hs (List.splitOn_ne_nil _ _)
      | cons s ss => rfl

theorem not_mem_of_mem_splitOn {s : List Char} (h : s ∈ text.splitOn '/') : '/' ∉ s :=
  Path.not_mem_of_mem_segments (segments_eq_splitOn text ▸ h)

theorem exists_last_segment (text : List Char) : ∃ ss s, text.splitOn '/' = ss ++ [s] := by
  obtain ⟨ss, s, hsplit⟩ := (List.eq_nil_or_concat (text.splitOn '/')).resolve_left
    (List.splitOn_ne_nil _ _)
  exact ⟨ss, s, hsplit.trans List.concat_eq_append⟩

/-- The last segment of a route is no dots. -/
theorem names_follow_route_ne_nil (text : List Char) : (Way.follow (route text)).names ≠ [] := by
  obtain ⟨ss, s, hroute, hs⟩ : ∃ ss s, route text = ss ++ [s] ∧ ¬ IsDots s := by
    obtain ⟨ss, s, hsplit⟩ := exists_last_segment text
    rw [route, hsplit]
    by_cases hs : IsDots s
    · exact ⟨ss ++ [s], [], by simp [hs], by decide⟩
    · exact ⟨ss, s, by simp [hs], hs⟩
  rw [hroute, Way.follow_concat, Way.step_of_not_isDots _ hs]
  exact List.concat_ne_nil _ _

theorem route_append_slash (text rest : List Char) :
    route (text ++ '/' :: rest) = text.splitOn '/' ++ route rest := by
  have hlast : (text.splitOn '/' ++ rest.splitOn '/').getLast? = (rest.splitOn '/').getLast? := by
    obtain ⟨ss, s, hsplit⟩ := exists_last_segment rest
    rw [hsplit, ← List.append_assoc, List.getLast?_concat, List.getLast?_concat]
  simp only [route, List.splitOn_append_cons_self, hlast]
  split <;> simp

theorem route_eq_splitOn (h : ∀ s ∈ text.splitOn '/', ¬ IsDots s) :
    route text = text.splitOn '/' := by
  have hlast : ((text.splitOn '/').getLast?.any fun s ↦ IsDots s) = false := by
    rw [Option.any_eq_false]
    intro s hs
    simpa using h s (List.mem_of_getLast? hs)
  rw [route, hlast]
  rfl

theorem not_mem_of_mem_route {s : List Char} (h : s ∈ route text) : '/' ∉ s := by
  simp only [route] at h
  split at h
  · rcases List.mem_append.1 h with h | h
    · exact not_mem_of_mem_splitOn h
    · rw [List.mem_singleton.1 h]
      exact List.not_mem_nil
  · exact not_mem_of_mem_splitOn h

theorem splitOn_inj : text.splitOn '/' = rest.splitOn '/' ↔ text = rest := by
  refine ⟨fun h ↦ ?_, congrArg _⟩
  rw [← text.intercalate_splitOn '/', h, List.intercalate_splitOn]

/-- A slash behind a text shows in the segments. -/
theorem append_slash_prefix_iff : place ++ ['/'] <+: text ↔
    ∃ ss, ss ≠ [] ∧ text.splitOn '/' = place.splitOn '/' ++ ss := by
  constructor
  · rintro ⟨rest, rfl⟩
    refine ⟨rest.splitOn '/', List.splitOn_ne_nil _ _, ?_⟩
    rw [List.append_assoc]
    exact List.splitOn_append_cons_self place rest
  · rintro ⟨ss, hne, hsplit⟩
    have hplain : ∀ s ∈ ss, '/' ∉ s :=
      fun s hs ↦ not_mem_of_mem_splitOn (hsplit ▸ List.mem_append_right _ hs)
    refine ⟨['/'].intercalate ss, splitOn_inj.1 ?_⟩
    rw [List.append_assoc, List.singleton_append, List.splitOn_append_cons_self,
      List.splitOn_intercalate '/' hplain hne, hsplit]

/-- What starts with a mark does not count for a beginning without marks. -/
theorem prefix_append_iff (hplace : ∀ c ∈ place, isMark c = false)
    (hending : ∀ c, ending.head? = some c → isMark c = true) :
    place <+: text ++ ending ↔ place <+: text := by
  refine ⟨fun h ↦ ?_, fun h ↦ h.trans (List.prefix_append _ _)⟩
  rcases Nat.le_total place.length text.length with hle | hle
  · exact List.prefix_of_prefix_length_le h (List.prefix_append _ _) hle
  · obtain ⟨more, rfl⟩ := List.prefix_of_prefix_length_le (List.prefix_append text ending) h hle
    rw [List.prefix_append_right_inj] at h
    cases more with
    | nil => simp
    | cons c more =>
      have hmark : isMark c = true := by
        obtain ⟨behind, rfl⟩ := h
        exact hending c rfl
      rw [hplace c (by simp)] at hmark
      exact absurd hmark (by decide)

/-- A path is another one or lies below it if its segments start with those of the other one.  If
they are no more than these, nothing can follow. -/
theorem eq_or_below_iff (hplace : ∀ c ∈ place, isMark c = false)
    (hending : ∀ c, ending.head? = some c → isMark c = true) (hplain : ∀ s ∈ ss, '/' ∉ s)
    (hne : ss ≠ []) :
    (['/'].intercalate ss ++ ending = place ∨ place ++ ['/'] <+: ['/'].intercalate ss ++ ending) ↔
      place.splitOn '/' <+: ss ∧ (ss = place.splitOn '/' → ending = []) := by
  have hsplit : (['/'].intercalate ss).splitOn '/' = ss := List.splitOn_intercalate '/' hplain hne
  have hslash : ∀ c ∈ place ++ ['/'], isMark c = false :=
    List.forall_mem_append.2 ⟨hplace, List.forall_mem_singleton.2 rfl⟩
  have hequal : ['/'].intercalate ss ++ ending = place ↔ ss = place.splitOn '/' ∧ ending = [] := by
    constructor
    · rintro rfl
      have hnone : ending = [] := by
        cases ending with
        | nil => rfl
        | cons c ending =>
          have hc := hplace c (by simp)
          rw [hending c rfl] at hc
          exact absurd hc (by decide)
      rw [hnone, List.append_nil, hsplit]
      exact ⟨rfl, rfl⟩
    · rintro ⟨rfl, rfl⟩
      rw [List.append_nil, List.intercalate_splitOn]
  rw [hequal, prefix_append_iff hslash hending, append_slash_prefix_iff, hsplit]
  constructor
  · rintro (⟨rfl, hnone⟩ | ⟨more, hmore, rfl⟩)
    · exact ⟨List.prefix_refl _, fun _ ↦ hnone⟩
    · exact ⟨List.prefix_append _ _, fun h ↦ absurd (List.append_right_eq_self.1 h) hmore⟩
  · rintro ⟨⟨more, rfl⟩, hnone⟩
    cases more with
    | nil => exact .inl ⟨List.append_nil _, hnone (List.append_nil _)⟩
    | cons s more => exact .inr ⟨s :: more, List.cons_ne_nil _ _, rfl⟩

/-- A way that starts with a name is written as it is. -/
theorem relativeSegments_of_start {s : List Char} (hs : s ≠ []) {w : Way} (hclimbs : w.climbs = 0)
    (h : s :: names <+: w.names) : relativeSegments w = w.names := by
  obtain ⟨climbs, leads⟩ := w
  obtain rfl : climbs = 0 := hclimbs
  obtain ⟨rest, rfl⟩ := h
  cases s with
  | nil => exact absurd rfl hs
  | cons c s => rfl

/-- Names that are no dots start a relative path only if it does not climb. -/
theorem prefix_relativeSegments_iff {s : List Char} (hs : ¬ IsDots s) (hne : s ≠ []) (w : Way) :
    s :: names <+: relativeSegments w ↔ w.climbs = 0 ∧ s :: names <+: w.names := by
  rw [IsDots, not_or] at hs
  obtain ⟨climbs, leads⟩ := w
  match climbs, leads with
  | 0, [] => simp [relativeSegments]
  | 0, [] :: leads => simp [relativeSegments, hs.1, hne]
  | 0, (c :: t) :: leads => simp [relativeSegments]
  | n + 1, leads => simp [relativeSegments, List.replicate_succ, hs.2]

theorem mem_relativeSegments {s : List Char} {w : Way} (h : s ∈ relativeSegments w) :
    IsDots s ∨ s ∈ w.names := by
  unfold relativeSegments at h
  split at h
  next => exact (List.mem_cons.1 h).imp_left .inl
  next =>
    exact (List.mem_append.1 h).imp_left fun h ↦ .inr (List.eq_of_mem_replicate h)

theorem relativeSegments_ne_nil {w : Way} (h : w.names ≠ []) : relativeSegments w ≠ [] := by
  unfold relativeSegments
  split
  · simp
  · simp [h]

/-! ## Addresses put together -/

/-- A way from behind some names leads back to them: it enters again whatever it climbs out of, before
anything else.  Only where the names are the whole path can it climb further than they go. -/
structure LeadsBack (names : List (List Char)) (rooted : Bool) (w : Way) (ending : List Char) :
    Prop where
  height : rooted = true ∨ w.climbs ≤ names.length
  again : names.drop (names.length - w.climbs) <+: w.names
  ends : w.names = names.drop (names.length - w.climbs) → ending = []

theorem leadsBack_iff {rooted : Bool} {w : Way} : LeadsBack names rooted w ending ↔
    (rooted = true ∨ w.climbs ≤ names.length) ∧ names <+: ((Way.through names).append w).names ∧
      (((Way.through names).append w).names = names → ending = []) := by
  have hwhole := List.take_append_drop (names.length - w.climbs) names
  have hnames : ((Way.through names).append w).names =
      names.take (names.length - w.climbs) ++ w.names := rfl
  have hagain : names <+: ((Way.through names).append w).names ↔
      names.drop (names.length - w.climbs) <+: w.names := by
    rw [hnames]
    nth_rewrite 1 [← hwhole]
    exact List.prefix_append_right_inj _
  have hends : ((Way.through names).append w).names = names ↔
      w.names = names.drop (names.length - w.climbs) := by
    rw [hnames]
    nth_rewrite 3 [← hwhole]
    exact List.append_right_inj _
  rw [hagain, hends]
  exact ⟨fun h ↦ ⟨h.height, h.again, h.ends⟩, fun h ↦ ⟨h.1, h.2.1, h.2.2⟩⟩

theorem host_append (text : List Char) : host text ++ (splitHost text).2 = text := by
  unfold host splitHost
  split
  next tail heq =>
    dsimp only
    split
    · have htext : text.takeWhile isHostChar ++ '/' :: '/' :: tail = text := by
        rw [← heq, List.takeWhile_append_dropWhile]
      simpa using htext
    · rfl
  next => rfl

theorem path_cases (path : List Char) :
    path = [] ∨ (∃ rest, path = '/' :: rest) ∨ ∃ c cs, c ≠ '/' ∧ path = c :: cs := by
  match path with
  | [] => exact .inl rfl
  | c :: cs =>
    by_cases hc : c = '/'
    · exact .inr (.inl ⟨cs, hc ▸ rfl⟩)
    · exact .inr (.inr ⟨c, cs, hc, rfl⟩)

theorem resolvePath_of_ne_slash {c : Char} (hc : c ≠ '/') (cs : List Char) :
    resolvePath (c :: cs) =
      ['/'].intercalate (relativeSegments (Way.follow (route (c :: cs)))) := by
  simp [resolvePath, hc]

/-- The first name of a path that does not start at the root is not empty. -/
theorem namesIn_of_ne_slash {c : Char} (hc : c ≠ '/') (cs : List Char) :
    namesIn (c :: cs) = (c :: cs).splitOn '/' ∧
      ∃ s names, (c :: cs).splitOn '/' = s :: names ∧ s ≠ [] := by
  refine ⟨by simp [namesIn, hc], ?_⟩
  rw [List.splitOn_cons_eq_if_modifyHead, if_neg (by simpa using hc)]
  obtain ⟨s, ss, hs⟩ := List.exists_cons_of_ne_nil (List.splitOn_ne_nil '/' cs)
  exact ⟨c :: s, ss, by rw [hs]; rfl, List.cons_ne_nil _ _⟩

theorem follow_route_eq_through (h : ∀ s ∈ text.splitOn '/', ¬ IsDots s) :
    Way.follow (route text) = Way.through (text.splitOn '/') := by
  rw [route_eq_splitOn h, Way.follow_eq_through h]

/-- A path without dots stays as it is. -/
theorem resolvePath_eq_self {path : List Char} (h : ∀ s ∈ namesIn path, ¬ IsDots s) :
    resolvePath path = path := by
  obtain rfl | ⟨rest, rfl⟩ | ⟨c, cs, hc, rfl⟩ := path_cases path
  · rfl
  · rw [resolvePath, follow_route_eq_through h, Way.through, List.intercalate_splitOn]
  · obtain ⟨hnames, s, names, hsplit, hs⟩ := namesIn_of_ne_slash hc cs
    rw [resolvePath_of_ne_slash hc, follow_route_eq_through (hnames ▸ h), hsplit,
      relativeSegments_of_start hs rfl (List.prefix_refl _), ← hsplit]
    exact List.intercalate_splitOn '/'

/-- Something behind names leads on from them. -/
theorem follow_route_append_slash (h : ∀ s ∈ text.splitOn '/', ¬ IsDots s) (rest : List Char) :
    Way.follow (route (text ++ '/' :: rest)) =
      (Way.through (text.splitOn '/')).append (Way.follow (route rest)) := by
  rw [route_append_slash, Way.follow_append, Way.follow_eq_through h]

theorem not_mem_of_mem_names {s : List Char} (h : s ∈ (Way.follow (route text)).names) : '/' ∉ s :=
  not_mem_of_mem_route (Way.mem_of_mem_names_follow h)

theorem follow_root_eq_or_below_iff (hplain : ∀ s ∈ text.splitOn '/', ¬ IsDots s)
    (htext : ∀ c ∈ text, isMark c = false)
    (hending : ∀ c, ending.head? = some c → isMark c = true) (rest : List Char) :
    (['/'].intercalate (Way.follow (route (text ++ '/' :: rest))).names ++ ending = text ∨
        text ++ ['/'] <+: ['/'].intercalate (Way.follow (route (text ++ '/' :: rest))).names ++
          ending) ↔
      LeadsBack (text.splitOn '/') true (Way.follow (route rest)) ending := by
  have hslashes : ∀ s ∈ (Way.follow (route (text ++ '/' :: rest))).names, '/' ∉ s :=
    fun s hs ↦ not_mem_of_mem_names hs
  rw [eq_or_below_iff htext hending hslashes (names_follow_route_ne_nil _), leadsBack_iff,
    follow_route_append_slash hplain rest]
  simp

/-- A relative path leads out of its first part as soon as it climbs. -/
theorem follow_relative_eq_or_below_iff {s : List Char} (hs : s ≠ [])
    (hsplit : text.splitOn '/' = s :: names) (hplain : ∀ s ∈ text.splitOn '/', ¬ IsDots s)
    (htext : ∀ c ∈ text, isMark c = false)
    (hending : ∀ c, ending.head? = some c → isMark c = true) (rest : List Char) :
    (['/'].intercalate (relativeSegments (Way.follow (route (text ++ '/' :: rest)))) ++
        ending = text ∨ text ++ ['/'] <+:
          ['/'].intercalate (relativeSegments (Way.follow (route (text ++ '/' :: rest)))) ++
            ending) ↔
      LeadsBack (text.splitOn '/') false (Way.follow (route rest)) ending := by
  have hslashes : ∀ t ∈ relativeSegments (Way.follow (route (text ++ '/' :: rest))), '/' ∉ t := by
    intro t ht
    rcases mem_relativeSegments ht with hdots | hname
    · rcases hdots with rfl | rfl <;> decide
    · exact not_mem_of_mem_names hname
  have hheight : ∀ w : Way, ((Way.through (s :: names)).append w).climbs = 0 ↔
      w.climbs ≤ (s :: names).length := fun w ↦ by
    rw [Way.append, Way.through, Nat.zero_add, Nat.sub_eq_zero_iff_le]
  have hfirst : ¬ IsDots s := hplain s (by simp [hsplit])
  rw [eq_or_below_iff htext hending hslashes
      (relativeSegments_ne_nil (names_follow_route_ne_nil _)), leadsBack_iff,
    follow_route_append_slash hplain rest, hsplit, prefix_relativeSegments_iff hfirst hs, hheight,
    and_assoc]
  simp only [Bool.false_eq_true, false_or]
  refine and_congr_right fun hclimbs ↦ and_congr_right fun hstart ↦ ?_
  rw [relativeSegments_of_start hs ((hheight _).2 hclimbs) hstart]

/-- Whether a path leads out of another one that it starts with depends on what follows. -/
theorem resolvePath_eq_or_below_iff {path : List Char} (hplain : ∀ s ∈ namesIn path, ¬ IsDots s)
    (hpath : ∀ c ∈ path, isMark c = false)
    (hending : ∀ c, ending.head? = some c → isMark c = true) (rest : List Char) :
    (resolvePath (path ++ '/' :: rest) ++ ending = path ∨
        path ++ ['/'] <+: resolvePath (path ++ '/' :: rest) ++ ending) ↔
      LeadsBack (namesIn path) (isRooted path) (Way.follow (route rest)) ending := by
  obtain rfl | ⟨text, rfl⟩ | ⟨c, cs, hc, rfl⟩ := path_cases path
  · have hnames := names_follow_route_ne_nil rest
    have hback : LeadsBack [] true (Way.follow (route rest)) ending :=
      ⟨.inl rfl, by simp, fun h ↦ absurd (h.trans List.drop_nil) hnames⟩
    exact iff_of_true (.inr (List.cons_prefix_cons.2 ⟨rfl, List.nil_prefix⟩)) hback
  · have hbelow := follow_root_eq_or_below_iff hplain (List.forall_mem_cons.1 hpath).2 hending rest
    simp only [List.cons_append, resolvePath, List.cons_inj_right, List.cons_prefix_cons,
      true_and]
    exact hbelow
  · obtain ⟨hnames, s, names, hsplit, hs⟩ := namesIn_of_ne_slash hc cs
    have hrooted : isRooted (c :: cs) = false := by simp [isRooted, hc]
    rw [hnames] at hplain ⊢
    rw [List.cons_append, resolvePath_of_ne_slash hc, hrooted]
    exact follow_relative_eq_or_below_iff hs hsplit hplain hpath hending rest

/-- Texts with the same host in front are compared behind it. -/
theorem isAtOrBelow_iff {place : String} {front path text : List Char}
    (hplace : place.toList = front ++ path) : IsAtOrBelow place (String.ofList (front ++ text)) ↔
      text = path ∨ path ++ ['/'] <+: text := by
  have hequal : String.ofList (front ++ text) = place ↔ text = path := by
    rw [← String.toList_inj, String.toList_ofList, hplace, List.append_right_inj]
  have hslash : "/".toList = ['/'] := rfl
  rw [IsAtOrBelow, hequal, String.startsWith_string_iff, String.toList_append, hslash, hplace,
    String.toList_ofList, List.append_assoc, List.prefix_append_right_inj]

/-- An address behind another one is resolved to the other one or something below it if the path of
the other one has ended, or what is behind it leads back there. -/
theorem resolve_isAtOrBelow_iff {place rest : String}
    (hend : place.toList.getLast? ≠ some '/') (hstart : rest.toList.head? ≠ some '/')
    (hplain : ∀ s ∈ namesIn (path place.toList), ¬ IsDots s) :
    IsAtOrBelow place (resolve (place ++ "/" ++ rest)) ↔ query place.toList ≠ [] ∨
      LeadsBack (namesIn (path place.toList)) (isRooted (path place.toList))
        (Way.follow (route (untilMark rest.toList))) (fromMark rest.toList) := by
  have htext : (place ++ "/" ++ rest).toList = place.toList ++ '/' :: rest.toList := by
    simp [String.toList_append]
  have hsplit := splitHost_append_slash hend hstart
  have hplace := (host_append place.toList).symm
  have hparts := untilMark_append_fromMark (splitHost place.toList).2
  rw [resolve, htext]
  simp only [host, path, query, hsplit] at hplain hplace ⊢
  rw [isAtOrBelow_iff hplace]
  by_cases hquery : fromMark (splitHost place.toList).2 = []
  · obtain ⟨huntil, hfrom⟩ := untilMark_append hquery ('/' :: rest.toList)
    have hslash : untilMark ('/' :: rest.toList) = '/' :: untilMark rest.toList ∧
        fromMark ('/' :: rest.toList) = fromMark rest.toList := ⟨rfl, rfl⟩
    rw [hquery, List.append_nil] at hparts
    have hending : ∀ c, (fromMark rest.toList).head? = some c → isMark c = true :=
      fun c hc ↦ isMark_of_head?_fromMark hc
    have hbelow := resolvePath_eq_or_below_iff hplain
      (fun c hc ↦ not_isMark_of_mem_untilMark hc) hending (untilMark rest.toList)
    rw [hparts] at hbelow ⊢
    rw [huntil, hfrom, hslash.1, hslash.2, hbelow]
    simp [hquery]
  · obtain ⟨huntil, hfrom⟩ := untilMark_append_of_fromMark hquery ('/' :: rest.toList)
    rw [huntil, hfrom, resolvePath_eq_self hplain, ← List.append_assoc, hparts]
    simp [hquery]

end WebAddress

end StyleModules
