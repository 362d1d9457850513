import StyleModules.Proofs.JsonReading

/-!
# Writings of a value

A value can be written with any blanks between its parts; the text on one line and the text on many
lines are two of its writings.  A reader that accepts a value takes every writing of it, so the
layout of a file does not matter.
-/

namespace StyleModules.Json

open Reader

mutual

/-- A text is a writing of a value. -/
inductive Written : Json → List Char → Prop
  | null : Written .null ['n', 'u', 'l', 'l']
  | true : Written (.bool Bool.true) ['t', 'r', 'u', 'e']
  | false : Written (.bool Bool.false) ['f', 'a', 'l', 's', 'e']
  | integer (n : Int) : Written (.integer n) (Decimal.signed n)
  | number (negative : Bool) (d : Decimal) : Written (.number negative d) (writeNumber negative d)
  | text (s : String) : Written (.text s) (quote s)
  | array {items : List Json} {cs gap : List Char} (h : WrittenItems items cs) (hgap : IsGap gap) :
      Written (.array items) ('[' :: cs ++ gap ++ [']'])
  | object {fields : List (String × Json)} {cs gap : List Char} (h : WrittenFields fields cs)
      (hgap : IsGap gap) : Written (.object fields) ('\x7b' :: cs ++ gap ++ ['\x7d'])

/-- A text is a writing of items, with commas between them. -/
inductive WrittenItems : List Json → List Char → Prop
  | nil : WrittenItems [] []
  | one {v : Json} {gap cs : List Char} (hgap : IsGap gap) (h : Written v cs) :
      WrittenItems [v] (gap ++ cs)
  | more {v w : Json} {vs : List Json} {gap cs cs' : List Char} (hgap : IsGap gap)
      (h : Written v cs) (h' : WrittenItems (w :: vs) cs') :
      WrittenItems (v :: w :: vs) (gap ++ cs ++ ',' :: cs')

/-- A text is a writing of fields, with commas between them. -/
inductive WrittenFields : List (String × Json) → List Char → Prop
  | nil : WrittenFields [] []
  | one {name : String} {v : Json} {gap gap' cs : List Char} (hgap : IsGap gap) (hgap' : IsGap gap')
      (h : Written v cs) : WrittenFields [(name, v)] (gap ++ quote name ++ ':' :: (gap' ++ cs))
  | more {name : String} {v : Json} {f : String × Json} {fs : List (String × Json)}
      {gap gap' cs cs' : List Char} (hgap : IsGap gap) (hgap' : IsGap gap') (h : Written v cs)
      (h' : WrittenFields (f :: fs) cs') :
      WrittenFields ((name, v) :: f :: fs) (gap ++ quote name ++ ':' :: (gap' ++ cs) ++ ',' :: cs')

end

mutual

theorem written_compact : ∀ v : Json, Written v v.writeCompact
  | null => .null
  | bool true => .true
  | bool false => .false
  | integer n => .integer n
  | number negative d => .number negative d
  | text s => .text s
  | array items => by
    have h := Written.array (writtenItems_compact items) isGap_nil
    rwa [List.append_nil] at h
  | object fields => by
    have h := Written.object (writtenFields_compact fields) isGap_nil
    rwa [List.append_nil] at h

theorem writtenItems_compact : ∀ vs : List Json, WrittenItems vs (writeCompactItems vs)
  | [] => .nil
  | [v] => .one isGap_nil (written_compact v)
  | v :: w :: vs => .more isGap_nil (written_compact v) (writtenItems_compact (w :: vs))

theorem writtenFields_compact :
    ∀ fs : List (String × Json), WrittenFields fs (writeCompactFields fs)
  | [] => .nil
  | [(_, v)] => .one isGap_nil isGap_nil (written_compact v)
  | (_, v) :: f :: fs =>
    .more isGap_nil isGap_nil (written_compact v) (writtenFields_compact (f :: fs))

end

theorem isGap_lineStart (depth : Nat) : IsGap (lineStart depth) := by
  intro c hc
  rcases List.mem_cons.1 hc with rfl | hc
  · rfl
  · rw [List.eq_of_mem_replicate hc]
    rfl

theorem isGap_space : IsGap [' '] := by
  intro c hc
  rw [List.mem_singleton.1 hc]
  rfl

mutual

theorem written_pretty (depth : Nat) : ∀ v : Json, Written v (v.writePretty depth)
  | null => .null
  | bool true => .true
  | bool false => .false
  | integer n => .integer n
  | number negative d => .number negative d
  | text s => .text s
  | array [] => .array .nil isGap_nil
  | array (v :: vs) => .array (writtenItems_pretty (depth + 1) (v :: vs)) (isGap_lineStart depth)
  | object [] => .object .nil isGap_nil
  | object (f :: fs) => .object (writtenFields_pretty (depth + 1) (f :: fs)) (isGap_lineStart depth)

theorem writtenItems_pretty (depth : Nat) :
    ∀ vs : List Json, WrittenItems vs (writePrettyItems depth vs)
  | [] => .nil
  | [v] => .one (isGap_lineStart depth) (written_pretty depth v)
  | v :: w :: vs =>
    .more (isGap_lineStart depth) (written_pretty depth v) (writtenItems_pretty depth (w :: vs))

theorem writtenFields_pretty (depth : Nat) :
    ∀ fs : List (String × Json), WrittenFields fs (writePrettyFields depth fs)
  | [] => .nil
  | [(_, v)] => .one (isGap_lineStart depth) isGap_space (written_pretty depth v)
  | (_, v) :: f :: fs => .more (isGap_lineStart depth) isGap_space (written_pretty depth v)
      (writtenFields_pretty depth (f :: fs))

end

/-! ## Accepted values -/

namespace Reader

variable {α β σ : Type} {r : Reader α} {v : Json} {a : α}

/-- The reader takes every writing of a value. -/
def Accepts (r : Reader α) (v : Json) (a : α) : Prop :=
  ∀ gap cs, IsGap gap → Written v cs → Takes r (gap ++ cs) a

theorem accepts_textAs (expected s : String) : Accepts (textAs expected) (.text s) s := by
  rintro gap _ hgap ⟨⟩
  exact takes_textAs hgap s expected

theorem Accepts.map (f : α → β) (h : Accepts r v a) : Accepts (f <$> r) v (f a) :=
  fun gap cs hgap hv ↦ (h gap cs hgap hv).map f

theorem Accepts.bind_pure (f : α → β) (h : Accepts r v a) :
    Accepts (r >>= fun a ↦ pure (f a)) v (f a) := by
  rw [bind_pure_comp]
  exact h.map f

theorem accepts_optional_null (r : Reader α) : Accepts (optional r) .null none := by
  rintro gap _ hgap ⟨⟩
  refine .peekSolid hgap (by decide) ?_
  rw [if_pos rfl]
  exact ((takes_word ['u', 'l', 'l']).bind (.pure none)).skip 'n'

theorem Accepts.optional {s : String} (h : Accepts r (.text s) a) :
    Accepts (optional r) (.text s) (some a) := by
  rintro gap _ hgap ⟨⟩
  refine .peekSolid hgap (by decide) ?_
  rw [if_neg (by decide)]
  exact (h [] _ isGap_nil (.text s)).map some

/-- The comma in front of all items or fields but the first one. -/
def comma (isFirst : Bool) : List Char := if isFirst then [] else [',']

section Lists

variable {f : Bool → Reader β} {gap cs : List Char} {b : β}

theorem Takes.hasItem_end (isFirst : Bool) (hgap : IsGap gap) (h : Takes (f false) (']' :: cs) b) :
    Takes (hasItem isFirst >>= f) (gap ++ ']' :: cs) b := by
  rw [hasItem, bind_assoc]
  exact .peekSolid hgap (by decide) h

theorem Takes.hasItem (isFirst : Bool) (hgap : IsGap gap) (h : Takes (f true) ('"' :: cs) b) :
    Takes (Reader.hasItem isFirst >>= f) (comma isFirst ++ (gap ++ '"' :: cs)) b := by
  rw [Reader.hasItem, bind_assoc]
  cases isFirst with
  | true => exact .peekSolid hgap (by decide) h
  | false =>
    exact .solid (by decide) (.skip_peekSolid ',' hgap (by decide) h)

/-- The items from one of them on, up to the end of their list. -/
theorem takes_items {g : String → α} (hr : ∀ s, Accepts r (.text s) (g s)) {ss : List String}
    {s : String} {cs close : List Char} (h : WrittenItems ((s :: ss).map .text) cs)
    (hclose : IsGap close) {n : Nat} (hn : (s :: ss).length < n) (before : List α) :
    Takes (items r n before) (comma before.isEmpty ++ (cs ++ (close ++ [']'])))
      (before.reverse ++ (s :: ss).map g) := by
  -- on what is behind the first item; a last round is spent on the closing bracket
  induction ss generalizing s cs n before with
  | nil =>
    obtain ⟨n, rfl⟩ : ∃ m, n = m + 2 := ⟨n - 2, by simp at hn; omega⟩
    cases h with
    | one hgap hv =>
      cases hv
      rw [items, List.append_assoc]
      refine .hasItem _ hgap ?_
      refine (hr s [] _ isGap_nil (.text s)).bind ?_
      refine .hasItem_end false hclose (.skip ?_ ']')
      simpa using Takes.pure (before.reverse ++ [g s])
  | cons w ss ih =>
    obtain ⟨n, rfl⟩ : ∃ m, n = m + 1 := ⟨n - 1, by simp at hn; omega⟩
    cases h with
    | more hgap hv hrest =>
      cases hv
      have hread := ih hrest (Nat.lt_of_succ_lt_succ hn) (g s :: before)
      rw [items, List.append_assoc, List.append_assoc]
      refine .hasItem _ hgap ?_
      refine (hr s [] _ isGap_nil (.text s)).bind ?_
      simpa [comma] using hread

theorem length_le_of_writtenItems {ss : List String} {cs : List Char}
    (h : WrittenItems (ss.map .text) cs) : ss.length ≤ cs.length := by
  induction ss generalizing cs with
  | nil => exact Nat.zero_le _
  | cons s ss ih =>
    cases ss with
    | nil =>
      cases h with
      | one hgap hv =>
        cases hv
        simp only [quote, List.length_append, List.length_cons, List.length_nil]
        omega
    | cons w ss =>
      cases h with
      | more hgap hv hrest =>
        have hle := ih hrest
        simp only [List.length_append, List.length_cons] at hle ⊢
        omega

/-- A list of texts is read item by item. -/
theorem accepts_list {g : String → α} (hr : ∀ s, Accepts r (.text s) (g s)) (ss : List String) :
    Accepts (list r) (.array (ss.map .text)) (ss.map g) := by
  rintro gap _ hgap h
  cases h with
  | @array _ cs close hitems hclose =>
    rw [List.append_assoc, List.cons_append]
    refine .valueStart hgap (by decide) ?_
    rw [if_pos rfl]
    refine .skip (.budget fun n hn ↦ ?_) '['
    have hlength := length_le_of_writtenItems hitems
    simp only [List.length_append, List.length_singleton] at hn
    cases ss with
    | nil =>
      obtain ⟨n, rfl⟩ : ∃ m, n = m + 1 := ⟨n - 1, by omega⟩
      cases hitems
      rw [items]
      exact .hasItem_end true hclose (.skip (.pure []) ']')
    | cons s ss => exact takes_items hr hitems hclose (by omega) []

end Lists

/-! ## Objects -/

section Objects

variable {f : Bool → Reader β} {gap cs : List Char} {b : β}

theorem Takes.hasField_end (isFirst : Bool) (hgap : IsGap gap)
    (h : Takes (f false) ('\x7d' :: cs) b) :
    Takes (hasField isFirst >>= f) (gap ++ '\x7d' :: cs) b := by
  rw [hasField, bind_assoc]
  exact .peekSolid hgap (by decide) h

theorem Takes.hasField (isFirst : Bool) (hgap : IsGap gap) (h : Takes (f true) ('"' :: cs) b) :
    Takes (Reader.hasField isFirst >>= f) (comma isFirst ++ (gap ++ '"' :: cs)) b := by
  rw [Reader.hasField, bind_assoc]
  cases isFirst with
  | true => exact .peekSolid hgap (by decide) h
  | false =>
    exact .solid (by decide) (.skip_peekSolid ',' hgap (by decide) h)

theorem takes_colon : Takes colon [':'] () :=
  .solid (by decide) (.skip (.pure ()) ':')

/-- A reader that goes through the fields of an object.  What is read from them is kept in a
state. -/
structure Loop (σ β : Type) where
  run : Nat → Bool → σ → Reader β
  /-- What is done behind the name of a field. -/
  body : Nat → String → σ → Reader β
  /-- What is done behind the last field. -/
  finish : σ → Reader β
  run_eq : ∀ n isFirst st, run (n + 1) isFirst st = Reader.hasField isFirst >>= fun more ↦
    if more then skip >>= fun _ ↦ textRest >>= fun name ↦ body n name st
    else skip >>= fun _ ↦ finish st

namespace Loop

variable (l : Loop σ β) {st st' : σ} {close : List Char} {n : Nat}

/-- A field takes one state to another one. -/
def Enters (name : String) (v : Json) (st st' : σ) : Prop :=
  ∀ n gap cs tail b, IsGap gap → Written v cs → Takes (l.run n false st') tail b →
    Takes (l.body n name st) (':' :: (gap ++ cs) ++ tail) b

/-- Fields take one state to another one, one after the other. -/
inductive Fills : List (String × Json) → σ → σ → Prop
  | nil (st : σ) : Fills [] st st
  | cons {name : String} {v : Json} {fs : List (String × Json)} {st st' st'' : σ}
      (h : l.Enters name v st st') (hrest : Fills fs st' st'') : Fills ((name, v) :: fs) st st''

variable {l}

theorem takes_end (isFirst : Bool) (hgap : IsGap gap) (hfinish : Takes (l.finish st) [] b) :
    Takes (l.run (n + 1) isFirst st) (gap ++ ['\x7d']) b := by
  rw [l.run_eq]
  exact .hasField_end isFirst hgap (hfinish.skip '\x7d')

theorem takes_name {name : String} {tail : List Char} (isFirst : Bool) (hgap : IsGap gap)
    (h : Takes (l.body n name st) tail b) :
    Takes (l.run (n + 1) isFirst st) (comma isFirst ++ (gap ++ (quote name ++ tail))) b := by
  rw [l.run_eq]
  have hfield : Takes (skip >>= fun _ ↦ textRest >>= fun name ↦ l.body n name st)
      ('"' :: (name.toList.flatMap escape ++ ['"'] ++ tail)) b :=
    ((takes_textRest name).bind h).skip '"'
  exact .hasField isFirst hgap hfield

/-- The fields from one of them on, up to the end of their object. -/
theorem takes_fields {f : String × Json} {fs : List (String × Json)}
    (h : WrittenFields (f :: fs) cs) (hfills : l.Fills (f :: fs) st st') (hclose : IsGap close)
    (hfinish : Takes (l.finish st') [] b) (hn : (f :: fs).length < n) (isFirst : Bool) :
    Takes (l.run n isFirst st) (comma isFirst ++ (cs ++ (close ++ ['\x7d']))) b := by
  -- on the fields behind the first one, from whatever state is reached in front of them
  induction fs generalizing f cs n st isFirst with
  | nil =>
    obtain ⟨n, rfl⟩ : ∃ m, n = m + 2 := ⟨n - 2, by simp at hn; omega⟩
    cases h with
    | one hgap hgap' hv =>
      cases hfills with
      | cons henters hrest =>
        cases hrest
        rw [List.append_assoc, List.append_assoc]
        exact takes_name isFirst hgap
          (henters _ _ _ _ _ hgap' hv (takes_end false hclose hfinish))
  | cons f' fs ih =>
    obtain ⟨n, rfl⟩ : ∃ m, n = m + 1 := ⟨n - 1, by simp at hn; omega⟩
    cases h with
    | more hgap hgap' hv hwritten =>
      cases hfills with
      | cons henters hrest =>
        have hread := ih hwritten hrest (Nat.lt_of_succ_lt_succ hn) false
        rw [List.append_assoc, List.append_assoc, List.append_assoc]
        exact takes_name isFirst hgap (henters _ _ _ _ _ hgap' hv hread)

theorem length_le_of_writtenFields {fs : List (String × Json)} (h : WrittenFields fs cs) :
    fs.length ≤ cs.length := by
  induction fs generalizing cs with
  | nil => exact Nat.zero_le _
  | cons f fs ih =>
    cases h with
    | one =>
      simp only [List.length_append, List.length_cons, List.length_nil]
      omega
    | more hgap hgap' hv hwritten =>
      have hle := ih hwritten
      simp only [List.length_append, List.length_cons] at hle ⊢
      omega

/-- An object is read field by field. -/
theorem takes_object {g : Char → Reader β}
    (hg : g '\x7b' = skip >>= fun _ ↦ budget >>= fun n ↦ l.run n true st) (hgap : IsGap gap)
    {fs : List (String × Json)} (h : Written (.object fs) cs) (hfills : l.Fills fs st st')
    (hfinish : Takes (l.finish st') [] b) : Takes (valueStart >>= g) (gap ++ cs) b := by
  cases h with
  | @object _ cs close hfields hclose =>
    rw [List.append_assoc, List.cons_append]
    refine .valueStart hgap (by decide) ?_
    rw [hg]
    refine .skip (.budget fun n hn ↦ ?_) '\x7b'
    have hlength := length_le_of_writtenFields hfields
    simp only [List.length_append, List.length_singleton] at hn
    cases fs with
    | nil =>
      obtain ⟨n, rfl⟩ : ∃ m, n = m + 1 := ⟨n - 1, by omega⟩
      cases hfields
      cases hfills
      exact takes_end true hclose hfinish
    | cons f fs => exact takes_fields hfields hfills hclose hfinish (by omega) true

end Loop

def tableLoop (r : Reader α) : Loop (Table String α) (Table String α) where
  run := entries r
  body n name t := colon >>= fun _ ↦ r >>= fun a ↦ entries r n false (t.insert name a)
  finish := pure
  run_eq _ _ _ := rfl

theorem enters_entry {name : String} {v : Json} (h : Accepts r v a) (t : Table String α) :
    (tableLoop r).Enters name v t (t.insert name a) := by
  intro n gap cs tail b hgap hv htail
  have hvalue : Takes (r >>= fun a ↦ entries r n false (t.insert name a)) (gap ++ cs ++ tail) b :=
    (h gap cs hgap hv).bind htail
  exact takes_colon.bind hvalue

/-- A table is read entry by entry. -/
theorem accepts_table {γ : Type} {value : γ → Json} {g : γ → α}
    (hr : ∀ x, Accepts r (value x) (g x)) (es : List (String × γ)) :
    Accepts (table r) (.object (es.map fun e ↦ (e.1, value e.2)))
      (.ofList (es.map fun e ↦ (e.1, g e.2))) := by
  have hfills (t : Table String α) :
      (tableLoop r).Fills (es.map fun e ↦ (e.1, value e.2)) t
        ((es.map fun e ↦ (e.1, g e.2)).foldl (fun t e ↦ t.insert e.1 e.2) t) := by
    induction es generalizing t with
    | nil => exact .nil t
    | cons e es ih => exact .cons (enters_entry (hr e.2) t) (ih _)
  exact fun gap cs hgap hv ↦ Loop.takes_object rfl hgap hv (hfills .empty) (.pure _)

def recordLoop {ρ : Type} (s : Shape ρ) : Loop (List String × ρ) ρ where
  run n isFirst st := fields s n st.1 isFirst st.2
  body n name st :=
    match s.field? name with
    | some f =>
      if st.1.contains name then do
        if (← peekSolid) = some '\x7d' then skip
        fail (.repeatedField name)
      else do
        colon
        fields s n (name :: st.1) false (← f.read st.2)
    | none => do
      colon
      skipAny
      fields s n st.1 false st.2
  finish st :=
    match s.missing? st.1 with
    | some f => fail (.missingField f.name)
    | none => pure st.2
  run_eq _ _ _ := rfl

theorem enters_field {ρ : Type} {s : Shape ρ} {name : String} {f : Field ρ} {seen : List String}
    {record record' : ρ} (hf : s.field? name = some f) (hseen : seen.contains name = false)
    {v : Json} (h : Accepts (f.read record) v record') :
    (recordLoop s).Enters name v (seen, record) (name :: seen, record') := by
  intro n gap cs tail b hgap hv htail
  simp only [recordLoop, hf, hseen, Bool.false_eq_true, if_false]
  have hvalue : Takes (f.read record >>= fun next ↦ fields s n (name :: seen) false next)
      (gap ++ cs ++ tail) b := (h gap cs hgap hv).bind htail
  exact takes_colon.bind hvalue

/-- A record is read field by field. -/
theorem accepts_record {ρ : Type} {s : Shape ρ} {fs : List (String × Json)} {seen : List String}
    {final : ρ} (hfills : (recordLoop s).Fills fs ([], s.start) (seen, final))
    (hmissing : s.missing? seen = none) : Accepts (record s) (.object fs) final := by
  have hfinish : Takes ((recordLoop s).finish (seen, final)) [] final := by
    simp only [recordLoop, hmissing]
    exact .pure final
  exact fun gap cs hgap hv ↦ Loop.takes_object rfl hgap hv hfills hfinish

end Objects

end Reader

/-- A text that is a writing of an accepted value is read as a whole. -/
theorem read_of_written {α : Type} {r : Reader α} {v : Json} {a : α} (hr : Reader.Accepts r v a)
    {text : String} (h : Written v text.toList) : read r text = .ok a := by
  obtain ⟨behind, hread⟩ := hr [] _ Reader.isGap_nil h [] ⟨1, 0⟩
  rw [List.nil_append, List.append_nil] at hread
  change Except.map Prod.fst ((r >>= fun a ↦ _) (Reader.start text)) = _
  rw [Reader.start, Reader.bind_of_eq hread]
  rfl

end StyleModules.Json
