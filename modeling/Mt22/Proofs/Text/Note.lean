import Mt22.Proofs.Text.Parting

/-!
# Notes

A note is a tree as text without quotes: an atom stands for itself, a node is its kind with its
fields in parentheses, a list stands in brackets, and a literal is a node whose only field is
written as it is.

The run of plain characters at the start of a note tells, with the character after it, which form it
has.  So the notes in which atoms are plain and literals do not contain their closing parenthesis
are read in one way only (`Note.Proper.parts`), and so are lines of them (`Note.lines_inj`).
-/

namespace Mt22

open Token Text

/-- A tree to be written as text. -/
inductive Note where
  | atom (text : List Char)
  | literal (text : List Char)
  | node (kind : List Char) (fields : List Note)
  | list (items : List Note)

namespace Note

/-- The kind that literals have. -/
def literalKind : List Char := "StringLit".toList

mutual

/-- The text of a note. -/
def write : Note → List Char
  | atom text => text
  | literal text => literalKind ++ '(' :: (text ++ [')'])
  | node kind fields => kind ++ '(' :: ([',', ' '].intercalate (writeAll fields) ++ [')'])
  | list items => '[' :: ([',', ' '].intercalate (writeAll items) ++ [']'])

def writeAll : List Note → List (List Char)
  | [] => []
  | n :: ns => n.write :: writeAll ns

end

theorem writeAll_eq_map (ns : List Note) : writeAll ns = ns.map write := by
  induction ns with
  | nil => rfl
  | cons n ns ih => rw [writeAll, ih, List.map_cons]

/-- A character that does not end what stands in parentheses, brackets or a line. -/
def isInside (c : Char) : Bool := c ∉ [',', ')', ']', '\n']

/-- A character of atoms and kinds. -/
def isPlain (c : Char) : Bool := isInside c && (c ≠ '(' && c ≠ '[')

/-- A note that can be told from every other: its atoms and kinds are plain, no node has the kind of
literals, and no literal contains the parenthesis that closes it. -/
inductive Proper : Note → Prop
  | atom {text : List Char} (hne : text ≠ []) (hplain : text.all isPlain = true) :
      Proper (atom text)
  | literal {text : List Char} (hclose : ')' ∉ text) : Proper (literal text)
  | node {kind : List Char} {fields : List Note} (hne : kind ≠ [])
      (hplain : kind.all isPlain = true) (hkind : kind ≠ literalKind)
      (hfields : ∀ n ∈ fields, n.Proper) : Proper (node kind fields)
  | list {items : List Note} (hitems : ∀ n ∈ items, n.Proper) : Proper (list items)

/-! ### The start of a note -/

/-- The run of plain characters at the start. -/
def lead : Note → List Char
  | atom text => text
  | literal _ => literalKind
  | node kind _ => kind
  | list _ => []

/-- What stands after the plain characters at the start. -/
def tail : Note → List Char
  | atom _ => []
  | literal text => '(' :: (text ++ [')'])
  | node _ fields => '(' :: ([',', ' '].intercalate (fields.map write) ++ [')'])
  | list items => '[' :: ([',', ' '].intercalate (items.map write) ++ [']'])

theorem write_eq_append (n : Note) : n.write = n.lead ++ n.tail := by
  cases n with
  | atom text => exact (List.append_nil text).symm
  | literal text => rfl
  | node kind fields => rw [write, writeAll_eq_map, lead, tail]
  | list items => rw [write, writeAll_eq_map, lead, tail, List.nil_append]

theorem Proper.all_isPlain_lead {n : Note} (h : n.Proper) : n.lead.all isPlain = true := by
  cases h with
  | atom hne hplain => exact hplain
  | literal hclose => rfl
  | node hne hplain => exact hplain
  | list hitems => rfl

theorem stops_tail (n : Note) {x : List Char} (hx : Stops isInside x) :
    Stops isPlain (n.tail ++ x) := by
  cases n with
  | atom text => exact hx.mono fun c hc => (Bool.and_eq_true_iff.mp hc).1
  | literal text => exact stops_cons rfl
  | node kind fields => exact stops_cons rfl
  | list items => exact stops_cons rfl

/-- A note starts with a character that does not end anything. -/
theorem Proper.head {n : Note} (h : n.Proper) : ∃ c s, n.write = c :: s ∧ isInside c = true := by
  have hplain : ∀ {text s : List Char}, text ≠ [] → text.all isPlain = true →
      ∃ c s', text ++ s = c :: s' ∧ isInside c = true := by
    intro text s hne hall
    obtain ⟨c, text, rfl⟩ := List.exists_cons_of_ne_nil hne
    rw [List.all_cons, Bool.and_eq_true] at hall
    exact ⟨c, text ++ s, rfl, (Bool.and_eq_true_iff.mp hall.1).1⟩
  rw [write_eq_append]
  cases h with
  | atom hne hall => exact hplain hne hall
  | literal hclose => exact ⟨'S', _, rfl, rfl⟩
  | node hne hall => exact hplain hne hall
  | list hitems => exact ⟨'[', _, rfl, rfl⟩

theorem Proper.write_ne_cons {n : Note} (h : n.Proper) {c : Char} (hc : isInside c = false)
    (x y : List Char) : n.write ++ x ≠ c :: y := by
  obtain ⟨d, s, hd, hinside⟩ := h.head
  rw [hd]
  intro heq
  rw [(List.cons.inj heq).1, hc] at hinside
  cases hinside

/-! ### Reading -/

theorem parts_of_lead_tail {n m : Note} (hn : n.Proper) (hm : m.Proper)
    (h : ∀ x y, Stops isInside x → Stops isInside y → n.lead = m.lead → n.tail ++ x = m.tail ++ y →
      n = m ∧ x = y) : Parts (Stops isInside) write n m := by
  intro x y hx hy heq
  rw [write_eq_append, write_eq_append, List.append_assoc, List.append_assoc] at heq
  obtain ⟨hlead, htail⟩ := append_inj_of_stops hn.all_isPlain_lead hm.all_isPlain_lead
    (stops_tail n hx) (stops_tail m hy) heq
  exact h x y hx hy hlead htail

/-- What may follow a note does not open a parenthesis. -/
theorem not_stops_open {x s : List Char} (hx : Stops isInside x) : x ≠ '(' :: s := by
  rintro rfl
  exact absurd (hx '(' rfl) (by decide)

/-- Text up to the first closing parenthesis. -/
theorem until_close_inj {s t x y : List Char} (hs : ')' ∉ s) (ht : ')' ∉ t)
    (h : s ++ [')'] ++ x = t ++ [')'] ++ y) : s = t ∧ x = y := by
  have hall : ∀ {s : List Char}, ')' ∉ s → s.all (· ≠ ')') = true := fun hs =>
    List.all_eq_true.mpr fun c hc => decide_eq_true fun hclose => hs (hclose ▸ hc)
  rw [List.append_assoc, List.append_assoc] at h
  obtain ⟨hst, hxy⟩ := append_inj_of_stops (hall hs) (hall ht) (stops_cons rfl) (stops_cons rfl) h
  exact ⟨hst, (List.cons.inj hxy).2⟩

/-- Items up to their closing bracket. -/
theorem items_inj {ns ms : List Note} {close : Char} {x y : List Char}
    (hclose : isInside close = false) (hne : ',' ≠ close) (hns : ∀ n ∈ ns, n.Proper)
    (hms : ∀ m ∈ ms, m.Proper) (h : ∀ n ∈ ns, ∀ m ∈ ms, Parts (Stops isInside) write n m)
    (heq : [',', ' '].intercalate (ns.map write) ++ [close] ++ x =
      [',', ' '].intercalate (ms.map write) ++ [close] ++ y) : ns = ms ∧ x = y := by
  rw [List.append_assoc, List.append_assoc] at heq
  exact separated_inj (fun _ => stops_cons rfl) (fun _ => stops_cons hclose) hne
    (fun n hn => (hns n hn).write_ne_cons hclose) (fun m hm => (hms m hm).write_ne_cons hclose)
    h heq

/-- **A proper note is read in one way.** -/
theorem Proper.parts {n m : Note} (hn : n.Proper) (hm : m.Proper) :
    Parts (Stops isInside) write n m := by
  induction hn generalizing m with
  | atom hne hplain =>
    refine parts_of_lead_tail (.atom hne hplain) hm fun x y hx hy hlead htail => ?_
    cases hm with
    | atom => exact ⟨congrArg Note.atom hlead, htail⟩
    | literal | node => exact absurd htail (not_stops_open hx)
    | list => exact absurd hlead hne
  | literal hclose =>
    refine parts_of_lead_tail (.literal hclose) hm fun x y hx hy hlead htail => ?_
    cases hm with
    | atom => exact absurd htail.symm (not_stops_open hy)
    | literal hclose' =>
      obtain ⟨rfl, hxy⟩ := until_close_inj hclose hclose' (List.cons.inj htail).2
      exact ⟨rfl, hxy⟩
    | node _ _ hkind => exact absurd hlead.symm hkind
    | list => cases hlead
  | node hne hplain hkind hfields ih =>
    refine parts_of_lead_tail (.node hne hplain hkind hfields) hm fun x y hx hy hlead htail => ?_
    cases hm with
    | atom => exact absurd htail.symm (not_stops_open hy)
    | literal => exact absurd hlead hkind
    | node _ _ _ hfields' =>
      obtain ⟨rfl, hxy⟩ := items_inj rfl (by decide) hfields hfields'
        (fun n hn m hm => ih n hn (hfields' m hm)) (List.cons.inj htail).2
      exact ⟨congrArg (Note.node · _) hlead, hxy⟩
    | list => exact absurd hlead hne
  | list hitems ih =>
    refine parts_of_lead_tail (.list hitems) hm fun x y hx hy hlead htail => ?_
    cases hm with
    | atom hne => exact absurd hlead.symm hne
    | literal => cases hlead
    | node hne => exact absurd hlead.symm hne
    | list hitems' =>
      obtain ⟨rfl, hxy⟩ := items_inj rfl (by decide) hitems hitems'
        (fun n hn m hm => ih n hn (hitems' m hm)) (List.cons.inj htail).2
      exact ⟨rfl, hxy⟩

/-- Notes on lines of their own, each after a tabulator, up to a bracket. -/
theorem lines_inj {ns ms : List Note} {x y : List Char} (hns : ∀ n ∈ ns, n.Proper)
    (hms : ∀ m ∈ ms, m.Proper)
    (h : (ns.flatMap fun n => '\t' :: (n.write ++ ['\n'])) ++ ']' :: x =
      (ms.flatMap fun n => '\t' :: (n.write ++ ['\n'])) ++ ']' :: y) : ns = ms := by
  induction ns generalizing ms with
  | nil =>
    cases ms with
    | nil => rfl
    | cons m ms => exact absurd (List.cons.inj h).1 (by decide)
  | cons n ns ih =>
    cases ms with
    | nil => exact absurd (List.cons.inj h).1 (by decide)
    | cons m ms =>
      obtain ⟨hn, hrest⟩ := List.forall_mem_cons.mp hns
      obtain ⟨hm, hrest'⟩ := List.forall_mem_cons.mp hms
      simp only [List.flatMap_cons, List.cons_append, List.append_assoc, List.nil_append,
        List.cons.injEq, true_and] at h
      obtain ⟨rfl, htail⟩ := hn.parts hm _ _ (stops_cons rfl) (stops_cons rfl) h
      exact congrArg (n :: ·) (ih hrest hrest' (List.cons.inj htail).2)

end Note

end Mt22
