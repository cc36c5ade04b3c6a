import Mt22.Proofs.Token.Class
import Mt22.Proofs.Trivia

/-!
# Comments and strings that a text leaves open

A text may end in the middle of a comment or of a string.  `Zone.after z s` goes through the text `s`
from a place in the zone `z`, and tells the zone in which it ends.

Blank texts and whole strings leave nothing open (`Zone.after_blank`, `Zone.after_string`), and a text
that ends inside of trivia leaves a comment open (`Zone.after_trivia`).  What comes before a character
that is part of no mark says all that is needed to go on from there (`Zone.after_append_cons`).
-/

namespace Mt22

open Mt22.Trivia Mt22.Token

/-- What a place in a text is in: a line comment, a block comment, a string, or none of these. -/
inductive Zone where
  | code | line | block | string
deriving DecidableEq

namespace Zone

/-- The zone in which a text ends. -/
def after : Zone → List Char → Zone
  | z, [] => z
  | code, '/' :: '/' :: s => after line s
  | code, '/' :: '*' :: s => after block s
  | code, '"' :: s => after string s
  | code, _ :: s => after code s
  | line, c :: s => after (if isLineEnd c then code else line) s
  | block, '*' :: '/' :: s => after code s
  | block, _ :: s => after block s
  | string, '\\' :: _ :: s => after string s
  | string, '"' :: s => after code s
  | string, _ :: s => after string s

/-- A character of the marks with which comments, strings and escapes start and end. -/
def isMark (c : Char) : Bool := c ∈ ['/', '*', '"', '\\']

/-- **A text can be cut before a character that is part of no mark.** -/
theorem after_append_cons {c : Char} (hc : isMark c = false) (z : Zone) (u s : List Char) :
    after z (u ++ c :: s) = after (after z u) (c :: s) := by
  simp only [isMark, List.mem_cons, List.not_mem_nil, or_false, decide_eq_false_iff_not,
    not_or] at hc
  have hhead : ∀ {d : Char} {u r : List Char}, c ≠ d → u ++ c :: s = d :: r →
      ∃ r', u = d :: r' := by
    intro d u r hne h
    cases u with
    | nil => exact absurd (List.cons.inj h).1 hne
    | cons e u => exact ⟨u, by rw [(List.cons.inj h).1]⟩
  fun_induction after z u with
  | case1 => rfl
  | case2 u ih | case3 u ih | case4 u ih | case7 u ih | case10 u ih => exact ih
  | case6 d u ih => rw [List.cons_append, after, ih]
  | case9 d u ih => exact ih
  | case5 d u hline hblock hquote ih =>
    rw [List.cons_append, after, ih]
    · intro r hd hr
      obtain ⟨r', hu⟩ := hhead hc.1 hr
      exact hline r' hd hu
    · intro r hd hr
      obtain ⟨r', hu⟩ := hhead hc.2.1 hr
      exact hblock r' hd hu
    · exact hquote
  | case8 d u hclose ih =>
    rw [List.cons_append, after, ih]
    intro r hd hr
    obtain ⟨r', hu⟩ := hhead hc.1 hr
    exact hclose r' hd hu
  | case11 d u hescape hquote ih =>
    by_cases hd : d = '\\'
    · -- the escape has its character after the text
      cases u with
      | nil =>
        subst hd
        show after string s = after string (c :: s)
        rw [after]
        · exact fun _ _ h => absurd h hc.2.2.2
        · exact fun h => absurd h hc.2.2.1
      | cons e u => exact absurd rfl (hescape e u hd)
    · rw [List.cons_append, after, ih]
      · exact fun _ _ h => absurd h hd
      · exact hquote

/-! ### Comments -/

theorem after_cons_of_isSpace {c : Char} (h : isSpace c = true) (s : List Char) :
    after code (c :: s) = after code s := by
  simp only [isSpace, Bool.or_eq_true, decide_eq_true_eq] at h
  rcases h with (((rfl | rfl) | rfl) | rfl) | rfl <;> rfl

/-- A line comment goes on where no line ends. -/
theorem after_line {b : List Char} (h : ∀ x ∈ b, isLineEnd x = false) (s : List Char) :
    after line (b ++ s) = after line s := by
  induction b with
  | nil => rfl
  | cons c b ih =>
    obtain ⟨hc, hb⟩ := List.forall_mem_cons.mp h
    rw [List.cons_append, after, hc]
    exact ih hb

theorem after_lineEnd {c : Char} (h : isLineEnd c = true) (s : List Char) :
    after line (c :: s) = after code s := by
  rw [after, if_pos h]

/-- A block comment goes on where no mark closes it. -/
theorem after_block {b : List Char} (h : ¬ ['*', '/'] <:+: b) : after block b = block := by
  induction b with
  | nil => rfl
  | cons c b ih =>
    rw [List.infix_cons_iff, not_or] at h
    rw [after, ih h.2]
    rintro r rfl rfl
    exact h.1 ⟨r, rfl⟩

theorem after_block_close {b : List Char} (h : ¬ ['*', '/'] <:+: b ++ ['*']) (s : List Char) :
    after block (b ++ '*' :: '/' :: s) = after code s := by
  induction b with
  | nil => rfl
  | cons c b ih =>
    have htail : ¬ ['*', '/'] <:+: b ++ ['*'] := fun hb => h (hb.trans (List.suffix_cons c _).isInfix)
    rw [List.cons_append, after, ih htail]
    rintro r rfl hr
    exact not_closing_append h s (hr ▸ ⟨r, rfl⟩)

/-- **A blank text leaves nothing open.** -/
theorem after_blank {v : List Char} (h : Blank v) (s : List Char) :
    after code (v ++ s) = after code s := by
  induction h with
  | nil => rfl
  | space hc _ ih => rw [List.cons_append, after_cons_of_isSpace hc, ih]
  | @block b v hb _ ih =>
    show after Zone.block (b ++ '*' :: '/' :: v ++ s) = _
    rw [List.append_assoc]
    exact (after_block_close hb _).trans ih
  | @line b v c hb hc _ ih =>
    show after Zone.line (b ++ c :: v ++ s) = _
    rw [List.append_assoc, after_line hb]
    exact (after_lineEnd hc _).trans ih

/-- A text that ends inside of a block comment, or after it. -/
theorem after_block_cut {b v p q : List Char} {c : Char} (hb : ¬ ['*', '/'] <:+: b ++ ['*'])
    (hstar : c ≠ '*') (hslash : c ≠ '/') (h : b ++ '*' :: '/' :: v = p ++ c :: q) :
    (∃ p', p = b ++ '*' :: '/' :: p' ∧ v = p' ++ c :: q) ∨ after block p = block ∧ '*' ∈ q := by
  rcases List.append_eq_append_iff.mp h with ⟨x, hp, hx⟩ | ⟨x, hp, hx⟩
  · cases x with
    | nil => exact absurd (List.cons.inj hx).1.symm hstar
    | cons d x =>
      obtain ⟨rfl, hslashed⟩ := List.cons.inj hx
      cases x with
      | nil => exact absurd (List.cons.inj hslashed).1.symm hslash
      | cons e x =>
        obtain ⟨rfl, hv⟩ := List.cons.inj hslashed
        exact .inl ⟨x, hp, hv⟩
  · cases x with
    | nil => exact absurd (List.cons.inj hx).1 hstar
    | cons d x =>
      refine .inr ⟨after_block fun hin => hb ?_, ?_⟩
      · rw [hp, List.append_assoc]
        exact hin.trans (List.prefix_append p _).isInfix
      · rw [(List.cons.inj hx).2]
        simp

/-- A text that ends inside of a line comment, or after it. -/
theorem after_line_cut {b v p q : List Char} {c : Char} (hb : ∀ x ∈ b, isLineEnd x = false)
    (h : b ++ v = p ++ c :: q) :
    (∃ d p', p = b ++ d :: p' ∧ v = d :: p' ++ c :: q) ∨ after line p = line := by
  rcases List.append_eq_append_iff.mp h with ⟨x, rfl, hx⟩ | ⟨x, rfl, -⟩
  · cases x with
    | nil => exact .inr (after_line hb [])
    | cons d x => exact .inl ⟨d, x, rfl, hx⟩
  · have hline := after_line (b := p) (fun y hy => hb y (List.mem_append_left _ hy)) []
    rw [List.append_nil] at hline
    exact .inr hline

/-- The mark with which a comment starts stands before a character that is part of no mark. -/
theorem open_cut {c d : Char} {s p q : List Char} (hc : isMark c = false) (hd : isMark d = true)
    (h : '/' :: d :: s = p ++ c :: q) : ∃ p', p = '/' :: d :: p' ∧ s = p' ++ c :: q := by
  cases p with
  | nil =>
    rw [← (List.cons.inj h).1] at hc
    cases hc
  | cons e p =>
    obtain ⟨rfl, htail⟩ := List.cons.inj h
    cases p with
    | nil =>
      rw [← (List.cons.inj htail).1, hd] at hc
      cases hc
    | cons e p =>
      obtain ⟨rfl, hs⟩ := List.cons.inj htail
      exact ⟨p, rfl, hs⟩

/-- **A text that ends inside of trivia leaves a comment open**, which in the case of a block comment
is closed later on. -/
theorem after_trivia {v r p q : List Char} {c : Char} (h : Run v r) (hv : v = p ++ c :: q)
    (hspace : isSpace c = false) (hmark : isMark c = false) :
    after code p = line ∨ after code p = block ∧ '*' ∈ q := by
  induction h generalizing p with
  | nil => simp at hv
  | space hd _ ih =>
    cases p with
    | nil =>
      rw [(List.cons.inj hv).1, hspace] at hd
      cases hd
    | cons e p =>
      obtain ⟨rfl, htail⟩ := List.cons.inj hv
      rw [after_cons_of_isSpace hd]
      exact ih htail
  | @block b _ _ hb _ ih =>
    obtain ⟨p, rfl, htail⟩ := open_cut hmark (d := '*') rfl hv
    have hstar : c ≠ '*' := by
      rintro rfl
      cases hmark
    have hslash : c ≠ '/' := by
      rintro rfl
      cases hmark
    rcases after_block_cut hb hstar hslash htail with ⟨p', rfl, hp'⟩ | hopen
    · have hcode : after code ('/' :: '*' :: (b ++ '*' :: '/' :: p')) = after code p' :=
        after_block_close hb p'
      rw [hcode]
      exact ih hp'
    · exact .inr hopen
  | @line b _ _ d hb hd _ ih =>
    obtain ⟨p, rfl, htail⟩ := open_cut hmark (d := '/') rfl hv
    rcases after_line_cut hb htail with ⟨e, p', rfl, hrest⟩ | hopen
    · obtain ⟨rfl, hp'⟩ := List.cons.inj hrest
      have hcode : after code ('/' :: '/' :: (b ++ d :: p')) = after code p' :=
        (after_line hb _).trans (after_lineEnd hd p')
      rw [hcode]
      exact ih hp'
    · exact .inl hopen
  | @lastLine b hb =>
    obtain ⟨p, rfl, rfl⟩ := open_cut hmark (d := '/') rfl hv
    have hline := after_line (b := p) (fun x hx => hb x (List.mem_append_left _ hx)) []
    rw [List.append_nil] at hline
    exact .inl hline

/-! ### Strings -/

theorem after_string_cons {c : Char} (h : isOrdinary c = true) (s : List Char) :
    after string (c :: s) = after string s := by
  simp only [isOrdinary, Bool.and_eq_true, decide_eq_true_eq] at h
  rw [after]
  · exact fun _ _ hc => absurd hc h.1.1.2
  · exact fun hc => absurd hc h.1.1.1

/-- **A string leaves nothing open.** -/
theorem after_string {b : List Char} (h : isStringBody b = true) (s : List Char) :
    after string (b ++ '"' :: s) = after code s := by
  obtain ⟨units, rfl, hunits⟩ := isStringBody_iff.mp h
  clear h
  induction units with
  | nil => rfl
  | cons u units ih =>
    obtain ⟨hu, hrest⟩ := List.forall_mem_cons.mp hunits
    rw [List.flatten_cons, List.append_assoc]
    rcases hu with ⟨c, rfl, -⟩ | ⟨c, rfl, hc⟩
    · exact ih hrest
    · rw [List.singleton_append, after_string_cons hc, ih hrest]

/-- A text that ends inside of a string leaves it open. -/
theorem after_string_cut {b p q : List Char} (h : isStringBody b = true) (hb : b = p ++ q) :
    after string p = string := by
  obtain ⟨units, rfl, hunits⟩ := isStringBody_iff.mp h
  clear h
  induction units generalizing p with
  | nil =>
    rw [(List.append_eq_nil_iff.mp hb.symm).1]
    rfl
  | cons u units ih =>
    obtain ⟨hu, hrest⟩ := List.forall_mem_cons.mp hunits
    cases p with
    | nil => rfl
    | cons d p =>
      rcases hu with ⟨c, rfl, -⟩ | ⟨c, rfl, hc⟩
      · obtain ⟨rfl, htail⟩ := List.cons.inj hb
        cases p with
        | nil => rfl
        | cons e p =>
          show after string p = string
          exact ih hrest (List.cons.inj htail).2
      · obtain ⟨rfl, htail⟩ := List.cons.inj hb
        rw [after_string_cons hc]
        exact ih hrest htail

end Zone

end Mt22
