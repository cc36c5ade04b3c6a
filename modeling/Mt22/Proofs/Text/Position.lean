import Mathlib.Data.Prod.Lex
import Mathlib.Order.Monotone.Basic
import Mt22.Text.Position

/-!
# Offsets and positions

A place in a text is an offset in bytes, and it is shown as a line and a column.  The offsets that
are boundaries of characters are the sizes of the first parts of the text (`byteSize_of_isValid`),
and the position of such an offset is the one after that part (`positionAt_append`).

Every character moves the position on, in the order of lines and then of columns
(`Position.key_lt_advance`).  So positions grow with offsets (`positionAt_strictMonoOn`): a position
tells the offset it came from, and two positions tell the text between them (`between_after`).
-/

namespace Mt22.Text

/-! ### Offsets -/

@[simp] theorem byteSize_cons (c : Char) (s : List Char) :
    byteSize (c :: s) = c.utf8Size + byteSize s := rfl

@[simp] theorem byteSize_append (s t : List Char) : byteSize (s ++ t) = byteSize s + byteSize t := by
  induction s with
  | nil => exact (Nat.zero_add _).symm
  | cons c s ih => rw [List.cons_append, byteSize_cons, byteSize_cons, ih, Nat.add_assoc]

theorem byteSize_pos {s : List Char} (h : s ≠ []) : 0 < byteSize s := by
  cases s with
  | nil => exact absurd rfl h
  | cons c s => exact Nat.add_pos_left c.utf8Size_pos _

/-- The bytes of a first part of a text lead to its end. -/
theorem before_append (s t : List Char) : before (byteSize s) (s ++ t) = s := by
  induction s with
  | nil =>
    cases t with
    | nil => rfl
    | cons c t => exact if_neg (Nat.not_le_of_lt c.utf8Size_pos)
  | cons c s ih =>
    rw [byteSize_cons, List.cons_append, before, if_pos (Nat.le_add_right _ _),
      Nat.add_sub_cancel_left, ih]

theorem positionAt_append (s t : List Char) :
    positionAt (s ++ t) (byteSize s) = Position.after s := by
  rw [positionAt, before_append]

theorem byteSize_eq_utf8ByteSize (s : List Char) : byteSize s = (String.ofList s).utf8ByteSize := by
  induction s with
  | nil => rfl
  | cons c s ih =>
    rw [byteSize_cons, ih, ← List.singleton_append, String.ofList_append,
      String.utf8ByteSize_append, ← String.singleton_eq_ofList, String.utf8ByteSize_singleton]

/-- A first part of a text ends on a boundary of characters. -/
theorem isValid_byteSize {s : String} {pre post : List Char} (h : s.toList = pre ++ post) :
    String.Pos.Raw.IsValid s ⟨byteSize pre⟩ := by
  refine String.Pos.Raw.isValid_iff_exists_append.mpr
    ⟨String.ofList pre, String.ofList post, ?_, ?_⟩
  · rw [← String.ofList_append, ← h, String.ofList_toList]
  · rw [byteSize_eq_utf8ByteSize]
    rfl

/-- A boundary of characters ends a first part of the text. -/
theorem byteSize_of_isValid {s : String} {o : Nat} (h : String.Pos.Raw.IsValid s ⟨o⟩) :
    ∃ pre post, s.toList = pre ++ post ∧ byteSize pre = o := by
  obtain ⟨pre, post, rfl, hend⟩ := String.Pos.Raw.isValid_iff_exists_append.mp h
  refine ⟨pre.toList, post.toList, String.toList_append, ?_⟩
  rw [byteSize_eq_utf8ByteSize, String.ofList_toList]
  exact congrArg String.Pos.Raw.byteIdx hend.symm

/-! ### Positions -/

namespace Position

/-- Positions are ordered by their line, and those of one line by their column. -/
def key (p : Position) : ℕ ×ₗ ℕ := toLex (p.line, p.column)

/-- Every character moves the position on. -/
theorem key_lt_advance (p : Position) (c : Char) : p.key < (p.advance c).key := by
  rw [advance]
  split
  · exact Prod.Lex.toLex_lt_toLex.mpr (.inl (Nat.lt_succ_self p.line))
  · exact Prod.Lex.toLex_lt_toLex.mpr (.inr ⟨rfl, Nat.lt_succ_self p.column⟩)

/-- The position after a text that starts at `p`. -/
def through (p : Position) (s : List Char) : Position := s.foldl advance p

theorem after_append (s t : List Char) : after (s ++ t) = (after s).through t := List.foldl_append

theorem key_le_through (p : Position) (s : List Char) : p.key ≤ (p.through s).key := by
  induction s generalizing p with
  | nil => exact le_refl _
  | cons c s ih => exact (p.key_lt_advance c).le.trans (ih (p.advance c))

theorem key_lt_through (p : Position) {s : List Char} (h : s ≠ []) : p.key < (p.through s).key := by
  cases s with
  | nil => exact absurd rfl h
  | cons c s => exact (p.key_lt_advance c).trans_le ((p.advance c).key_le_through s)

/-- The position after a text that starts at `p` and is read line by line: a line ends with `\n` or
with `\r\n`, and any other character, a `\r` by itself included, is a column. -/
def throughLines : Position → List Char → Position
  | p, [] => p
  | p, '\r' :: '\n' :: rest => throughLines ⟨p.line + 1, 1⟩ rest
  | p, '\n' :: rest => throughLines ⟨p.line + 1, 1⟩ rest
  | p, _ :: rest => throughLines ⟨p.line, p.column + 1⟩ rest

/-- A carriage return before a line feed moves the column, and the line feed then starts the next
line all the same. -/
theorem through_eq_throughLines (p : Position) (s : List Char) :
    p.through s = p.throughLines s := by
  fun_induction throughLines p s with
  | case1 => rfl
  | case2 p rest ih => exact ih
  | case3 p rest ih => exact ih
  | case4 p c rest _ hc ih =>
    have hstep : p.advance c = ⟨p.line, p.column + 1⟩ := if_neg hc
    rw [← ih, ← hstep]
    rfl

end Position

open Position

/-- **Positions grow with offsets**, as long as these are boundaries of characters. -/
theorem positionAt_strictMonoOn (s : String) :
    StrictMonoOn (fun o => (positionAt s.toList o).key)
      {o | String.Pos.Raw.IsValid s ⟨o⟩} := by
  intro a ha b hb hab
  obtain ⟨pre, post, hs, rfl⟩ := byteSize_of_isValid ha
  obtain ⟨pre', post', hs', rfl⟩ := byteSize_of_isValid hb
  -- of two first parts of one text, the longer one starts with the shorter one
  obtain ⟨mid, rfl⟩ : ∃ mid, pre' = pre ++ mid := by
    rcases List.append_eq_append_iff.mp (hs.symm.trans hs') with ⟨mid, rfl, -⟩ | ⟨mid, rfl, -⟩
    · exact ⟨mid, rfl⟩
    · rw [byteSize_append] at hab
      omega
  have hmid : mid ≠ [] := by
    rintro rfl
    rw [List.append_nil] at hab
    exact lt_irrefl _ hab
  have hleft : positionAt s.toList (byteSize pre) = after pre := by
    rw [hs, positionAt_append]
  have hright : positionAt s.toList (byteSize (pre ++ mid)) = (after pre).through mid := by
    rw [hs', positionAt_append, after_append]
  show (positionAt s.toList (byteSize pre)).key < (positionAt s.toList (byteSize (pre ++ mid))).key
  rw [hleft, hright]
  exact key_lt_through _ hmid

/-! ### Texts between two positions -/

/-- The characters at the position `p` and after it, but before `q`, of a text that starts at
`here`. -/
def betweenFrom (p q : Position) : Position → List Char → List Char
  | _, [] => []
  | here, c :: rest =>
    if p.key ≤ here.key ∧ here.key < q.key then c :: betweenFrom p q (here.advance c) rest
    else betweenFrom p q (here.advance c) rest

/-- The part of a text between two positions. -/
def between (p q : Position) (text : List Char) : List Char := betweenFrom p q first text

section Between

variable {p q here : Position} {s : List Char}

theorem betweenFrom_append (p q here : Position) (s t : List Char) :
    betweenFrom p q here (s ++ t) =
      betweenFrom p q here s ++ betweenFrom p q (here.through s) t := by
  induction s generalizing here with
  | nil => rfl
  | cons c s ih =>
    rw [List.cons_append, betweenFrom, betweenFrom, ih]
    split <;> rfl

theorem betweenFrom_left (h : (here.through s).key ≤ p.key) : betweenFrom p q here s = [] := by
  induction s generalizing here with
  | nil => rfl
  | cons c s ih =>
    have hlt : here.key < p.key :=
      (here.key_lt_advance c).trans_le (((here.advance c).key_le_through s).trans h)
    rw [betweenFrom, if_neg fun hin => absurd hin.1 hlt.not_ge, ih h]

theorem betweenFrom_inside (hp : p.key ≤ here.key) (hq : (here.through s).key ≤ q.key) :
    betweenFrom p q here s = s := by
  induction s generalizing here with
  | nil => rfl
  | cons c s ih =>
    have hlt : here.key < q.key :=
      (here.key_lt_advance c).trans_le (((here.advance c).key_le_through s).trans hq)
    rw [betweenFrom, if_pos ⟨hp, hlt⟩, ih (hp.trans (here.key_lt_advance c).le) hq]

theorem betweenFrom_right (h : q.key ≤ here.key) : betweenFrom p q here s = [] := by
  induction s generalizing here with
  | nil => rfl
  | cons c s ih =>
    rw [betweenFrom, if_neg fun hin => absurd hin.2 h.not_gt,
      ih (h.trans (here.key_lt_advance c).le)]

end Between

/-- **Two positions tell the text between them.** -/
theorem between_after (pre mid post : List Char) :
    between (after pre) (after (pre ++ mid)) (pre ++ mid ++ post) = mid := by
  have hleft : betweenFrom (after pre) (after (pre ++ mid)) first pre = [] :=
    betweenFrom_left (le_refl _)
  have hinside : betweenFrom (after pre) (after (pre ++ mid)) (first.through pre) mid = mid :=
    betweenFrom_inside (le_refl _) (le_of_eq (congrArg key (after_append pre mid).symm))
  have hright : betweenFrom (after pre) (after (pre ++ mid)) (first.through (pre ++ mid)) post = [] :=
    betweenFrom_right (le_refl _)
  rw [between, betweenFrom_append, betweenFrom_append, hleft, hinside, hright, List.nil_append,
    List.append_nil]

end Mt22.Text
