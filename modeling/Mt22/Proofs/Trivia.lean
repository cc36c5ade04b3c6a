import Mt22.Grammar.Trivia

/-!
# What is left after trivia

`Trivia.skip` takes the longest run of white space and comments.  Reading never looks at the run
itself, so its theory is that of the text left after it, `Trivia.after`: it is a tail of the
text, no piece of trivia stands at its start (`piece?_after`), and a text with no piece at its
start is left as it is (`after_of_piece?_none`).

The number of pieces that `skip` may take is bounded by the length of the text.  Every piece has
a character, so the bound is never met (`pieces_eq_of_length_le`), and `after` can be unrolled one
piece at a time (`after_of_piece?`).

A `Blank` text consists of white space and complete comments.  It can stand before any text without
a trace (`after_blank`).  What `skip` takes is a `Run` of trivia (`run_skip`).  This is blank, unless
the whole text ends there (`Run.blank`): only then may a line comment lack the end of its line.
-/

namespace Mt22.Trivia

/-- What is left of a text after the trivia at its start. -/
def after (s : List Char) : List Char := (skip s).2

/-! ### Pieces -/

theorem closeBlock?_append : ∀ {s text rest : List Char},
    closeBlock? s = some (text, rest) → text ++ rest = s := by
  intro s
  fun_induction closeBlock? s with
  | case1 r =>
    intro text rest h
    obtain ⟨rfl, rfl⟩ : ['*', '/'] = text ∧ r = rest := by simpa using h
    rfl
  | case2 c r _ ih =>
    intro text rest h
    obtain ⟨⟨t, a⟩, ht, he⟩ := Option.map_eq_some_iff.mp h
    obtain ⟨rfl, rfl⟩ : c :: t = text ∧ a = rest := by simpa using he
    rw [List.cons_append, ih ht]
  | case3 => intro text rest h; simp at h

/-- A piece of trivia is some of the text, and not nothing. -/
theorem piece?_append {s text rest : List Char} (h : piece? s = some (text, rest)) :
    text ++ rest = s ∧ text ≠ [] := by
  unfold piece? at h
  split at h
  · obtain ⟨⟨t, a⟩, ht, he⟩ := Option.map_eq_some_iff.mp h
    obtain ⟨rfl, rfl⟩ : '/' :: '*' :: t = text ∧ a = rest := by simpa using he
    exact ⟨by simp [closeBlock?_append ht], by simp⟩
  · next r =>
    obtain ⟨rfl, rfl⟩ : '/' :: '/' :: r.takeWhile (!isLineEnd ·) = text ∧
        r.dropWhile (!isLineEnd ·) = rest := by simpa using h
    exact ⟨by simp [List.takeWhile_append_dropWhile], by simp⟩
  · next c r _ _ =>
    split at h
    · obtain ⟨rfl, rfl⟩ : [c] = text ∧ r = rest := by simpa using h
      exact ⟨rfl, by simp⟩
    · simp at h
  · simp at h

theorem piece?_length {s text rest : List Char} (h : piece? s = some (text, rest)) :
    rest.length < s.length := by
  obtain ⟨rfl, hn⟩ := piece?_append h
  have := List.length_pos_iff.mpr hn
  rw [List.length_append]
  omega

/-- Once there is room for all pieces, more room changes nothing. -/
theorem pieces_eq_of_length_le : ∀ (l l' s : List Char), s.length ≤ l.length →
    s.length ≤ l'.length → pieces l s = pieces l' s := by
  intro l
  induction l with
  | nil =>
    intro l' s hl _
    obtain rfl : s = [] := List.length_eq_zero_iff.mp (by simpa using hl)
    cases l' with
    | nil => rfl
    | cons => simp [pieces, piece?]
  | cons a l ih =>
    intro l' s hl hl'
    cases l' with
    | nil =>
      obtain rfl : s = [] := List.length_eq_zero_iff.mp (by simpa using hl')
      simp [pieces, piece?]
    | cons b l' =>
      simp only [pieces]
      cases hp : piece? s with
      | none => rfl
      | some p =>
        have hlt := piece?_length hp
        simp only [List.length_cons] at hl hl'
        simp only [ih l' p.2 (by omega) (by omega)]

theorem pieces_append : ∀ (l s : List Char), (pieces l s).1 ++ (pieces l s).2 = s := by
  intro l
  induction l with
  | nil => intro s; rfl
  | cons a l ih =>
    intro s
    simp only [pieces]
    cases hp : piece? s with
    | none => rfl
    | some p =>
      simp only [List.append_assoc]
      rw [ih p.2, (piece?_append hp).1]

theorem skip_append (s : List Char) : (skip s).1 ++ (skip s).2 = s := pieces_append s s

/-! ### One piece at a time -/

theorem skip_of_piece?_none {s : List Char} (h : piece? s = none) : skip s = ([], s) := by
  cases s with
  | nil => rfl
  | cons c r => simp [skip, pieces, h]

@[simp] theorem after_of_piece?_none {s : List Char} (h : piece? s = none) : after s = s := by
  rw [after, skip_of_piece?_none h]

theorem after_of_piece? {s text rest : List Char} (h : piece? s = some (text, rest)) :
    after s = after rest := by
  have hlt := piece?_length h
  cases s with
  | nil => simp [piece?] at h
  | cons c r =>
    simp only [List.length_cons] at hlt
    simp only [after, skip, pieces, h]
    rw [pieces_eq_of_length_le r rest rest (by omega) (Nat.le_refl _)]

theorem piece?_after (s : List Char) : piece? (after s) = none := by
  induction hn : s.length using Nat.strongRecOn generalizing s with
  | ind n ih =>
    cases hp : piece? s with
    | none => rw [after_of_piece?_none hp, hp]
    | some p =>
      have hlt := piece?_length hp
      rw [after_of_piece? hp]
      exact ih p.2.length (by omega) p.2 rfl

@[simp] theorem after_after (s : List Char) : after (after s) = after s :=
  after_of_piece?_none (piece?_after s)

@[simp] theorem after_space (s : List Char) : after (' ' :: s) = after s :=
  after_of_piece? (show piece? (' ' :: s) = some ([' '], s) by simp [piece?, isSpace])

/-! ### No trivia here -/

@[simp] theorem piece?_nil : piece? [] = none := rfl

theorem piece?_cons_eq_none {c : Char} (hc : isSpace c = false) (hs : c ≠ '/') (s : List Char) :
    piece? (c :: s) = none := by
  unfold piece?
  split
  · next h => exact absurd (List.cons.inj h).1 hs
  · next h => exact absurd (List.cons.inj h).1 hs
  · next h =>
    obtain ⟨rfl, rfl⟩ := List.cons.inj h
    rw [if_neg (by simp [hc])]
  · rfl

theorem piece?_slash_space (s : List Char) : piece? ('/' :: ' ' :: s) = none := by
  simp [piece?, isSpace]

/-! ### Blank texts -/

/-- White space and complete comments: a block comment up to the first closing mark, or a line
comment with the end of its line. -/
inductive Blank : List Char → Prop
  | nil : Blank []
  | space {c : Char} {v : List Char} (hc : isSpace c = true) (hv : Blank v) : Blank (c :: v)
  | block {b v : List Char} (hb : ¬ ['*', '/'] <:+: b ++ ['*']) (hv : Blank v) :
      Blank ('/' :: '*' :: (b ++ '*' :: '/' :: v))
  | line {b v : List Char} {c : Char} (hb : ∀ x ∈ b, isLineEnd x = false) (hc : isLineEnd c = true)
      (hv : Blank v) : Blank ('/' :: '/' :: (b ++ c :: v))

theorem isSpace_of_isLineEnd {c : Char} (h : isLineEnd c = true) : isSpace c = true := by
  simp only [isLineEnd, Bool.or_eq_true, decide_eq_true_eq] at h
  rcases h with rfl | rfl <;> decide

theorem piece?_space {c : Char} (h : isSpace c = true) (s : List Char) :
    piece? (c :: s) = some ([c], s) := by
  simp only [isSpace, Bool.or_eq_true, decide_eq_true_eq] at h
  rcases h with (((rfl | rfl) | rfl) | rfl) | rfl <;> rfl

theorem after_cons_of_isSpace {c : Char} (h : isSpace c = true) (s : List Char) :
    after (c :: s) = after s :=
  after_of_piece? (piece?_space h s)

/-- No closing mark stands where the comment has yet to go on. -/
theorem not_closing_append {c : Char} {b : List Char}
    (h : ¬ ['*', '/'] <:+: c :: b ++ ['*']) (rest : List Char) :
    ¬ ['*', '/'] <+: c :: (b ++ '*' :: '/' :: rest) := by
  rintro ⟨r, hr⟩
  cases b with
  | nil => simp at hr
  | cons d b =>
    simp only [List.cons_append, List.nil_append, List.cons.injEq] at hr
    obtain ⟨rfl, rfl, -⟩ := hr
    exact h (List.IsPrefix.isInfix ⟨b ++ ['*'], rfl⟩)

/-- A block comment ends at the first closing mark. -/
theorem closeBlock?_complete {b : List Char} (h : ¬ ['*', '/'] <:+: b ++ ['*']) (rest : List Char) :
    closeBlock? (b ++ '*' :: '/' :: rest) = some (b ++ ['*', '/'], rest) := by
  induction b with
  | nil => rfl
  | cons c b ih =>
    have htail : ¬ ['*', '/'] <:+: b ++ ['*'] := fun hb => h (hb.trans (List.suffix_cons c _).isInfix)
    have hfirst : ∀ r, c = '*' → b ++ '*' :: '/' :: rest = '/' :: r → False := by
      rintro r rfl hr
      exact not_closing_append h rest (hr ▸ ⟨r, rfl⟩)
    rw [List.cons_append, closeBlock?.eq_2 _ _ hfirst, ih htail]
    rfl

theorem closeBlock?_sound : ∀ {s text rest : List Char}, closeBlock? s = some (text, rest) →
    ∃ b, text = b ++ ['*', '/'] ∧ ¬ ['*', '/'] <:+: b ++ ['*'] := by
  intro s
  fun_induction closeBlock? s with
  | case1 r =>
    intro text rest h
    obtain ⟨rfl, rfl⟩ : ['*', '/'] = text ∧ r = rest := by simpa using h
    exact ⟨[], rfl, by decide⟩
  | case2 c r hfirst ih =>
    intro text rest h
    obtain ⟨⟨t, a⟩, ht, he⟩ := Option.map_eq_some_iff.mp h
    obtain ⟨rfl, rfl⟩ : c :: t = text ∧ a = rest := by simpa using he
    obtain ⟨b, rfl, hb⟩ := ih ht
    refine ⟨c :: b, rfl, ?_⟩
    rw [List.cons_append, List.infix_cons_iff]
    rintro (hpre | hin)
    · -- the mark would stand at the start of the text
      have hr := closeBlock?_append ht
      obtain ⟨x, hx⟩ := hpre
      cases b with
      | nil => cases hx
      | cons d b =>
        simp only [List.cons_append, List.nil_append, List.cons.injEq] at hx
        exact hfirst _ hx.1.symm (by rw [← hr, ← hx.2.1]; rfl)
    · exact hb hin
  | case3 => intro text rest h; simp at h

/-- A line comment ends before the end of its line. -/
theorem piece?_line {b : List Char} {c : Char} (hb : ∀ x ∈ b, isLineEnd x = false)
    (hc : isLineEnd c = true) (s : List Char) :
    piece? ('/' :: '/' :: (b ++ c :: s)) = some ('/' :: '/' :: b, c :: s) := by
  have hpos : ∀ x ∈ b, (!isLineEnd x) = true := fun x hx => by rw [hb x hx]; rfl
  simp only [piece?, List.takeWhile_append_of_pos hpos, List.dropWhile_append_of_pos hpos]
  rw [List.takeWhile_cons_of_neg (by simp [hc]), List.dropWhile_cons_of_neg (by simp [hc]),
    List.append_nil]

/-- **A blank text can stand before any text without a trace.** -/
theorem after_blank {v : List Char} (h : Blank v) (s : List Char) : after (v ++ s) = after s := by
  induction h with
  | nil => rfl
  | space hc _ ih => rw [List.cons_append, after_cons_of_isSpace hc, ih]
  | @block b v hb _ ih =>
    have hp : piece? ('/' :: '*' :: (b ++ '*' :: '/' :: v) ++ s) =
        some ('/' :: '*' :: (b ++ ['*', '/']), v ++ s) := by
      simp [piece?, closeBlock?_complete hb]
    rw [after_of_piece? hp, ih]
  | @line b v c hb hc _ ih =>
    have hp : piece? ('/' :: '/' :: (b ++ c :: v) ++ s) = some ('/' :: '/' :: b, c :: (v ++ s)) := by
      simpa using piece?_line hb hc (v ++ s)
    rw [after_of_piece? hp, after_cons_of_isSpace (isSpace_of_isLineEnd hc), ih]

/-- A text of white space is blank. -/
theorem blank_of_all_isSpace {v : List Char} (h : v.all isSpace = true) : Blank v := by
  induction v with
  | nil => exact .nil
  | cons c v ih =>
    rw [List.all_cons, Bool.and_eq_true] at h
    exact .space h.1 (ih h.2)

/-- What a piece of trivia is. -/
theorem piece?_cases {s text rest : List Char} (h : piece? s = some (text, rest)) :
    (∃ c, text = [c] ∧ isSpace c = true) ∨
    (∃ b, text = '/' :: '*' :: (b ++ ['*', '/']) ∧ ¬ ['*', '/'] <:+: b ++ ['*']) ∨
    ∃ b, text = '/' :: '/' :: b ∧ (∀ x ∈ b, isLineEnd x = false) ∧
      ∀ c r, rest = c :: r → isLineEnd c = true := by
  unfold piece? at h
  split at h
  · obtain ⟨⟨t, a⟩, ht, he⟩ := Option.map_eq_some_iff.mp h
    obtain ⟨rfl, rfl⟩ : '/' :: '*' :: t = text ∧ a = rest := by simpa using he
    obtain ⟨b, rfl, hb⟩ := closeBlock?_sound ht
    exact .inr (.inl ⟨b, rfl, hb⟩)
  · next r =>
    obtain ⟨rfl, hr⟩ : '/' :: '/' :: r.takeWhile (!isLineEnd ·) = text ∧
        r.dropWhile (!isLineEnd ·) = rest := by simpa using h
    refine .inr (.inr ⟨_, rfl, ?_, ?_⟩)
    · intro x hx
      simpa using List.all_eq_true.mp (List.all_takeWhile (p := (!isLineEnd ·)) (l := r)) x hx
    · rintro c r' rfl
      have := List.head?_dropWhile_not (!isLineEnd ·) r
      simpa [hr] using this
  · next c r _ _ =>
    split at h
    · next hc =>
      obtain ⟨rfl, rfl⟩ : [c] = text ∧ r = rest := by simpa using h
      exact .inl ⟨c, rfl, hc⟩
    · simp at h
  · simp at h

/-- What `skip` takes is one piece after the other. -/
theorem skip_of_piece? {s text rest : List Char} (h : piece? s = some (text, rest)) :
    skip s = (text ++ (skip rest).1, after rest) := by
  have hlt := piece?_length h
  cases s with
  | nil => simp [piece?] at h
  | cons c r =>
    simp only [List.length_cons] at hlt
    simp only [skip, pieces, h, after]
    rw [pieces_eq_of_length_le r rest rest (by omega) (Nat.le_refl _)]

/-! ### Runs of trivia -/

/-- The first text is all the trivia that stands before the second.  It is blank, but for a line
comment with which the whole text ends. -/
inductive Run : List Char → List Char → Prop
  | nil {r : List Char} (h : piece? r = none) : Run [] r
  | space {c : Char} {v r : List Char} (hc : isSpace c = true) (hv : Run v r) : Run (c :: v) r
  | block {b v r : List Char} (hb : ¬ ['*', '/'] <:+: b ++ ['*']) (hv : Run v r) :
      Run ('/' :: '*' :: (b ++ '*' :: '/' :: v)) r
  | line {b v r : List Char} {c : Char} (hb : ∀ x ∈ b, isLineEnd x = false)
      (hc : isLineEnd c = true) (hv : Run v r) : Run ('/' :: '/' :: (b ++ c :: v)) r
  | lastLine {b : List Char} (hb : ∀ x ∈ b, isLineEnd x = false) : Run ('/' :: '/' :: b) []

/-- **What `skip` takes is a run of trivia.** -/
theorem run_skip (s : List Char) : Run (skip s).1 (after s) := by
  induction hn : s.length using Nat.strongRecOn generalizing s with
  | ind n ih =>
    cases hp : piece? s with
    | none =>
      rw [after_of_piece?_none hp, skip_of_piece?_none hp]
      exact .nil hp
    | some p =>
      obtain ⟨text, rest⟩ := p
      have hlt := piece?_length hp
      have hrest := ih rest.length (by omega) rest rfl
      rw [after_of_piece? hp, skip_of_piece? hp]
      rcases piece?_cases hp with ⟨c, rfl, hc⟩ | ⟨b, rfl, hb⟩ | ⟨b, rfl, hb, hend⟩
      · exact .space hc hrest
      · simpa using Run.block hb hrest
      · -- the end of the line is a space of its own, if the text goes on
        cases rest with
        | nil =>
          rw [after_of_piece?_none piece?_nil, skip_of_piece?_none piece?_nil, List.append_nil]
          exact .lastLine hb
        | cons c r =>
          have hc := hend c r rfl
          have hspace := isSpace_of_isLineEnd hc
          rw [List.length_cons] at hlt
          rw [after_cons_of_isSpace hspace, skip_of_piece? (piece?_space hspace r)]
          exact .line hb hc (ih r.length (by omega) r rfl)

theorem run_of_skip {s v r : List Char} (h : skip s = (v, r)) : Run v r := by
  have hrun := run_skip s
  rwa [after, h] at hrun

/-- A run of trivia before something is blank. -/
theorem Run.blank {v r : List Char} (h : Run v r) (hr : r ≠ []) : Blank v := by
  induction h with
  | nil => exact .nil
  | space hc _ ih => exact .space hc (ih hr)
  | block hb _ ih => exact .block hb (ih hr)
  | line hb hc _ ih => exact .line hb hc (ih hr)
  | lastLine => exact absurd rfl hr

/-- A run of trivia is blank once its last line has ended. -/
theorem Run.blank_append {v r : List Char} (h : Run v r) {c : Char} (hc : isLineEnd c = true) :
    Blank (v ++ [c]) := by
  induction h with
  | nil => exact .space (isSpace_of_isLineEnd hc) .nil
  | space hd _ ih => exact .space hd ih
  | block hb _ ih => simpa using Blank.block hb ih
  | line hb hd _ ih => simpa using Blank.line hb hd ih
  | lastLine hb => exact .line hb hc .nil

/-- A space at the end of a blank text is none of a comment. -/
theorem blank_of_append_space {v : List Char} (h : Blank (v ++ [' '])) : Blank v := by
  generalize hu : v ++ [' '] = u at h
  -- the last character of what comes after a comment is the space
  have htail : ∀ {x y z : List Char} {c : Char}, c ≠ ' ' → x ++ c :: y = z ++ [' '] →
      ∃ y', y = y' ++ [' '] ∧ z = x ++ c :: y' := by
    intro x y z c hc h
    rcases List.eq_nil_or_concat y with rfl | ⟨y', d, rfl⟩
    · exact absurd (List.append_inj' h rfl).2 (by simpa using hc)
    · have hsplit : x ++ c :: y' ++ [d] = z ++ [' '] := by simpa using h
      obtain ⟨hz, hd⟩ := List.append_inj' hsplit rfl
      exact ⟨y', by rw [List.concat_eq_append, hd], hz.symm⟩
  induction h generalizing v with
  | nil => simp at hu
  | @space c w hc _ ih =>
    cases v with
    | nil => exact .nil
    | cons d v =>
      obtain ⟨rfl, hw⟩ := List.cons.inj hu
      exact .space hc (ih hw)
  | @block b w hb _ ih =>
    obtain ⟨y, rfl, rfl⟩ := htail (x := '/' :: '*' :: (b ++ ['*'])) (c := '/') (by decide)
      (by simpa using hu.symm)
    simpa using Blank.block hb (ih rfl)
  | @line b w c hb hc _ ih =>
    obtain ⟨y, rfl, rfl⟩ := htail (x := '/' :: '/' :: b) (c := c) (by rintro rfl; cases hc)
      (by simpa using hu.symm)
    exact .line hb hc (ih rfl)

end Mt22.Trivia
