import Mt22.Proofs.Parsing.Scan
import Mt22.Proofs.Trivia

/-!
# Reading always ends

`Rule.steps` bounds the recursion of `Peg.run`.  Here it is shown to be enough for every rule on
every text, `Rule.read_ends`, so that `Rule.read` never gives up.

A match loses nothing: the text under the trees that it leaves, followed by what is left, is what
there was (`Matches.textAll_rest`).  So a match that leaves the empty text has read nothing, and then
the expression is `nullable`.  Between two characters, recursion goes down the left spine of the
grammar, on which rules of ever lower `Rule.rank` are called: `Peg.reach` measures how deep that
goes, and `Rule.reach_body_le` and `Rule.body_guarded` check it on all rules.  So whatever a reading
needs on its way is further on than itself (`Peg.Needs.below`), in the text or on the spine, and with
each character read a whole `Rule.stepsPerChar` becomes free again.
-/

namespace Mt22

namespace Tree

@[simp] theorem textAll_nil : textAll [] = [] := by rw [textAll]

@[simp] theorem textAll_cons (t : Tree) (ts : List Tree) :
    textAll (t :: ts) = t.text ++ textAll ts := by rw [textAll]

@[simp] theorem textAll_append (ts us : List Tree) :
    textAll (ts ++ us) = textAll ts ++ textAll us := by
  simp [textAll_eq_flatMap]

@[simp] theorem text_token (s : List Char) : (token s).text = s := by rw [text]

@[simp] theorem text_trivia (s : List Char) : (trivia s).text = s := by rw [text]

@[simp] theorem text_node (r : Rule) (a b : Nat) (ps : List Tree) :
    (node r a b ps).text = textAll ps := by rw [text]

end Tree

open Mt22.Tree

namespace Mode

theorem textAll_skip (m : Mode) (c : Cursor) :
    textAll (m.skip c).1 ++ (m.skip c).2.rest = c.rest := by
  unfold skip
  split
  · have h := Trivia.skip_append c.rest
    by_cases he : (Trivia.skip c.rest).1 = []
    · simp only [he, List.nil_append] at h
      simp [he, Cursor.moved, h]
    · simp [he, Cursor.moved, h]
  · simp

theorem textAll_leave (m : Mode) (r : Rule) (c c' : Cursor) (parts : List Tree) :
    textAll (m.leave r c c' parts) = textAll parts := by
  unfold leave
  split
  · split <;> simp
  · rfl

theorem length_skip_le (m : Mode) (c : Cursor) : (m.skip c).2.rest.length ≤ c.rest.length := by
  have h := congrArg List.length (m.textAll_skip c)
  rw [List.length_append] at h
  omega

end Mode

namespace Peg

/-! ### Nothing is lost -/

/-- **Reading loses nothing.** -/
theorem Matches.textAll_rest {m : Mode} {e : Peg} {c c' : Cursor} {ts : List Tree}
    (h : Matches m e c ts c') : textAll ts ++ c'.rest = c.rest := by
  induction h with
  | text h => simp [h, Cursor.moved]
  | one _ h => simp [h, Cursor.moved]
  | call _ ih => rw [Mode.textAll_leave, ih]
  | seq _ _ iha ihb =>
    simp only [textAll_append, List.append_assoc]
    rw [ihb, Mode.textAll_skip, iha]
  | left _ ih | right _ _ ih | within _ ih => exact ih
  | starCons _ _ iha ihu => rw [textAll_append, List.append_assoc, ihu, iha]
  | moreCons _ _ iha ihu =>
    simp only [textAll_append, List.append_assoc]
    rw [ihu, iha, Mode.textAll_skip]
  | start | finish | without | starNil | moreNil | ahead | absent => rfl

/-! ### Reading nothing -/

end Peg

/-- The rules that can match without reading a character. -/
def Rule.nullable (r : Rule) : Bool := r = .eoi || r = .strBody

namespace Peg

/-- An expression that can match without reading a character. -/
def nullable : Peg → Bool
  | text s => s.isEmpty
  | one _ => false
  | call r => r.nullable
  | seq a b => a.nullable && b.nullable
  | choice a b => a.nullable || b.nullable
  | start | finish | opt _ | star _ | more _ | ahead _ | absent _ => true

theorem nullable_body (r : Rule) : r.body.nullable = true → r.nullable = true := by
  cases r <;> decide

theorem Matches.nullable {m : Mode} {e : Peg} {c c' : Cursor} {ts : List Tree}
    (h : Matches m e c ts c') (hts : textAll ts = []) : e.nullable = true := by
  induction h with
  | text h => simpa [Peg.nullable] using hts
  | one _ h => simp at hts
  | call _ ih =>
    rw [Mode.textAll_leave] at hts
    exact nullable_body _ (ih hts)
  | seq _ _ iha ihb =>
    simp only [textAll_append, List.append_eq_nil_iff] at hts
    simp [Peg.nullable, iha hts.1.1, ihb hts.2]
  | left _ ih | right _ _ ih => simp [Peg.nullable, ih hts]
  | start | finish | within | without | starNil | starCons | moreNil | moreCons | ahead | absent => rfl

/-- A match leaves less, unless the expression can match nothing. -/
theorem Ends.length {m : Mode} {e : Peg} {c c' : Cursor} {ts : List Tree}
    (h : Ends m e c (some (ts, c'))) : c'.rest.length < c.rest.length ∨
      c'.rest.length = c.rest.length ∧ e.nullable = true := by
  have hl := congrArg List.length h.matches.textAll_rest
  rw [List.length_append] at hl
  by_cases hts : textAll ts = []
  · right
    refine ⟨?_, h.matches.nullable hts⟩
    rw [hts] at hl
    simpa using hl
  · have := List.length_pos_iff.mpr hts
    left
    omega

/-! ### The left spine -/

/-- How deep the steps nest in which nothing has been read, when each rule nests `d` deep. -/
def reach (d : Rule → Nat) : Peg → Nat
  | text _ | one _ | start | finish => 1
  | call r => d r + 1
  | seq a b => max (a.reach d) (if a.nullable then b.reach d else 0) + 1
  | choice a b => max (a.reach d) (b.reach d) + 1
  | opt a | star a | more a | ahead a | absent a => a.reach d + 1

/-- What is read after the first character nests no deeper than `limit`, and repetition is of
what reads a character. -/
def guarded (d : Rule → Nat) (limit : Nat) : Peg → Bool
  | text _ | one _ | start | finish | call _ => true
  | seq a b => a.guarded d limit && b.guarded d limit && b.reach d ≤ limit
  | choice a b => a.guarded d limit && b.guarded d limit
  | opt a | ahead a | absent a => a.guarded d limit
  | star a | more a => a.guarded d limit && !a.nullable && a.reach d + 1 ≤ limit

end Peg

namespace Rule

theorem stepsPerChar_eq : stepsPerChar = 816 := by decide

/-- The place of a rule on the left spine: before it has read a character, a rule calls only
rules of a lower rank. -/
def rank : Rule → Nat
  | arguments => 13
  | expression => 12
  | relational => 11
  | logical => 10
  | additive => 9
  | multiplicative => 8
  | notExpr => 7
  | negExpr | statement => 6
  | primary | assignStmt | funcType | program => 5
  | literal | varType | assign | paramList | declaration => 4
  | boolLit | primType | lhs | callStmt | paramDecl | varDecl => 3
  | kwInteger | kwFloat | kwBoolean | kwString | kwAuto | kwVoid | kwOut | kwInherit | kwTrue
  | kwFalse | arrayType | arrayCell | funcCall | nameList | funcDecl => 2
  | identifier | dimensions | kArray | kOf | kFunction | kInherit | kIf | kElse | kFor | kWhile
  | kDo | kBreak | kContinue | kReturn | ifStmt | forStmt | whileStmt | doWhileStmt | breakStmt
  | continueStmt | returnStmt => 1
  | _ => 0

/-- How deep the steps of a rule nest before it has read a character.  No body is deeper than
the list of keywords, so there is room for each rank. -/
def depth (r : Rule) : Nat := 32 * (r.rank + 1)

theorem reach_body_le (r : Rule) : r.body.reach depth ≤ depth r := by
  cases r <;> decide

theorem body_guarded (r : Rule) : r.body.guarded depth stepsPerChar = true := by
  rw [stepsPerChar_eq]
  cases r <;> decide

theorem depth_lt (r : Rule) : depth r < stepsPerChar := by
  rw [stepsPerChar_eq]
  cases r <;> decide

end Rule

namespace Peg

/-- An expression to be read, with the mode and the place. -/
structure Task where
  mode : Mode
  expr : Peg
  place : Cursor

/-- One task needs another: to read the one expression, the other is read on the way. -/
inductive Needs : Task → Task → Prop
  | call {m : Mode} {r : Rule} {c : Cursor} : Needs ⟨m, call r, c⟩ ⟨m.enter r.kind, r.body, c⟩
  | first {m : Mode} {a b : Peg} {c : Cursor} : Needs ⟨m, seq a b, c⟩ ⟨m, a, c⟩
  | second {m : Mode} {a b : Peg} {c ca : Cursor} {ta : List Tree}
      (h : Ends m a c (some (ta, ca))) : Needs ⟨m, seq a b, c⟩ ⟨m, b, (m.skip ca).2⟩
  | left {m : Mode} {a b : Peg} {c : Cursor} : Needs ⟨m, choice a b, c⟩ ⟨m, a, c⟩
  | right {m : Mode} {a b : Peg} {c : Cursor} (h : Ends m a c none) :
      Needs ⟨m, choice a b, c⟩ ⟨m, b, c⟩
  | opt {m : Mode} {a : Peg} {c : Cursor} : Needs ⟨m, opt a, c⟩ ⟨m, a, c⟩
  | star {m : Mode} {a : Peg} {c : Cursor} : Needs ⟨m, star a, c⟩ ⟨m, a, c⟩
  | stars {m : Mode} {a : Peg} {c ca : Cursor} {ta : List Tree} (h : Ends m a c (some (ta, ca))) :
      Needs ⟨m, star a, c⟩ ⟨m, more a, ca⟩
  | more {m : Mode} {a : Peg} {c : Cursor} : Needs ⟨m, more a, c⟩ ⟨m, a, (m.skip c).2⟩
  | mores {m : Mode} {a : Peg} {c ca : Cursor} {ta : List Tree}
      (h : Ends m a (m.skip c).2 (some (ta, ca))) : Needs ⟨m, more a, c⟩ ⟨m, more a, ca⟩
  | ahead {m : Mode} {a : Peg} {c : Cursor} : Needs ⟨m, ahead a, c⟩ ⟨m.ahead, a, c⟩
  | absent {m : Mode} {a : Peg} {c : Cursor} : Needs ⟨m, absent a, c⟩ ⟨m.absent, a, c⟩

/-- A reading uses up its steps only if one that it needs does. -/
theorem scan_ne_none_of_needs {n : Nat} {m : Mode} {e : Peg} {c : Cursor}
    (h : ∀ t, Needs ⟨m, e, c⟩ t → scan n t.mode t.expr t.place ≠ none) :
    scan (n + 1) m e c ≠ none := by
  cases e with
  | text s => exact Option.some_ne_none _
  | one p => exact Option.some_ne_none _
  | start => exact Option.some_ne_none _
  | finish => exact Option.some_ne_none _
  | call r =>
    rw [scan_call]
    rcases hb : scan n (m.enter r.kind) r.body c with _ | _ | ⟨parts, c'⟩
    · exact absurd hb (h _ .call)
    · simp
    · simp
  | seq a b =>
    rw [scan_seq]
    rcases ha : scan n m a c with _ | _ | ⟨ta, ca⟩
    · exact absurd ha (h _ .first)
    · simp
    · rcases hb : scan n m b (m.skip ca).2 with _ | _ | ⟨tb, cb⟩
      · exact absurd hb (h _ (.second ⟨n, ha⟩))
      · simp [hb]
      · simp [hb]
  | choice a b =>
    rw [scan_choice]
    rcases ha : scan n m a c with _ | _ | found
    · exact absurd ha (h _ .left)
    · exact h _ (.right ⟨n, ha⟩)
    · simp
  | opt a =>
    rw [scan_opt]
    rcases ha : scan n m a c with _ | found
    · exact absurd ha (h _ .opt)
    · simp
  | star a =>
    rw [scan_star]
    rcases ha : scan n m a c with _ | _ | ⟨ta, ca⟩
    · exact absurd ha (h _ .star)
    · simp
    · rcases hs : scan n m (more a) ca with _ | found
      · exact absurd hs (h _ (.stars ⟨n, ha⟩))
      · simp [hs]
  | more a =>
    rw [scan_more]
    rcases ha : scan n m a (m.skip c).2 with _ | _ | ⟨ta, ca⟩
    · exact absurd ha (h _ .more)
    · simp
    · rcases hs : scan n m (more a) ca with _ | found
      · exact absurd hs (h _ (.mores ⟨n, ha⟩))
      · simp [hs]
  | ahead a =>
    rw [scan_ahead]
    rcases ha : scan n m.ahead a c with _ | found
    · exact absurd ha (h _ .ahead)
    · simp
  | absent a =>
    rw [scan_absent]
    rcases ha : scan n m.absent a c with _ | found
    · exact absurd ha (h _ .absent)
    · simp

open Rule in
/-- The task is further on than another: less text is left, or as much and the left spine is
shorter. -/
def Task.Below (u t : Task) : Prop :=
  u.place.rest.length < t.place.rest.length ∧ u.expr.reach depth ≤ stepsPerChar ∨
    u.place.rest.length = t.place.rest.length ∧ u.expr.reach depth < t.expr.reach depth

/-- Every expression that is met in reading a rule is guarded. -/
def Task.Guarded (t : Task) : Prop := t.expr.guarded Rule.depth Rule.stepsPerChar = true

open Rule in
/-- **What a task needs is further on.** -/
theorem Needs.below {t u : Task} (h : Needs t u) (hg : t.Guarded) : u.Guarded ∧ u.Below t := by
  unfold Task.Guarded at hg ⊢
  cases h with
  | @call m r c =>
    refine ⟨body_guarded r, .inr ⟨rfl, ?_⟩⟩
    have := reach_body_le r
    simp only [reach]
    omega
  | first =>
    simp only [guarded, Bool.and_eq_true] at hg
    exact ⟨hg.1.1, .inr ⟨rfl, by simp only [reach]; omega⟩⟩
  | @second m a b c ca ta ha =>
    simp only [guarded, Bool.and_eq_true, decide_eq_true_eq] at hg
    refine ⟨hg.1.2, ?_⟩
    have hs := m.length_skip_le ca
    rcases ha.length with hl | ⟨hl, hnull⟩
    · exact .inl ⟨Nat.lt_of_le_of_lt hs hl, hg.2⟩
    · rcases Nat.lt_or_eq_of_le (hl ▸ hs) with hl | hl
      · exact .inl ⟨hl, hg.2⟩
      · refine .inr ⟨hl, ?_⟩
        simp only [reach, hnull, if_pos]
        omega
  | left =>
    simp only [guarded, Bool.and_eq_true] at hg
    exact ⟨hg.1, .inr ⟨rfl, by simp only [reach]; omega⟩⟩
  | right =>
    simp only [guarded, Bool.and_eq_true] at hg
    exact ⟨hg.2, .inr ⟨rfl, by simp only [reach]; omega⟩⟩
  | opt => exact ⟨hg, .inr ⟨rfl, by simp only [reach]; omega⟩⟩
  | star =>
    simp only [guarded, Bool.and_eq_true] at hg
    exact ⟨hg.1.1, .inr ⟨rfl, by simp only [reach]; omega⟩⟩
  | stars ha =>
    have hg' := hg
    simp only [guarded, Bool.and_eq_true, decide_eq_true_eq, Bool.not_eq_true'] at hg'
    refine ⟨hg, .inl ⟨?_, hg'.2⟩⟩
    rcases ha.length with hl | ⟨-, hnull⟩
    · exact hl
    · rw [hg'.1.2] at hnull
      cases hnull
  | @more m a c =>
    simp only [guarded, Bool.and_eq_true, decide_eq_true_eq] at hg
    refine ⟨hg.1.1, ?_⟩
    rcases Nat.lt_or_eq_of_le (m.length_skip_le c) with hl | hl
    · exact .inl ⟨hl, Nat.le_of_succ_le hg.2⟩
    · exact .inr ⟨hl, by simp only [reach]; omega⟩
  | @mores m a c ca ta ha =>
    have hg' := hg
    simp only [guarded, Bool.and_eq_true, decide_eq_true_eq, Bool.not_eq_true'] at hg'
    refine ⟨hg, .inl ⟨?_, hg'.2⟩⟩
    rcases ha.length with hl | ⟨-, hnull⟩
    · exact Nat.lt_of_lt_of_le hl (m.length_skip_le c)
    · rw [hg'.1.2] at hnull
      cases hnull
  | ahead => exact ⟨hg, .inr ⟨rfl, by simp only [reach]; omega⟩⟩
  | absent => exact ⟨hg, .inr ⟨rfl, by simp only [reach]; omega⟩⟩

open Rule in
/-- **Steps enough.**  A whole `stepsPerChar` for every character that is left, and as many as
the left spine is deep. -/
theorem scan_ne_none : ∀ (n : Nat) {m : Mode} {e : Peg} {c : Cursor},
    e.guarded depth stepsPerChar = true →
    c.rest.length * stepsPerChar + e.reach depth ≤ n → scan n m e c ≠ none := by
  intro n
  induction n with
  | zero =>
    intro m e c _ hn
    exfalso
    have : 0 < e.reach depth := by cases e <;> simp [reach]
    omega
  | succ n ih =>
    intro m e c hg hn
    refine scan_ne_none_of_needs fun t ht => ?_
    obtain ⟨hg', ⟨hl, hr⟩ | ⟨hl, hr⟩⟩ := ht.below hg
    · -- a character has been read, and a whole `stepsPerChar` is free
      refine ih hg' ?_
      have hmul : (t.place.rest.length + 1) * stepsPerChar ≤ c.rest.length * stepsPerChar :=
        Nat.mul_le_mul_right _ hl
      have : 0 < e.reach depth := by cases e <;> simp [reach]
      rw [Nat.add_mul] at hmul
      omega
    · refine ih hg' ?_
      have hl : t.place.rest.length = c.rest.length := hl
      have hr : t.expr.reach depth < e.reach depth := hr
      rw [hl]
      omega

end Peg

namespace Rule

/-- **Every rule can be read on every text**, and what `read` gives is what the reading ends
with. -/
theorem read_ends (r : Rule) (source : List Char) :
    ∃ o, Peg.Ends .normal (.call r) (.ofText source) o ∧
      (∀ ts, r.read source = .ok ts ↔ ∃ c, o = some (ts, c)) := by
  have hne : Peg.scan (steps source.length) .normal (.call r) (.ofText source) ≠ none := by
    refine Peg.scan_ne_none _ rfl ?_
    have := depth_lt r
    simp only [Peg.reach, Cursor.ofText, steps, Nat.add_mul]
    omega
  have hf := Peg.run_found (steps source.length) .normal (.call r) (.ofText source) .none
  obtain ⟨o, ho⟩ := Option.ne_none_iff_exists'.mp hne
  refine ⟨o, ⟨_, ho⟩, ?_⟩
  intro ts
  rw [ho] at hf
  obtain ⟨⟨found, w⟩, hr, rfl⟩ := Option.map_eq_some_iff.mp hf
  unfold read
  rw [hr]
  rcases found with _ | ⟨us, c⟩ <;> simp [eq_comm]

/-- What a rule reads of a text by itself is what it matches there. -/
theorem read_eq_ok_iff {r : Rule} {source : List Char} {ts : List Tree} :
    r.read source = .ok ts ↔ ∃ c, Peg.Matches .normal (.call r) (.ofText source) ts c := by
  obtain ⟨o, ho, hread⟩ := read_ends r source
  rw [hread ts]
  constructor
  · rintro ⟨c, rfl⟩
    exact ⟨c, ho.matches⟩
  · rintro ⟨c, h⟩
    exact ⟨c, ho.unique h.ends⟩

end Rule

end Mt22
