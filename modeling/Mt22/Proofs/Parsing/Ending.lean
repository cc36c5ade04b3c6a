import Mathlib.Logic.Relation
import Mt22.Proofs.Token.Reading

/-!
# Why reading ends

Every rule can be read on every text within the steps that it is given (`Peg.reading_ends`).  The
reasons are that a repeated expression takes a character each time, that trivia is skipped piece by
piece, and that a rule is never entered again at the place where it was entered.

Trivia is skipped by a function of its own, `Trivia.skip`.  A piece of it is what the rules of white
space and comments read (`ends_trivia`), so that these rules are entered on the way as well.
-/

namespace Mt22

open Mt22.Tree Mt22.Trivia Mt22.Token Mt22.Peg

/-! ### Trivia by the rules of the grammar -/

/-- One piece of trivia, as the grammar reads it. -/
def Peg.trivia : Peg := .choice (.call .whitespace) (.call .comment)

namespace Token

theorem oneOf_space : OneOf Rule.whitespace.body isSpace := by
  have h := (oneOf_char ' ').choice ((oneOf_char '\t').choice ((oneOf_char '\r').choice
    ((oneOf_char '\n').choice (oneOf_char '\x0c'))))
  have heq : isSpace = fun x => (x = ' ' || (x = '\t' || (x = '\r' || (x = '\n' || x = '\x0c')))) := by
    funext x
    simp [isSpace, Bool.or_assoc]
  rw [heq]
  exact h

/-- A character inside a block comment. -/
theorem takes_unclosed {x : Char} {s : List Char} (h : ¬ ['*', '/'] <+: x :: s) :
    Takes (.seq (.absent "*/") any) (x :: s) [x] s :=
  (lacks_text h).absent.seq (takes_one rfl)

theorem lacks_closed (s : List Char) : Lacks (.seq (.absent "*/") any) ('*' :: '/' :: s) :=
  ((takes_text ['*', '/'] s).absent).seq

theorem takes_commentBody {b : List Char} (h : ¬ ['*', '/'] <:+: b ++ ['*']) (rest : List Char) :
    Takes (.more (.seq (.absent "*/") any)) (b ++ '*' :: '/' :: rest) b ('*' :: '/' :: rest) := by
  induction b with
  | nil => exact (lacks_closed rest).more
  | cons c b ih =>
    exact (takes_unclosed (not_closing_append h rest)).more
      (ih fun hb => h (hb.trans (List.suffix_cons c _).isInfix))

/-- Without a closing mark everything is taken for the body of a comment. -/
theorem takes_unclosed_all {s : List Char} (h : closeBlock? s = none) :
    Takes (.more (.seq (.absent "*/") any)) s s [] := by
  fun_induction closeBlock? s with
  | case1 => cases h
  | case2 c s hfirst ih =>
    have hpre : ¬ ['*', '/'] <+: c :: s := by
      rintro ⟨r, hr⟩
      simp only [List.cons_append, List.nil_append, List.cons.injEq] at hr
      exact hfirst r hr.1.symm hr.2.symm
    exact (takes_unclosed hpre).more (ih (by simpa using h))
  | case3 =>
    have hend : Takes (.absent "*/") [] [] [] := (lacks_text (by decide)).absent
    exact (hend.seq_lacks lacks_one_nil).more

theorem oneOf_notLineEnd : OneOf (.seq (.absent lineEnd) any) (!isLineEnd ·) := by
  have lacks : ∀ {s : List Char}, (∀ c r, s = c :: r → isLineEnd c = false) → Lacks lineEnd s := by
    intro s h
    have hne : ∀ {v : List Char} {d : Char}, isLineEnd d = true → Lacks (.text (d :: v)) s := by
      intro v d hd
      refine lacks_text ?_
      rintro ⟨r, rfl⟩
      rw [h d (v ++ r) rfl] at hd
      cases hd
    exact (hne rfl).choice ((hne rfl).choice (hne rfl))
  have takes : ∀ {c : Char} {s : List Char}, isLineEnd c = true →
      ∃ w s', Takes lineEnd (c :: s) w s' := by
    intro c s h
    by_cases hc : c = '\n'
    · subst hc
      exact ⟨_, _, (takes_text ['\n'] s).choice⟩
    · obtain rfl : c = '\r' := by simpa [isLineEnd, hc] using h
      have hfeed : Lacks (text "\n".toList) ('\r' :: s) := lacks_text (by simp)
      by_cases hs : ['\r', '\n'] <+: '\r' :: s
      · obtain ⟨s', hs'⟩ := hs
        exact ⟨_, _, hfeed.choice_takes (hs' ▸ (takes_text ['\r', '\n'] s').choice)⟩
      · exact ⟨_, _, hfeed.choice_takes ((lacks_text hs).choice_takes (takes_text ['\r'] s))⟩
  refine ⟨?_, ?_, ?_⟩
  · intro x s hx
    have hlacks : Lacks lineEnd (x :: s) := lacks fun c r h => by
      rw [← (List.cons.inj h).1]
      simpa using hx
    exact hlacks.absent.seq (takes_one rfl)
  · intro x s hx
    obtain ⟨w, s', h⟩ := takes (s := s) (by simpa using hx)
    exact h.absent.seq
  · exact (lacks (by simp)).absent.seq_lacks lacks_one_nil

/-- A comment is taken as a whole. -/
theorem takes_comment {s w rest : List Char} (h : piece? s = some (w, rest))
    (hs : ∀ c r, s = c :: r → isSpace c = false) : Takes Rule.comment.body s w rest := by
  have happ := (piece?_append h).1
  rcases piece?_cases h with ⟨c, rfl, hc⟩ | ⟨b, rfl, hb⟩ | ⟨b, rfl, hb, hend⟩
  · rw [hs c rest happ.symm] at hc
    cases hc
  · have hclosed : Takes closedComment ('/' :: '*' :: (b ++ '*' :: '/' :: rest))
        ('/' :: '*' :: (b ++ ['*', '/'])) rest :=
      (takes_text ['/', '*'] _).seq
        ((takes_commentBody hb rest).star_of_more.seq (takes_text ['*', '/'] rest))
    have hs : s = '/' :: '*' :: (b ++ '*' :: '/' :: rest) := by simp [← happ]
    rw [hs]
    exact hclosed.choice
  · have hnot : ¬ ['/', '*'] <+: s := by
      rw [← happ]
      simp
    have hall : b.all (!isLineEnd ·) = true := List.all_eq_true.mpr fun x hx => by simp [hb x hx]
    have hstops : Stops (!isLineEnd ·) rest := by
      intro c hc
      obtain ⟨r, rfl⟩ := List.head?_eq_some_iff.mp hc
      simp [hend c r rfl]
    have hbody := takes_star oneOf_notLineEnd (b ++ rest)
    obtain ⟨htake, hdrop⟩ := takeWhile_append_of_stops hall hstops
    rw [htake, hdrop] at hbody
    have hopen : Takes openComment ('/' :: '/' :: (b ++ rest)) ('/' :: '/' :: b) rest :=
      (takes_text ['/', '/'] (b ++ rest)).seq hbody
    have hclosed : Lacks closedComment s := (lacks_text hnot).seq
    rw [← happ] at hclosed ⊢
    exact hclosed.choice_takes hopen

theorem lacks_comment {s : List Char} (h : piece? s = none) : Lacks Rule.comment.body s := by
  refine Lacks.choice ?_ ?_
  · by_cases hp : ['/', '*'] <+: s
    · obtain ⟨r, rfl⟩ := hp
      have hnone : closeBlock? r = none := by simpa [piece?] using h
      exact (takes_text ['/', '*'] r).seq_lacks
        ((takes_unclosed_all hnone).star_of_more.seq_lacks (lacks_text (by decide)))
    · exact (lacks_text hp).seq
  · refine (lacks_text ?_).seq
    rintro ⟨r, rfl⟩
    cases h

end Token

/-- **A piece of trivia is what the rules of white space and comments read.** -/
theorem ends_trivia (m : Mode) (o : Nat) (s : List Char) : ∃ x,
    Ends m Peg.trivia ⟨o, s⟩ x ∧ x.map (fun y => y.2.rest) = (piece? s).map Prod.snd := by
  -- both rules are read as tokens are, whatever the mode
  have takes : ∀ {r : Rule} {w rest : List Char}, r.kind = .bare → Takes r.body s w rest →
      ∃ ts o', Ends m (.call r) ⟨o, s⟩ (some (ts, ⟨o', rest⟩)) := by
    intro r w rest hr h
    obtain ⟨ts, o', he, -⟩ := h o
    exact ⟨_, o', Ends.call_some (m := m) (r := r) (by rw [hr]; exact he)⟩
  have lacks : ∀ {r : Rule}, r.kind = .bare → Lacks r.body s → Ends m (.call r) ⟨o, s⟩ none := by
    intro r hr h
    exact Ends.call_none (by rw [hr]; exact h o)
  by_cases hspace : ∃ c r, s = c :: r ∧ isSpace c = true
  · obtain ⟨c, r, rfl, hc⟩ := hspace
    obtain ⟨ts, o', h⟩ := takes rfl (oneOf_space.takes (s := r) hc)
    exact ⟨_, h.choice_left, by rw [piece?_space hc]; rfl⟩
  · have hs : ∀ c r, s = c :: r → isSpace c = false := by
      intro c r h
      simpa using fun hc => hspace ⟨c, r, h, hc⟩
    have hlacks : Lacks Rule.whitespace.body s := by
      cases s with
      | nil => exact oneOf_space.lacks_nil
      | cons c r => exact oneOf_space.lacks (hs c r rfl)
    cases hp : piece? s with
    | none => exact ⟨none, .choice_right (lacks rfl hlacks) (lacks rfl (lacks_comment hp)), rfl⟩
    | some p =>
      obtain ⟨ts, o', h⟩ := takes rfl (takes_comment hp hs)
      exact ⟨_, .choice_right (lacks rfl hlacks) h, rfl⟩

/-! ### Never again at the same place -/

namespace Peg

/-- One task enters another: it needs it, or the rules of white space and comments are tried on the
way, where trivia may stand. -/
inductive Enters : Task → Task → Prop
  | needs {t u : Task} (h : Needs t u) : Enters t u
  | between {m : Mode} {a b : Peg} {c ca d : Cursor} {ta : List Tree} {r : Rule}
      (hm : m.spaced = true) (h : Ends m a c (some (ta, ca))) (hd : d.rest <:+ ca.rest)
      (hr : r = .whitespace ∨ r = .comment) : Enters ⟨m, seq a b, c⟩ ⟨m, call r, d⟩
  | before {m : Mode} {a : Peg} {c d : Cursor} {r : Rule} (hm : m.spaced = true)
      (hd : d.rest <:+ c.rest) (hr : r = .whitespace ∨ r = .comment) :
      Enters ⟨m, more a, c⟩ ⟨m, call r, d⟩

/-- The expression calls no rule. -/
def isCallless : Peg → Bool
  | call _ => false
  | seq a b | choice a b => a.isCallless && b.isCallless
  | opt a | star a | more a | ahead a | absent a => a.isCallless
  | text _ | one _ | start | finish => true

/-- Neither a rule is called nor trivia skipped. -/
def Task.Inert (t : Task) : Prop := t.expr.isCallless = true ∧ t.mode.spaced = false

theorem Enters.inert {t u : Task} (h : Enters t u) (ht : t.Inert) : u.Inert := by
  obtain ⟨he, hm⟩ := ht
  cases h with
  | needs h =>
    cases h with
    | call => cases he
    | first | left => exact ⟨(Bool.and_eq_true_iff.mp he).1, hm⟩
    | second | right => exact ⟨(Bool.and_eq_true_iff.mp he).2, hm⟩
    | opt | star | stars | more | mores | ahead | absent => exact ⟨he, hm⟩
  | between hs => exact absurd hm (by simp [hs])
  | before hs => exact absurd hm (by simp [hs])

/-- What the rules of white space and comments enter is inert. -/
theorem Enters.inert_of_trivia {m : Mode} {r : Rule} {c : Cursor} {u : Task}
    (hr : r = .whitespace ∨ r = .comment) (h : Enters ⟨m, call r, c⟩ u) : u.Inert := by
  cases h with
  | needs h =>
    cases h
    rcases hr with rfl | rfl
    · exact ⟨rfl, rfl⟩
    · exact ⟨rfl, rfl⟩

theorem inert_of_chain {m : Mode} {r : Rule} {c : Cursor} {u : Task}
    (hr : r = .whitespace ∨ r = .comment) (h : Relation.TransGen Enters ⟨m, call r, c⟩ u) :
    u.Inert := by
  induction h with
  | single h => exact h.inert_of_trivia hr
  | tail _ h ih => exact h.inert ih

/-- A chain of tasks leads to what is needed, or ends where trivia is skipped. -/
theorem chain_cases {t u : Task} (h : Relation.TransGen Enters t u) :
    Relation.TransGen Needs t u ∨
      (∃ r, (r = .whitespace ∨ r = .comment) ∧ u.expr = call r) ∨ u.Inert := by
  induction h with
  | single h =>
    cases h with
    | needs h => exact .inl (.single h)
    | between _ _ _ hr => exact .inr (.inl ⟨_, hr, rfl⟩)
    | before _ _ hr => exact .inr (.inl ⟨_, hr, rfl⟩)
  | @tail v w _ h ih =>
    rcases ih with ih | ⟨r, hr, hv⟩ | ih
    · cases h with
      | needs h => exact .inl (ih.tail h)
      | between _ _ _ hr => exact .inr (.inl ⟨_, hr, rfl⟩)
      | before _ _ hr => exact .inr (.inl ⟨_, hr, rfl⟩)
    · obtain ⟨m, e, c⟩ := v
      obtain rfl : e = call r := hv
      exact .inr (.inr (h.inert_of_trivia hr))
    · exact .inr (.inr (h.inert ih))

/-- Along a chain of needs less is left, or as much and the left spine is shorter. -/
theorem below_of_chain {t u : Task} (h : Relation.TransGen Needs t u) (ht : t.Guarded) :
    u.Guarded ∧ (u.place.rest.length < t.place.rest.length ∨
      u.place.rest.length = t.place.rest.length ∧ u.expr.reach Rule.depth < t.expr.reach Rule.depth) := by
  induction h with
  | single h =>
    obtain ⟨hg, hb⟩ := h.below ht
    exact ⟨hg, hb.imp_left And.left⟩
  | tail _ h ih =>
    obtain ⟨hv, hlv⟩ := ih
    obtain ⟨hg, hb⟩ := h.below hv
    refine ⟨hg, ?_⟩
    rcases hb with ⟨hb, -⟩ | ⟨hb, hr⟩ <;> omega

/-- **No rule is entered again at the same place.** -/
theorem length_lt_of_enters_again {m m' : Mode} {r : Rule} {c c' : Cursor}
    (h : Relation.TransGen Enters ⟨m, call r, c⟩ ⟨m', call r, c'⟩) :
    c'.rest.length < c.rest.length := by
  have hinert : ¬ Task.Inert ⟨m', call r, c'⟩ := fun hi => by cases hi.1
  rcases chain_cases h with hn | ⟨r', hr', he⟩ | hi
  · obtain ⟨-, hl | ⟨-, hlt⟩⟩ := below_of_chain hn (t := ⟨m, call r, c⟩) rfl
    · exact hl
    · exact absurd hlt (Nat.lt_irrefl _)
  · obtain rfl : r = r' := call.inj he
    exact absurd (inert_of_chain hr' h) hinert
  · exact absurd hi hinert

/-! ### Repetition -/

/-- The expressions that are repeated within an expression. -/
def repeated : Peg → List Peg
  | seq a b | choice a b => a.repeated ++ b.repeated
  | opt a | ahead a | absent a => a.repeated
  | star a | more a => a :: a.repeated
  | text _ | one _ | start | finish | call _ => []

theorem not_nullable_of_repeated {e a : Peg} {d : Rule → Nat} {k : Nat}
    (he : e.guarded d k = true) (ha : a ∈ e.repeated) : a.nullable = false := by
  induction e with
  | seq x y ihx ihy =>
    simp only [guarded, Bool.and_eq_true] at he
    exact (List.mem_append.mp ha).elim (ihx he.1.1) (ihy he.1.2)
  | choice x y ihx ihy =>
    simp only [guarded, Bool.and_eq_true] at he
    exact (List.mem_append.mp ha).elim (ihx he.1) (ihy he.2)
  | opt x ih | ahead x ih | absent x ih => exact ih he ha
  | star x ih | more x ih =>
    simp only [guarded, Bool.and_eq_true, Bool.not_eq_true'] at he
    rcases List.mem_cons.mp ha with rfl | ha
    · exact he.1.2
    · exact ih he.1.1 ha
  | text | one | start | finish | call => cases ha

/-- **What is repeated takes a character each time.** -/
theorem taken_of_repeated {r : Rule} {a : Peg} (ha : a ∈ r.body.repeated) {n : Nat} {m : Mode}
    {c c' : Cursor} {ts : List Tree} (h : scan n m a c = some (some (ts, c'))) :
    ∃ taken, taken ≠ [] ∧ c.rest = taken ++ c'.rest := by
  have h := matches_of_scan n h
  refine ⟨textAll ts, ?_, h.textAll_rest.symm⟩
  intro hnil
  have hnull := h.nullable hnil
  rw [not_nullable_of_repeated r.body_guarded ha] at hnull
  cases hnull

/-- A reply is given exactly if the steps are enough. -/
theorem isSome_run (n : Nat) (m : Mode) (e : Peg) (c : Cursor) (w : Attempts) :
    (run n m e c w).isSome = true ↔ scan n m e c ≠ none := by
  rw [← run_found n m e c w]
  cases run n m e c w <;> simp

/-- **Reading ends.**

* Every rule can be read on every text within the steps that `Rule.steps` gives for its length, with
  a match or without.
* What is repeated in a rule takes a character each time it matches.
* So does each piece of trivia, which is what the rules of white space and comments read.
* No chain of readings, skipped trivia included, enters a rule again where it was entered: by then
  some of the text has been read.
* Nothing but these readings can use up the steps: if all that a reading needs end within a number of
  steps, it ends within one more. -/
theorem reading_ends :
    (∀ (r : Rule) (source : List Char) (m : Mode) (o : Nat) (w : Attempts),
      (run (Rule.steps source.length) m (call r) ⟨o, source⟩ w).isSome = true) ∧
    (∀ (r : Rule) (a : Peg), a ∈ r.body.repeated → ∀ n m c w ts c' w',
      run n m a c w = some ⟨some (ts, c'), w'⟩ → ∃ taken, taken ≠ [] ∧ c.rest = taken ++ c'.rest) ∧
    (∀ m o s, (∀ taken rest, piece? s = some (taken, rest) → taken ≠ [] ∧ s = taken ++ rest) ∧
      ∃ x, Ends m Peg.trivia ⟨o, s⟩ x ∧ x.map (fun y => y.2.rest) = (piece? s).map Prod.snd) ∧
    (∀ m m' r c c', Relation.TransGen Enters ⟨m, call r, c⟩ ⟨m', call r, c'⟩ →
      c'.rest.length < c.rest.length) ∧
    ∀ n m e c w, (∀ t, Needs ⟨m, e, c⟩ t → ∀ w, (run n t.mode t.expr t.place w).isSome = true) →
      (run (n + 1) m e c w).isSome = true := by
  refine ⟨?_, ?_, ?_, fun m m' r c c' h => length_lt_of_enters_again h, ?_⟩
  · intro r source m o w
    refine (isSome_run ..).mpr (scan_ne_none _ rfl ?_)
    have := r.depth_lt
    simp only [reach, Rule.steps, Nat.add_mul]
    omega
  · intro r a ha n m c w ts c' w' h
    have hscan := run_found n m a c w
    rw [h] at hscan
    exact taken_of_repeated ha hscan.symm
  · intro m o s
    refine ⟨fun taken rest h => ?_, ends_trivia m o s⟩
    obtain ⟨happ, hne⟩ := piece?_append h
    exact ⟨hne, happ.symm⟩
  · intro n m e c w h
    refine (isSome_run ..).mpr (scan_ne_none_of_needs fun t ht => ?_)
    exact (isSome_run ..).mp (h t ht .none)

/-- A negation of a negation enters its own rule again, one character later. -/
theorem reading_ends_negation : ∃ c, c.rest.length < "!!x".toList.length ∧
    Relation.TransGen Enters ⟨.normal, call .notExpr, .ofText "!!x".toList⟩
      ⟨.normal, call .notExpr, c⟩ := by
  have hmark : Ends .normal (call .notOp) (.ofText "!!x".toList)
      (some ([.node .notOp 0 1 [.token ['!']]], ⟨1, ['!', 'x']⟩)) := ⟨2, rfl⟩
  have hchain : Relation.TransGen Enters ⟨.normal, call .notExpr, .ofText "!!x".toList⟩
      ⟨.normal, call .notExpr, (Mode.normal.skip ⟨1, ['!', 'x']⟩).2⟩ :=
    ((Relation.TransGen.single (.needs .call)).tail (.needs .left)).tail (.needs (.second hmark))
  exact ⟨_, reading_ends.2.2.2.1 _ _ _ _ _ hchain, hchain⟩

end Peg

end Mt22
