import Mt22.Proofs.Parsing.Enough
import Mt22.Proofs.Token.Class

/-!
# Reading tokens

Inside a token no trivia is passed over and no nodes are left, so that all there is to say about
a reading is which text it takes: `Takes e s w s'` says that `e` takes `w` and leaves `s'`, and
`Lacks e s` that it does not match.  A repeated class of characters takes the longest run of
them (`takes_star`).

For each class of tokens there are two statements.  A rule takes a token of its class if nothing
that follows prolongs it (`takes_name`, `takes_integer`, `takes_float`, `takes_stringBody`), and
what a rule takes is a token of its class (`name_of_ends` and the like).  A keyword is taken
exactly where the longest word is that keyword (`takes_keyword`, `lacks_keyword`): the ordered
choice between keywords never needs to be undone, since none is the start of another.
-/

namespace Mt22

/-- The mode inside a token. -/
def Mode.tight : Mode := ⟨false, false, false⟩

@[simp] theorem Mode.skip_tight (c : Cursor) : Mode.tight.skip c = ([], c) := rfl

@[simp] theorem Mode.leave_tight (r : Rule) (c c' : Cursor) (ts : List Tree) :
    Mode.tight.leave r c c' ts = ts := rfl

namespace Token

open Peg Mt22.Tree

/-- In a token, the expression takes the text `w` from the start of `s` and leaves `s'`. -/
def Takes (e : Peg) (s w s' : List Char) : Prop :=
  ∀ o, ∃ ts o', Ends .tight e ⟨o, s⟩ (some (ts, ⟨o', s'⟩)) ∧ textAll ts = w

/-- In a token, the expression does not match at the start of `s`. -/
def Lacks (e : Peg) (s : List Char) : Prop := ∀ o, Ends .tight e ⟨o, s⟩ none

/-! ### Operators -/

section Operators

variable {a b : Peg} {s s' s'' v w : List Char} {x : Char} {p : Char → Bool}

theorem takes_text (w s : List Char) : Takes (text w) (w ++ s) w s := by
  intro o
  refine ⟨[.token w], o + Text.byteSize w, ?_, by simp⟩
  have h := Ends.text (m := .tight) w ⟨o, w ++ s⟩
  simpa [matchText, Cursor.moved] using h

theorem lacks_text (h : ¬ w <+: s) : Lacks (text w) s := by
  intro o
  have h' := Ends.text (m := .tight) w ⟨o, s⟩
  simpa [matchText, h] using h'

theorem takes_one (h : p x = true) : Takes (one p) (x :: s) [x] s := by
  intro o
  refine ⟨[.token [x]], o + Text.byteSize [x], ?_, by simp⟩
  have h' := Ends.one (m := .tight) p ⟨o, x :: s⟩
  simpa [matchOne, h, Cursor.moved] using h'

theorem lacks_one (h : p x = false) : Lacks (one p) (x :: s) := by
  intro o
  have h' := Ends.one (m := .tight) p ⟨o, x :: s⟩
  simpa [matchOne, h] using h'

theorem lacks_one_nil : Lacks (one p) [] := fun _ => Ends.one _ _

theorem Takes.seq (ha : Takes a s v s') (hb : Takes b s' w s'') :
    Takes (seq a b) s (v ++ w) s'' := by
  intro o
  obtain ⟨ta, oa, h1, rfl⟩ := ha o
  obtain ⟨tb, ob, h2, rfl⟩ := hb oa
  exact ⟨ta ++ [] ++ tb, ob, .seq_some h1 h2, by simp⟩

theorem Lacks.seq (ha : Lacks a s) : Lacks (seq a b) s := fun o => .seq_none_left (ha o)

theorem Takes.seq_lacks (ha : Takes a s v s') (hb : Lacks b s') : Lacks (.seq a b) s := by
  intro o
  obtain ⟨ta, oa, ha, -⟩ := ha o
  exact .seq_none_right ha (hb oa)

theorem Takes.choice (ha : Takes a s w s') : Takes (choice a b) s w s' := by
  intro o
  obtain ⟨ta, oa, ha, hw⟩ := ha o
  exact ⟨ta, oa, .choice_left ha, hw⟩

theorem Lacks.choice_takes (ha : Lacks a s) (hb : Takes b s w s') :
    Takes (.choice a b) s w s' := by
  intro o
  obtain ⟨tb, ob, hb, hw⟩ := hb o
  exact ⟨tb, ob, .choice_right (ha o) hb, hw⟩

theorem Lacks.choice (ha : Lacks a s) (hb : Lacks b s) : Lacks (choice a b) s :=
  fun o => .choice_right (ha o) (hb o)

theorem Takes.opt (ha : Takes a s w s') : Takes (opt a) s w s' := by
  intro o
  obtain ⟨ta, oa, ha, hw⟩ := ha o
  exact ⟨ta, oa, Ends.opt ha, hw⟩

theorem Lacks.opt (ha : Lacks a s) : Takes (opt a) s [] s :=
  fun o => ⟨[], o, Ends.opt (ha o), textAll_nil⟩

theorem Lacks.absent (ha : Lacks a s) : Takes (absent a) s [] s :=
  fun o => ⟨[], o, Ends.absent (m := .tight) (ha o), textAll_nil⟩

theorem Takes.absent (ha : Takes a s w s') : Lacks (absent a) s := by
  intro o
  obtain ⟨ta, oa, ha, -⟩ := ha o
  exact Ends.absent (m := .tight) ha

theorem Lacks.star (ha : Lacks a s) : Takes (star a) s [] s :=
  fun o => ⟨[], o, .star_nil (ha o), textAll_nil⟩

theorem Lacks.more (ha : Lacks a s) : Takes (more a) s [] s :=
  fun o => ⟨[], o, .more_nil (ha o), textAll_nil⟩

theorem Takes.star (ha : Takes a s v s') (hs : Takes (more a) s' w s'') :
    Takes (star a) s (v ++ w) s'' := by
  intro o
  obtain ⟨ta, oa, h1, rfl⟩ := ha o
  obtain ⟨ts, os, h2, rfl⟩ := hs oa
  exact ⟨ta ++ ts, os, .star_cons h1 h2, by simp⟩

theorem Takes.more (ha : Takes a s v s') (hs : Takes (.more a) s' w s'') :
    Takes (more a) s (v ++ w) s'' := by
  intro o
  obtain ⟨ta, oa, h1, rfl⟩ := ha o
  obtain ⟨ts, os, h2, rfl⟩ := hs oa
  exact ⟨[] ++ ta ++ ts, os, .more_cons h1 h2, by simp⟩

/-- Inside a token further items are read as the first ones are. -/
theorem Takes.star_of_more (h : Takes (.more a) s w s') :
    Takes (.star a) s w s' := by
  intro o
  obtain ⟨ts, o', ⟨n, hn⟩, hw⟩ := h o
  cases n with
  | zero => cases hn
  | succ n => exact ⟨ts, o', ⟨n + 1, hn⟩, hw⟩

/-- Two ways to say what an expression takes agree. -/
theorem Takes.unique {o : Nat} {c : Cursor} {ts : List Tree} (ha : Takes a s w s')
    (h : Ends .tight a ⟨o, s⟩ (some (ts, c))) : textAll ts = w ∧ c.rest = s' := by
  obtain ⟨us, o', h1, rfl⟩ := ha o
  obtain ⟨rfl, rfl⟩ := Prod.mk.inj (Option.some.inj (h.unique h1))
  exact ⟨rfl, rfl⟩

theorem Lacks.not_ends {o : Nat} {x : Match} (ha : Lacks a s) : ¬ Ends .tight a ⟨o, s⟩ (some x) :=
  fun h => by cases (ha o).unique h

end Operators

/-! ### Classes of characters -/

/-- The expression takes one character of a class. -/
structure OneOf (e : Peg) (p : Char → Bool) : Prop where
  takes : ∀ {x : Char} {s : List Char}, p x = true → Takes e (x :: s) [x] s
  lacks : ∀ {x : Char} {s : List Char}, p x = false → Lacks e (x :: s)
  lacks_nil : Lacks e []

theorem oneOf_one (p : Char → Bool) : OneOf (one p) p := ⟨takes_one, lacks_one, lacks_one_nil⟩

theorem oneOf_char (c : Char) : OneOf (text [c]) (· = c) := by
  refine ⟨?_, ?_, ?_⟩
  · intro x s h
    obtain rfl : x = c := by simpa using h
    exact takes_text [x] s
  · intro x s h
    refine lacks_text ?_
    have : x ≠ c := by simpa using h
    simpa [List.cons_prefix_cons] using Ne.symm this
  · exact lacks_text (by simp)

theorem OneOf.choice {a b : Peg} {p q : Char → Bool} (ha : OneOf a p) (hb : OneOf b q) :
    OneOf (choice a b) (fun x => p x || q x) := by
  refine ⟨?_, ?_, ha.lacks_nil.choice hb.lacks_nil⟩
  · intro x s h
    by_cases hp : p x = true
    · exact (ha.takes hp).choice
    · have hq : q x = true := by simpa [hp] using h
      exact (ha.lacks (by simpa using hp)).choice_takes (hb.takes hq)
  · intro x s h
    obtain ⟨hp, hq⟩ : p x = false ∧ q x = false := by simpa using h
    exact (ha.lacks hp).choice (hb.lacks hq)

theorem oneOf_digit : OneOf digit Char.isDigit := oneOf_one _

theorem oneOf_wordChar : OneOf wordChar isWordChar :=
  (oneOf_one Char.isAlphanum).choice (oneOf_char '_')

theorem oneOf_wordStart : OneOf (Peg.oneOf [one Char.isAlpha, "_"]) isWordStart :=
  (oneOf_one Char.isAlpha).choice (oneOf_char '_')

theorem oneOf_digitChar : OneOf (Peg.oneOf [digit, "_"]) isDigitChar :=
  oneOf_digit.choice (oneOf_char '_')

theorem takes_more {e : Peg} {p : Char → Bool} (h : OneOf e p) :
    ∀ s : List Char, Takes (more e) s (s.takeWhile p) (s.dropWhile p) := by
  intro s
  induction s with
  | nil => exact h.lacks_nil.more
  | cons x s ih =>
    by_cases hx : p x = true
    · rw [List.takeWhile_cons_of_pos hx, List.dropWhile_cons_of_pos hx]
      exact (h.takes hx).more ih
    · rw [List.takeWhile_cons_of_neg hx, List.dropWhile_cons_of_neg hx]
      exact (h.lacks (by simpa using hx)).more

/-- **A repeated class takes the longest run.** -/
theorem takes_star {e : Peg} {p : Char → Bool} (h : OneOf e p) :
    ∀ s : List Char, Takes (star e) s (s.takeWhile p) (s.dropWhile p) := by
  intro s
  cases s with
  | nil => exact h.lacks_nil.star
  | cons x s =>
    by_cases hx : p x = true
    · rw [List.takeWhile_cons_of_pos hx, List.dropWhile_cons_of_pos hx]
      exact (h.takes hx).star (takes_more h s)
    · rw [List.takeWhile_cons_of_neg hx, List.dropWhile_cons_of_neg hx]
      exact (h.lacks (by simpa using hx)).star

/-- No character of the class stands at the start of the text. -/
def Stops (p : Char → Bool) (s : List Char) : Prop := ∀ c, s.head? = some c → p c = false

theorem Stops.mono {p q : Char → Bool} {s : List Char} (h : Stops q s)
    (hpq : ∀ c, p c = true → q c = true) : Stops p s := by
  intro c hc
  cases hp : p c with
  | false => rfl
  | true => rw [← h c hc, hpq c hp]

theorem stops_nil (p : Char → Bool) : Stops p [] := by
  intro c hc
  cases hc

theorem stops_cons {p : Char → Bool} {c : Char} {s : List Char} (h : p c = false) :
    Stops p (c :: s) := by
  intro d hd
  cases hd
  exact h

theorem takeWhile_append_of_stops {p : Char → Bool} {w s : List Char} (hw : w.all p = true)
    (hs : Stops p s) : (w ++ s).takeWhile p = w ∧ (w ++ s).dropWhile p = s := by
  induction w with
  | nil =>
    cases s with
    | nil => exact ⟨rfl, rfl⟩
    | cons c s =>
      have hc : ¬ p c = true := by simp [hs c rfl]
      exact ⟨List.takeWhile_cons_of_neg hc, List.dropWhile_cons_of_neg hc⟩
  | cons c w ih =>
    simp only [List.all_cons, Bool.and_eq_true] at hw
    rw [List.cons_append, List.takeWhile_cons_of_pos hw.1, List.dropWhile_cons_of_pos hw.1,
      (ih hw.2).1, (ih hw.2).2]
    exact ⟨rfl, rfl⟩

theorem stops_dropWhile (p : Char → Bool) (s : List Char) : Stops p (s.dropWhile p) := by
  intro c hc
  induction s with
  | nil => cases hc
  | cons x s ih =>
    by_cases hx : p x = true
    · rw [List.dropWhile_cons_of_pos hx] at hc
      exact ih hc
    · rw [List.dropWhile_cons_of_neg hx] at hc
      cases hc
      simpa using hx

theorem all_takeWhile (p : Char → Bool) (s : List Char) : (s.takeWhile p).all p = true := by
  induction s with
  | nil => rfl
  | cons x s ih =>
    by_cases hx : p x = true
    · rw [List.takeWhile_cons_of_pos hx, List.all_cons, hx, ih]
      rfl
    · rw [List.takeWhile_cons_of_neg hx]
      rfl

/-! ### Words -/

/-- The longest word at the start of a text. -/
def lead (s : List Char) : List Char := s.takeWhile isWordChar

theorem lead_append {w s : List Char} (hw : w.all isWordChar = true) (hs : Stops isWordChar s) :
    lead (w ++ s) = w :=
  (takeWhile_append_of_stops hw hs).1

theorem prefix_lead {v s : List Char} (hv : v.all isWordChar = true) (h : v <+: s) :
    v <+: lead s := by
  obtain ⟨t, rfl⟩ := h
  refine ⟨lead t, ?_⟩
  unfold lead
  rw [List.takeWhile_append_of_pos (by simpa using hv)]

/-- The choice between texts takes the first of them that stands here. -/
theorem takes_oneOf {s : List Char} : ∀ {ws : List (List Char)}, (∃ w ∈ ws, w <+: s) →
    ∃ w ∈ ws, ∃ s', s = w ++ s' ∧ Takes (Peg.oneOf (ws.map text)) s w s' := by
  intro ws
  induction ws with
  | nil => rintro ⟨w, hw, -⟩; cases hw
  | cons v ws ih =>
    intro h
    by_cases hv : v <+: s
    · obtain ⟨t, rfl⟩ := hv
      refine ⟨v, by simp, t, rfl, ?_⟩
      cases ws with
      | nil => exact takes_text v t
      | cons => exact (takes_text v t).choice
    · obtain ⟨w, hw, hp⟩ := h
      have hw' : w ∈ ws := by
        rcases List.mem_cons.mp hw with rfl | hw
        · exact absurd hp hv
        · exact hw
      obtain ⟨u, hu, s', rfl, ht⟩ := ih ⟨w, hw', hp⟩
      refine ⟨u, by simp [hu], s', rfl, ?_⟩
      cases ws with
      | nil => cases hu
      | cons => exact (lacks_text hv).choice_takes ht

theorem lacks_oneOf {s : List Char} : ∀ {ws : List (List Char)}, (∀ w ∈ ws, ¬ w <+: s) →
    Lacks (Peg.oneOf (ws.map text)) s := by
  intro ws
  induction ws with
  | nil => intro _; exact (takes_text [] s).absent
  | cons v ws ih =>
    intro h
    have hv : Lacks (text v) s := lacks_text (h v (by simp))
    cases ws with
    | nil => exact hv
    | cons => exact hv.choice (ih fun w hw => h w (by simp [hw]))

theorem body_keyword :
    Rule.keyword.body = .seq (Peg.oneOf (reserved.map text)) (.absent wordChar) := by
  simp [Rule.body, reserved, Function.comp_def]

theorem lacks_wordChar {s : List Char} (h : Stops isWordChar s) : Lacks wordChar s := by
  cases s with
  | nil => exact oneOf_wordChar.lacks_nil
  | cons c s => exact oneOf_wordChar.lacks (h c rfl)

/-- **A keyword is read where the longest word is a keyword.** -/
theorem takes_keyword {w s : List Char} (hw : w ∈ reserved) (hs : Stops isWordChar s) :
    Takes Rule.keyword.body (w ++ s) w s := by
  obtain ⟨-, hall, -⟩ := reserved_isWord w hw
  obtain ⟨v, hv, s', he, ht⟩ := takes_oneOf ⟨w, hw, List.prefix_append w s⟩
  have hvw : v = w := by
    have hp := prefix_lead (reserved_isWord v hv).2.1 ⟨s', he.symm⟩
    rw [lead_append hall hs] at hp
    exact reserved_prefixFree v hv w hw hp
  subst hvw
  obtain rfl : s = s' := List.append_cancel_left he
  rw [body_keyword, ← List.append_nil v]
  simpa using ht.seq (lacks_wordChar hs).absent

theorem lacks_keyword {s : List Char} (h : lead s ∉ reserved) : Lacks Rule.keyword.body s := by
  rw [body_keyword]
  by_cases hp : ∃ w ∈ reserved, w <+: s
  · obtain ⟨w, hw, s', rfl, ht⟩ := takes_oneOf hp
    refine ht.seq_lacks ?_
    have hall := (reserved_isWord w hw).2.1
    cases s' with
    | nil =>
      rw [lead_append hall (stops_nil _)] at h
      exact absurd hw h
    | cons c s' =>
      cases hc : isWordChar c with
      | false =>
        rw [lead_append hall (stops_cons hc)] at h
        exact absurd hw h
      | true => exact (oneOf_wordChar.takes hc).absent
  · refine (lacks_oneOf ?_).seq
    intro w hw hws
    exact hp ⟨w, hw, hws⟩

/-! ### Names -/

theorem isName_all {w : List Char} (h : isName w = true) : w.all isWordChar = true := by
  cases w with
  | nil => cases h
  | cons c cs =>
    simp only [isName, Bool.and_eq_true] at h
    simp [isWordChar_of_isWordStart h.1.1, h.1.2]

theorem isName_not_mem {w : List Char} (h : isName w = true) : w ∉ reserved := by
  cases w with
  | nil => cases h
  | cons c cs => simpa [isName] using (Bool.and_eq_true_iff.mp h).2

theorem takes_name {w s : List Char} (hw : isName w = true) (hs : Stops isWordChar s) :
    Takes Rule.identifier.body (w ++ s) w s := by
  have hall := isName_all hw
  have hk : Lacks (.call .keyword) (w ++ s) := by
    intro o
    refine .call_none (lacks_keyword ?_ o)
    rw [lead_append hall hs]
    exact isName_not_mem hw
  cases w with
  | nil => cases hw
  | cons c cs =>
    simp only [isName, Bool.and_eq_true] at hw
    have hstar := takes_star oneOf_wordChar (cs ++ s)
    rw [(takeWhile_append_of_stops hw.1.2 hs).1, (takeWhile_append_of_stops hw.1.2 hs).2] at hstar
    exact hk.absent.seq ((oneOf_wordStart.takes hw.1.1).seq hstar)

theorem lacks_name {s : List Char} (h : isName (lead s) = false) :
    Lacks Rule.identifier.body s := by
  by_cases hr : lead s ∈ reserved
  · have hs : s = lead s ++ s.dropWhile isWordChar := (List.takeWhile_append_dropWhile ..).symm
    have ht : Takes (.call .keyword) s (lead s) (s.dropWhile isWordChar) := by
      intro o
      have := takes_keyword hr (stops_dropWhile isWordChar s) o
      rw [← hs] at this
      obtain ⟨ts, o', he, htext⟩ := this
      exact ⟨ts, o', .call_some he, htext⟩
    exact ht.absent.seq
  · have hk : Lacks (.call .keyword) s := fun o => .call_none (lacks_keyword hr o)
    refine hk.absent.seq_lacks (Lacks.seq ?_)
    cases s with
    | nil => exact oneOf_wordStart.lacks_nil
    | cons c s =>
      refine oneOf_wordStart.lacks ?_
      cases hc : isWordStart c with
      | false => rfl
      | true =>
        rw [lead, List.takeWhile_cons_of_pos (isWordChar_of_isWordStart hc)] at h hr
        simp [isName, hc, hr] at h

/-- What is read as an identifier is a name. -/
theorem name_of_ends {o : Nat} {s : List Char} {c : Cursor} {ts : List Tree}
    (h : Ends .tight Rule.identifier.body ⟨o, s⟩ (some (ts, c))) : isName (textAll ts) = true := by
  cases hn : isName (lead s) with
  | false => exact absurd h (lacks_name hn).not_ends
  | true =>
    have ht := takes_name hn (stops_dropWhile isWordChar s)
    rw [show lead s ++ s.dropWhile isWordChar = s from List.takeWhile_append_dropWhile ..] at ht
    rw [(ht.unique h).1, hn]

end Token

end Mt22
