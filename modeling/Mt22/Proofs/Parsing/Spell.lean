import Mt22.Proofs.Parsing.Complete
import Mt22.Proofs.Tree.Leaves

/-!
# What is read is laid out

The leaves of what an expression has read are placed in the text that it has read
(`Peg.placed_of_matches`): no trivia starts where a token does, a word does not go on where it ends,
and the trivia between two tokens is all that stands there.  So a reading loses no token and makes up
none (`Placed.lays`).

What stands after placed leaves can be exchanged for a text that starts with white space, with a mark
such as `;`, or with the same character as before (`Placed.lays_exchange`).  The tokens before it stay
what they are: such a character prolongs no word, and a `/` before it opens no comment.
-/

namespace Mt22

open Mt22.Tree Mt22.Token Mt22.Trivia

/-- A keyword that is read as a whole word does not go on. -/
theorem stops_of_headOf_word {w s : List Char} (hw : w ∈ reserved) (h : headOf (w ++ s) = .word w) :
    Stops isWordChar s := by
  obtain ⟨hne, hall, hstart⟩ := reserved_isWord w hw
  cases w with
  | nil => exact absurd rfl hne
  | cons c cs =>
    have hc : isWordStart c = true := by simpa using hstart
    rw [List.cons_append, headOf, if_pos hc] at h
    split at h
    · have hlead : lead (c :: (cs ++ s)) = c :: cs := Head.word.inj h
      have hdrop := List.takeWhile_append_dropWhile (p := isWordChar) (l := c :: (cs ++ s))
      rw [show List.takeWhile isWordChar (c :: (cs ++ s)) = c :: cs from hlead,
        ← List.cons_append] at hdrop
      rw [← List.append_cancel_left hdrop]
      exact stops_dropWhile isWordChar _
    · cases h

/-- A name that was read does not go on. -/
theorem stops_of_name {o : Nat} {s : List Char} {c : Cursor} {ts : List Tree}
    (h : Peg.Ends .tight Rule.identifier.body ⟨o, s⟩ (some (ts, c))) : Stops isWordChar c.rest := by
  cases hn : isName (lead s) with
  | false => exact absurd h (lacks_name hn).not_ends
  | true =>
    have ht := takes_name hn (stops_dropWhile isWordChar s)
    rw [show lead s ++ s.dropWhile isWordChar = s from List.takeWhile_append_dropWhile ..] at ht
    rw [(ht.unique h).2]
    exact stops_dropWhile isWordChar s

/-- A number is no word. -/
theorem bounded_number {w : List Char} (h : isInteger w = true ∨ IsFloat w) (s : List Char) :
    Bounded w s := by
  intro hw
  have hdigit : ∀ {v x : List Char}, isInteger v = true →
      (v ++ x).head?.any isWordStart = false := by
    intro v x hv
    obtain ⟨c, cs, rfl, hc⟩ := isInteger_head hv
    simpa using isWordStart_of_isDigit hc
  have hnone : w.head?.any isWordStart = false := by
    rcases h with h | ⟨i, f, x, rfl, hi, -⟩ | ⟨i, x, rfl, hi, -⟩ | ⟨f, x, rfl, ⟨ds, rfl, -⟩, -⟩
    · have := hdigit (x := []) h
      rwa [List.append_nil] at this
    · rw [List.append_assoc]
      exact hdigit hi
    · exact hdigit hi
    · rfl
  rw [hnone] at hw
  cases hw

/-! ### Placed leaves -/

/-- These leaves, followed by the rest, are what the text is made of: no trivia starts where a token
does, a word does not go on, and trivia is the longest run there is. -/
def Placed : List Tree → List Char → Prop
  | [], _ => True
  | .token w :: ls, rest =>
    piece? (w ++ (textAll ls ++ rest)) = none ∧ Bounded w (textAll ls ++ rest) ∧ Placed ls rest
  | .trivia v :: ls, rest =>
    v ≠ [] ∧ skip (v ++ (textAll ls ++ rest)) = (v, textAll ls ++ rest) ∧ Placed ls rest
  | .node .. :: _, _ => False

theorem placed_append {xs ys : List Tree} {rest : List Char} :
    Placed (xs ++ ys) rest ↔ Placed xs (textAll ys ++ rest) ∧ Placed ys rest := by
  induction xs with
  | nil => simp [Placed]
  | cons x xs ih =>
    cases x with
    | token w =>
      simp only [List.cons_append, Placed, textAll_append, List.append_assoc, ih]
      tauto
    | trivia v =>
      simp only [List.cons_append, Placed, textAll_append, List.append_assoc, ih]
      tauto
    | node => simp [Placed]

theorem placed_token {w rest : List Char} (hp : piece? (w ++ rest) = none) (hb : Bounded w rest) :
    Placed [.token w] rest := ⟨hp, hb, trivial⟩

/-- The trees of two readings one after the other, the second of which read `us`. -/
theorem placed_leavesAll_append {ts us : List Tree} {mid rest : List Char}
    (ht : Placed (leavesAll ts) mid) (hu : Placed (leavesAll us) rest)
    (hmid : textAll us ++ rest = mid) : Placed (leavesAll (ts ++ us)) rest := by
  rw [leavesAll_append, placed_append, textAll_leavesAll, hmid]
  exact ⟨ht, hu⟩

/-- The trivia that is skipped is placed. -/
theorem placed_skip (c : Cursor) :
    Placed (leavesAll (Mode.normal.skip c).1) (Mode.normal.skip c).2.rest := by
  have happ := skip_append c.rest
  show Placed (leavesAll (if (skip c.rest).1.isEmpty then [] else [.trivia (skip c.rest).1]))
    (skip c.rest).2
  split
  · trivial
  · next hne =>
    refine ⟨by simpa using hne, ?_, trivial⟩
    show skip ((skip c.rest).1 ++ (skip c.rest).2) = _
    rw [happ]
    rfl

/-- **The tokens of placed leaves are laid out.** -/
theorem Placed.lays {xs : List Tree} {rest : List Char} (h : Placed xs rest) :
    Lays (tokensAll xs) (textAll xs ++ rest) rest := by
  induction xs with
  | nil => rfl
  | cons x xs ih =>
    cases x with
    | token w =>
      obtain ⟨hp, hb, hxs⟩ := h
      exact ⟨textAll xs ++ rest, by simp [text, after_of_piece?_none hp], hb, ih hxs⟩
    | trivia v =>
      obtain ⟨-, hskip, hxs⟩ := h
      refine lays_congr ?_ rfl (ih hxs)
      have hafter : after (v ++ (textAll xs ++ rest)) = textAll xs ++ rest := congrArg Prod.snd hskip
      rw [textAll_cons, text, List.append_assoc, hafter, ← hafter, after_after, hafter]
    | node => exact False.elim h

/-- The trivia with which the leaves end is all that stands before the rest. -/
theorem Placed.skip_last {xs : List Tree} {rest v : List Char} (h : Placed xs rest)
    (hlast : xs.getLast? = some (.trivia v)) : skip (v ++ rest) = (v, rest) := by
  obtain ⟨ys, rfl⟩ := List.getLast?_eq_some_iff.mp hlast
  exact (placed_append.mp h).2.2.1

/-! ### Another text after placed leaves -/

/-- The first leaf has a first character, which is a `*` only if it starts a token. -/
theorem Placed.head {l : Tree} {ls : List Tree} {rest : List Char} (h : Placed (l :: ls) rest)
    (hl : ∀ w ∈ tokensAll (l :: ls), isLexeme w = true) : ∃ c s, textAll (l :: ls) = c :: s ∧
      (c = '*' → ∃ w, (tokensAll (l :: ls)).head? = some w ∧ w.head? = some '*') := by
  cases l with
  | token w =>
    have hw := hl w (by simp)
    cases w with
    | nil => cases hw
    | cons c cs => exact ⟨c, cs ++ textAll ls, rfl, fun hc => ⟨c :: cs, rfl, congrArg some hc⟩⟩
  | trivia v =>
    obtain ⟨hne, hskip, -⟩ := h
    cases hp : piece? (v ++ (textAll ls ++ rest)) with
    | none =>
      rw [skip_of_piece?_none hp] at hskip
      exact absurd (congrArg Prod.fst hskip).symm hne
    | some p =>
      obtain ⟨c, r, hv, hc⟩ := head_of_piece? hp
      cases v with
      | nil => exact absurd rfl hne
      | cons d v =>
        obtain rfl : d = c := (List.cons.inj hv).1
        refine ⟨d, v ++ textAll ls, rfl, ?_⟩
        rintro rfl
        rcases hc with hc | hc <;> cases hc
  | node => exact False.elim h

/-- A slash before neither of the characters that open a comment is no trivia. -/
theorem piece?_slash {c : Char} (hs : c ≠ '/') (hb : c ≠ '*') (s : List Char) :
    piece? ('/' :: c :: s) = none := by
  unfold piece?
  split
  · next h => simp_all
  · next h => simp_all
  · next h =>
    obtain ⟨rfl, rfl⟩ := List.cons.inj h
    rfl
  · rfl

theorem not_isWordChar_of_isSpace {c : Char} (h : isSpace c = true) : isWordChar c = false := by
  simp only [isSpace, Bool.or_eq_true, decide_eq_true_eq] at h
  rcases h with (((rfl | rfl) | rfl) | rfl) | rfl <;> decide

/-- A character that prolongs no word, and opens no comment after a slash. -/
def endsToken (c : Char) : Bool := !isWordChar c && c ≠ '/' && c ≠ '*'

theorem endsToken_of_isSpace {c : Char} (h : isSpace c = true) : endsToken c = true := by
  rw [endsToken, not_isWordChar_of_isSpace h]
  simp only [isSpace, Bool.or_eq_true, decide_eq_true_eq] at h
  rcases h with (((rfl | rfl) | rfl) | rfl) | rfl <;> decide

/-- What comes after a token can be exchanged for a text that starts with such a character, or with
the same one as before. -/
def Replaces (c : Char) (rest : List Char) : Prop :=
  endsToken c = true ∨ rest.head? = some c ∧ c ≠ '*'

theorem Replaces.piece?_slash {c : Char} {rest : List Char} (h : Replaces c rest)
    (hp : piece? ('/' :: rest) = none) (z : List Char) : piece? ('/' :: c :: z) = none := by
  rcases h with h | ⟨hrest, hstar⟩
  · simp only [endsToken, Bool.and_eq_true, decide_eq_true_eq] at h
    exact Mt22.piece?_slash h.1.2 h.2 z
  · obtain ⟨r, rfl⟩ := List.head?_eq_some_iff.mp hrest
    refine Mt22.piece?_slash ?_ hstar z
    rintro rfl
    cases hp

theorem Replaces.stops {c : Char} {rest : List Char} (h : Replaces c rest)
    (hs : Stops isWordChar rest) (z : List Char) : Stops isWordChar (c :: z) := by
  rcases h with h | ⟨hrest, -⟩
  · simp only [endsToken, Bool.and_eq_true, Bool.not_eq_true'] at h
    exact stops_cons h.1.1
  · exact stops_cons (hs c hrest)

/-- What comes after a slash that is a token does not make it open a comment. -/
theorem Placed.after_slash {l : Tree} {ls : List Tree} {rest : List Char}
    (h : Placed (.token ['/'] :: l :: ls) rest)
    (hl : ∀ w ∈ tokensAll (l :: ls), isLexeme w = true)
    (hu : Unslashed (tokensAll (.token ['/'] :: l :: ls))) :
    ∃ c s, textAll (l :: ls) = c :: s ∧ c ≠ '/' ∧ c ≠ '*' := by
  obtain ⟨hp, -, hplaced⟩ := h
  obtain ⟨c, s, hs, hstar⟩ := hplaced.head hl
  refine ⟨c, s, hs, ?_, fun hc => ?_⟩
  · rintro rfl
    rw [hs] at hp
    cases hp
  · obtain ⟨v, hv, hvs⟩ := hstar hc
    cases htok : tokensAll (l :: ls) with
    | nil => rw [htok] at hv; cases hv
    | cons u us =>
      rw [tokensAll_cons, tokens_token, htok] at hu
      obtain rfl : u = v := by simpa [htok] using hv
      exact (List.isChain_cons_cons.mp hu).1 rfl hvs

/-- A token stays one when what comes after its leaves is exchanged. -/
theorem Placed.token_onto {w : List Char} {ls : List Tree} {rest z : List Char} {c : Char}
    (h : Placed (.token w :: ls) rest) (hl : ∀ v ∈ tokensAll (.token w :: ls), isLexeme v = true)
    (hu : Unslashed (tokensAll (.token w :: ls))) (hc : Replaces c rest) :
    piece? (w ++ (textAll ls ++ c :: z)) = none ∧ Bounded w (textAll ls ++ c :: z) := by
  have hls : ∀ v ∈ tokensAll ls, isLexeme v = true := fun v hv => hl v (by simp [hv])
  constructor
  · have hw := hl w (by simp)
    cases w with
    | nil => cases hw
    | cons d cs =>
      simp only [isLexeme, Bool.and_eq_true, Bool.or_eq_true, Bool.not_eq_true', List.isEmpty_iff,
        decide_eq_true_eq] at hw
      by_cases hd : d = '/'
      · -- the next character decides whether the slash opens a comment
        obtain rfl := hw.1.2.resolve_left (absurd hd)
        subst hd
        cases ls with
        | nil => exact hc.piece?_slash h.1 z
        | cons l ls =>
          obtain ⟨x, s, hs, hslash, hstar⟩ := h.after_slash hls hu
          rw [hs]
          exact piece?_slash hslash hstar _
      · exact piece?_cons_eq_none hw.1.1 hd _
  · intro hword
    obtain ⟨-, hb, hplaced⟩ := h
    cases ls with
    | nil => exact hc.stops (hb hword) z
    | cons l ls =>
      obtain ⟨x, s, hs, -⟩ := hplaced.head hls
      have hstop := hb hword
      rw [hs] at hstop ⊢
      exact stops_cons (hstop x rfl)

/-- **What stands after placed leaves can be exchanged**, provided that the text in its place ends
the trivia with which the leaves end. -/
theorem Placed.lays_exchange {xs : List Tree} {rest z : List Char} {c : Char} (h : Placed xs rest)
    (hl : ∀ w ∈ tokensAll xs, isLexeme w = true) (hu : Unslashed (tokensAll xs))
    (hc : Replaces c rest)
    (hend : ∀ v, xs.getLast? = some (.trivia v) → after (v ++ c :: z) = after (c :: z)) :
    Lays (tokensAll xs) (textAll xs ++ c :: z) (c :: z) := by
  induction xs with
  | nil => rfl
  | cons x xs ih =>
    have hl' : ∀ w ∈ tokensAll xs, isLexeme w = true := fun w hw => hl w (by simp [hw])
    have hend' : ∀ v, xs.getLast? = some (.trivia v) → after (v ++ c :: z) = after (c :: z) := by
      intro v hv
      exact hend v (by rw [List.getLast?_cons, hv]; rfl)
    cases x with
    | token w =>
      obtain ⟨hp, hb⟩ := h.token_onto (z := z) hl hu hc
      exact ⟨textAll xs ++ c :: z, by simp [text, after_of_piece?_none hp], hb,
        ih h.2.2 hl' (List.IsChain.tail hu) hend'⟩
    | trivia v =>
      obtain ⟨-, hskip, hxs⟩ := h
      refine lays_congr ?_ rfl (ih hxs hl' hu hend')
      rw [textAll_cons, text, List.append_assoc]
      cases xs with
      | nil => exact (hend v rfl).symm
      | cons l ls =>
        -- something comes after the trivia, so that it is complete
        obtain ⟨d, s, hs, -⟩ := hxs.head hl'
        have hblank : Blank v := (run_of_skip hskip).blank (by rw [hs]; simp)
        exact (after_blank hblank _).symm
    | node => exact False.elim h

/-- After placed leaves any text may stand that starts with white space or a mark. -/
theorem Placed.lays_onto {xs : List Tree} {rest z : List Char} {c : Char} (h : Placed xs rest)
    (hl : ∀ w ∈ tokensAll xs, isLexeme w = true) (hu : Unslashed (tokensAll xs))
    (hc : endsToken c = true)
    (hend : ∀ v, xs.getLast? = some (.trivia v) → after (v ++ c :: z) = after (c :: z)) :
    Lays (tokensAll xs) (textAll xs ++ c :: z) (c :: z) :=
  h.lays_exchange hl hu (.inl hc) hend

namespace Peg

/-- A token of a class, where no trivia stands before it. -/
theorem placed_of_token {r : Rule} (hr : r.isToken = true) (hne : r ≠ .strBody) {c c' : Cursor}
    {ts : List Tree} (hp : piece? c.rest = none) (h : Matches .tight r.body c ts c') :
    Placed [.token (textAll ts)] c'.rest := by
  refine placed_token (by rw [h.textAll_rest]; exact hp) ?_
  simp only [Rule.isToken, Bool.or_eq_true, decide_eq_true_eq] at hr
  rcases hr with ((rfl | rfl) | rfl) | rfl
  · exact fun _ => stops_of_name (o := c.offset) h.ends
  · exact bounded_number (.inl (integer_of_ends (o := c.offset) h.ends)) _
  · exact bounded_number (.inr (float_of_ends (o := c.offset) h.ends)) _
  · exact absurd rfl hne

theorem leavesAll_leave_node {r : Rule} (hk : r.kind = .plain) (c c' : Cursor) (parts : List Tree) :
    leavesAll (Mode.normal.leave r c c' parts) = leavesAll parts := by
  rw [Mode.leave_node rfl (.inl hk), leavesAll, leaves_node (Rule.ne_strLit_of_plain hk), leavesAll,
    List.append_nil]

theorem leavesAll_leave_token {r : Rule} (hr : r.isToken = true) (c c' : Cursor)
    (parts : List Tree) :
    leavesAll (Mode.normal.leave r c c' parts) = [.token (textAll parts)] := by
  have hne : r ≠ .strLit := by
    rintro rfl
    cases hr
  rw [Mode.leave_token rfl (kind_of_isToken hr), leavesAll, leaves_node hne]
  rfl

/-- What is read after trivia is placed together with the trivia. -/
theorem placed_after_skip {e : Peg} {c c' : Cursor} {ts : List Tree}
    (h : Matches .normal e (Mode.normal.skip c).2 ts c') (hts : Placed (leavesAll ts) c'.rest) :
    Placed (leavesAll ((Mode.normal.skip c).1 ++ ts)) c'.rest :=
  placed_leavesAll_append (placed_skip c) hts h.textAll_rest

/-- A string literal is one token. -/
theorem placed_of_strLit {c c' : Cursor} {parts : List Tree} (hp : piece? c.rest = none)
    (h : Matches .normal (.call .strLit) c [.node .strLit c.offset c'.offset parts] c') :
    Placed [.token (textAll parts)] c'.rest := by
  have htext : textAll parts ++ c'.rest = c.rest := by simpa using h.textAll_rest
  obtain ⟨-, hc, -⟩ := fits_of_matches h rfl rfl
  obtain ⟨b, -, -, hquote⟩ := (Is.of_conforms (hc _ List.mem_cons_self rfl)).strLit_tokens
  have hquote : textAll parts = '"' :: (b ++ ['"']) := hquote
  refine placed_token (by rw [htext]; exact hp) ?_
  rw [hquote]
  rintro ⟨⟩

/-- A keyword is one token. -/
theorem placed_of_word {c c' : Cursor} {ts : List Tree} {w : List Char} (hw : w ∈ reserved)
    (hp : piece? c.rest = none)
    (h : Matches .normal (.seq (.ahead (.call .keyword)) (.text w)) c ts c') :
    Placed (leavesAll ts) c'.rest := by
  cases h with
  | @seq _ _ _ _ ca _ _ _ ha hb =>
    obtain ⟨rfl, rfl, rfl, hrest⟩ := matches_word ha hb
    have hgap : (Mode.normal.skip ca).1 = [] := by
      simp [Mode.skip, Mode.normal, skip_of_piece?_none hp]
    rw [Mode.rest_skip_of_piece?_none hp] at hrest
    rw [hgap]
    refine placed_token (by rw [← hrest]; exact hp) fun _ => stops_of_headOf_word hw ?_
    rw [← hrest]
    exact headOf_of_ahead hw ha hrest

/-- **The leaves of what was read are placed in the text.** -/
theorem placed_of_matches {m : Mode} {e : Peg} {c c' : Cursor} {ts : List Tree}
    (h : Matches m e c ts c') (hnormal : m = .normal) (he : e.isSyntax = true)
    (hm : e.isMarked = true) (hstart : piece? c.rest = none ∨ ∃ a, e = .more a) :
    Placed (leavesAll ts) c'.rest := by
  induction h with
  | @text m s rest c hrest =>
    have hp := hstart.resolve_right (by simp)
    rw [hrest] at hp
    refine placed_token hp ?_
    intro hw
    cases s with
    | nil => cases hm
    | cons x s =>
      simp only [isMarked, List.head?_cons, Option.any_some, Bool.and_eq_true,
        Bool.not_eq_true'] at hm hw
      rw [hm.1] at hw
      cases hw
  | one | absent => cases he
  | start | finish | without | starNil | moreNil | ahead => trivial
  | @call m r c c' parts h ih =>
    subst hnormal
    have hp := hstart.resolve_right (by simp)
    have hne : r ≠ .strBody := by
      rintro rfl
      cases hm
    simp only [isSyntax, Bool.or_eq_true, decide_eq_true_eq] at he
    rcases he with (hk | hk) | ht
    · obtain ⟨-, hmark⟩ := Rule.first_body r hk hm
      rw [leavesAll_leave_node hk]
      exact ih (by rw [hk]; rfl) (Rule.isSyntax_body r (.inl hk)) hmark (.inl hp)
    · obtain rfl := Rule.eq_strLit_of_compound hk
      exact placed_of_strLit hp (.call h)
    · rw [kind_of_isToken ht] at h
      rw [leavesAll_leave_token ht]
      exact placed_of_token ht hne hp h
  | @seq m a b c ca c' ta tb ha hb iha ihb =>
    subst hnormal
    have hp := hstart.resolve_right (by simp)
    cases hw : (seq a b).word? with
    | some w =>
      obtain ⟨rfl, rfl⟩ := seq.inj (eq_word_of_word? hw)
      exact placed_of_word (by simpa [isMarked, hw] using hm) hp (.seq ha hb)
    | none =>
      obtain ⟨hea, heb⟩ := Bool.and_eq_true_iff.mp he
      have hmark : a.isMarked = true ∧ b.isMarked = true := by simpa [isMarked, hw] using hm
      rw [List.append_assoc]
      refine placed_leavesAll_append (iha rfl hea hmark.1 (.inl hp))
        (placed_after_skip hb (ihb rfl heb hmark.2 (.inl (piece?_after ca.rest)))) ?_
      rw [textAll_append, List.append_assoc, hb.textAll_rest, Mode.textAll_skip]
  | left _ ih =>
    have hp := hstart.resolve_right (by simp)
    exact ih hnormal (Bool.and_eq_true_iff.mp he).1 (Bool.and_eq_true_iff.mp hm).1 (.inl hp)
  | right _ _ ih =>
    have hp := hstart.resolve_right (by simp)
    exact ih hnormal (Bool.and_eq_true_iff.mp he).2 (Bool.and_eq_true_iff.mp hm).2 (.inl hp)
  | within _ ih => exact ih hnormal he hm (.inl (hstart.resolve_right (by simp)))
  | starCons _ hu iha ihu =>
    exact placed_leavesAll_append (iha hnormal he hm (.inl (hstart.resolve_right (by simp))))
      (ihu hnormal he hm (.inr ⟨_, rfl⟩)) hu.textAll_rest
  | @moreCons m a c ca c' ta us ha hu iha ihu =>
    subst hnormal
    exact placed_leavesAll_append
      (placed_after_skip ha (iha rfl he hm (.inl (piece?_after c.rest))))
      (ihu rfl he hm (.inr ⟨_, rfl⟩)) hu.textAll_rest

end Peg

end Mt22
