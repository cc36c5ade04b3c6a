import Mt22.Proofs.Parsing.Spell
import Mt22.Proofs.Token.Zone
import Mt22.Proofs.Tree.Vocabulary

/-!
# Where a character of a text stands

The leaves of what was read are the text, so that every character of the text is in one of them.
The zone in which the text before it ends tells in which: a character that follows no open comment
and no open string is part of a token (`Written.cut`).

The leaves before such a place keep their tokens when another text comes after them, with the space
between them (`Written.lays_exchange`) or without it (`Written.lays_trim`).
-/

namespace Mt22

open Mt22.Tree Mt22.Token Mt22.Trivia

/-! ### Characters of trees and tokens -/

/-- Every character of the text of some trees is in one of them. -/
theorem Tree.exists_leaf {xs : List Tree} {P Q : List Char} {c : Char}
    (h : textAll xs = P ++ c :: Q) :
    ∃ ls l rs p q, xs = ls ++ l :: rs ∧ l.text = p ++ c :: q ∧ P = textAll ls ++ p ∧
      Q = q ++ textAll rs := by
  induction xs generalizing P with
  | nil => simp at h
  | cons x xs ih =>
    rw [textAll_cons] at h
    have hlater : ∀ P', textAll xs = P' ++ c :: Q → P = x.text ++ P' → ∃ ls l rs p q,
        x :: xs = ls ++ l :: rs ∧ l.text = p ++ c :: q ∧ P = textAll ls ++ p ∧
          Q = q ++ textAll rs := by
      intro P' hxs hP
      obtain ⟨ls, l, rs, p, q, rfl, hl, rfl, hQ⟩ := ih hxs
      exact ⟨x :: ls, l, rs, p, q, rfl, hl, by rw [hP, textAll_cons, List.append_assoc], hQ⟩
    rcases List.append_eq_append_iff.mp h with ⟨P', hP, hxs⟩ | ⟨r, hx, hr⟩
    · exact hlater P' hxs hP
    · cases r with
      | nil => exact hlater [] hr.symm (by rw [hx]; simp)
      | cons d r =>
        obtain ⟨rfl, hQ⟩ := List.cons.inj hr
        exact ⟨[], x, xs, P, r, rfl, hx, rfl, hQ⟩

/-- No token ends with a space. -/
theorem Token.getLast?_ne_space {w : List Char} (h : IsQuoted w ∨ isPlain w = true) :
    w.getLast? ≠ some ' ' := by
  rcases h with ⟨b, -, rfl⟩ | hw
  · rw [← List.cons_append, List.getLast?_concat]
    decide
  · rcases isPlain_cases hw with rfl | rfl | hinner
    · decide
    · decide
    · intro hlast
      have hspace := (hinner ' ' (List.mem_of_getLast? hlast)).1
      cases hspace

namespace Zone

/-- A token with no mark in it leaves nothing open. -/
theorem after_inner {w : List Char}
    (h : ∀ c ∈ w, isSpace c = false ∧ c ≠ '/' ∧ c ≠ '"' ∧ c ≠ '\x7b') (s : List Char) :
    after code (w ++ s) = after code s := by
  induction w with
  | nil => rfl
  | cons c w ih =>
    obtain ⟨⟨-, hslash, hquote, -⟩, hw⟩ := List.forall_mem_cons.mp h
    rw [List.cons_append, Zone.after, ih hw]
    · exact fun _ hc => absurd hc hslash
    · exact fun _ hc => absurd hc hslash
    · exact hquote

/-- A slash leaves nothing open before a character that makes no comment of it. -/
theorem after_slash {c d : Char} {s t u : List Char} (h : s ++ c :: t = d :: u) (hslash : d ≠ '/')
    (hstar : d ≠ '*') : after code ('/' :: s) = after code s := by
  cases s with
  | nil => rfl
  | cons e s =>
    obtain ⟨rfl, -⟩ := List.cons.inj h
    rw [Zone.after]
    · rintro _ - ⟨⟩
      exact hslash rfl
    · rintro _ - ⟨⟩
      exact hstar rfl
    · decide

/-- A place inside of a string. -/
theorem after_quoted_cut {w p q : List Char} {c : Char} (h : IsQuoted w) (hw : w = p ++ c :: q)
    (hc : c ≠ '"') : after code p = string ∧ '"' ∈ q := by
  obtain ⟨b, hb, rfl⟩ := h
  cases p with
  | nil => exact absurd (List.cons.inj hw).1.symm hc
  | cons d p =>
    obtain ⟨rfl, htail⟩ := List.cons.inj hw
    rcases List.eq_nil_or_concat q with rfl | ⟨q, e, rfl⟩
    · exact absurd (List.cons.inj (List.append_inj' htail rfl).2).1.symm hc
    · have hsplit : b ++ ['"'] = p ++ c :: q ++ [e] := by simpa using htail
      obtain ⟨hbody, he⟩ := List.append_inj' hsplit rfl
      refine ⟨after_string_cut hb hbody, ?_⟩
      rw [List.concat_eq_append, ← he]
      simp

end Zone

/-! ### Leaves in a text -/

/-- Leaves as they are written before the rest of a text: they are placed there, and their tokens are
those of the language. -/
structure Written (xs : List Tree) (rest : List Char) : Prop where
  placed : Placed xs rest
  lexemes : ∀ w ∈ tokensAll xs, isLexeme w = true
  unslashed : Unslashed (tokensAll xs)
  plain : ∀ w ∈ tokensAll xs, IsQuoted w ∨ isPlain w = true

namespace Written

variable {xs ys : List Tree} {rest : List Char}

theorem left (h : Written (xs ++ ys) rest) : Written xs (textAll ys ++ rest) where
  placed := (placed_append.mp h.placed).1
  lexemes w hw := h.lexemes w (by simp [hw])
  unslashed := (List.isChain_append.mp (tokensAll_append xs ys ▸ h.unslashed)).1
  plain w hw := h.plain w (by simp [hw])

theorem right (h : Written (xs ++ ys) rest) : Written ys rest where
  placed := (placed_append.mp h.placed).2
  lexemes w hw := h.lexemes w (by simp [hw])
  unslashed := (List.isChain_append.mp (tokensAll_append xs ys ▸ h.unslashed)).2.1
  plain w hw := h.plain w (by simp [hw])

theorem tail {x : Tree} (h : Written (x :: xs) rest) : Written xs rest :=
  right (show Written ([x] ++ xs) rest from h)

/-- The trivia before something is blank. -/
theorem blank_of_trivia {v : List Char} (h : Written (.trivia v :: xs) rest)
    (hne : textAll xs ++ rest ≠ []) : Blank v := by
  obtain ⟨-, hskip, -⟩ := h.placed
  exact (run_of_skip hskip).blank hne

/-- The characters of the tokens of leaves are in their text. -/
theorem mem_textAll {w : List Char} {c : Char} (h : Written xs rest)
    (hw : w ∈ tokensAll xs) (hc : c ∈ w) : c ∈ textAll xs := by
  induction xs with
  | nil => cases hw
  | cons x xs ih =>
    rw [tokensAll_cons, List.mem_append] at hw
    rw [textAll_cons, List.mem_append]
    rcases hw with hw | hw
    · left
      cases x with
      | token v => exact List.mem_singleton.mp hw ▸ hc
      | trivia v => cases hw
      | node => exact False.elim h.placed
    · exact .inr (ih h.tail hw)

/-- **Leaves leave nothing open**, up to any place in the leaf after them. -/
theorem zone {l : Tree} {p q : List Char} {c : Char} (h : Written (xs ++ l :: ys) rest)
    (hl : l.text = p ++ c :: q) : Zone.after .code (textAll xs ++ p) = Zone.after .code p := by
  induction xs with
  | nil => rfl
  | cons x xs ih =>
    have htail : Written (xs ++ l :: ys) rest := h.tail
    have htext : textAll (xs ++ l :: ys) = textAll xs ++ p ++ c :: (q ++ textAll ys) := by
      simp [hl]
    rw [List.cons_append] at h
    rw [textAll_cons, List.append_assoc]
    refine Eq.trans ?_ (ih htail)
    cases x with
    | token w =>
      rcases h.plain w (by simp) with ⟨b, hb, rfl⟩ | hw
      · show Zone.after .string (b ++ ['"'] ++ (textAll xs ++ p)) = _
        rw [List.append_assoc]
        exact Zone.after_string hb _
      · rcases isPlain_cases hw with rfl | rfl | hinner
        · -- the slash opens no comment with what comes after it
          obtain ⟨y, zs, hz⟩ : ∃ y zs, xs ++ l :: ys = y :: zs :=
            List.exists_cons_of_ne_nil (by simp)
          rw [hz] at h htail htext
          obtain ⟨d, s, hs, hslash, hstar⟩ := h.placed.after_slash htail.lexemes h.unslashed
          exact Zone.after_slash (htext.symm.trans hs) hslash hstar
        · rfl
        · exact Zone.after_inner hinner _
    | trivia v =>
      refine Zone.after_blank (h.blank_of_trivia ?_) _
      rw [htext]
      simp
    | node => exact False.elim h.placed

/-- **A character is part of a token, or the text before it leaves a comment or a string open**, of
which a block comment and a string end after it. -/
theorem cut {P Q : List Char} {c : Char} (h : Written xs rest) (htext : textAll xs = P ++ c :: Q)
    (hspace : isSpace c = false) (hmark : Zone.isMark c = false) :
    Zone.after .code P = .line ∨ Zone.after .code P = .block ∧ '*' ∈ Q ∨
      Zone.after .code P = .string ∧ '"' ∈ Q ∨
      ∃ ls w rs p q, xs = ls ++ .token w :: rs ∧ w = p ++ c :: q ∧ isPlain w = true ∧
        P = textAll ls ++ p ∧ Q = q ++ textAll rs := by
  obtain ⟨ls, l, rs, p, q, rfl, hl, rfl, rfl⟩ := exists_leaf htext
  rw [h.zone hl]
  have hleaf : Written (l :: rs) rest := h.right
  cases l with
  | token w =>
    rcases h.plain w (by simp) with hquoted | hplain
    · have hc : c ≠ '"' := by
        rintro rfl
        cases hmark
      obtain ⟨hzone, hq⟩ := Zone.after_quoted_cut hquoted hl hc
      exact .inr (.inr (.inl ⟨hzone, List.mem_append_left _ hq⟩))
    · exact .inr (.inr (.inr ⟨ls, w, rs, p, q, rfl, hl, hplain, rfl, rfl⟩))
  | trivia v =>
    rcases Zone.after_trivia (run_of_skip hleaf.placed.2.1) hl hspace hmark with hline | ⟨hblock, hq⟩
    · exact .inl hline
    · exact .inr (.inl ⟨hblock, List.mem_append_left _ hq⟩)
  | node => exact False.elim hleaf.placed

/-! ### Another text after the leaves -/

/-- What stands after leaves can be exchanged. -/
theorem lays_exchange {c : Char} (h : Written xs rest) (hne : rest ≠ []) (hc : Replaces c rest)
    (z : List Char) : Lays (tokensAll xs) (textAll xs ++ c :: z) (c :: z) := by
  refine h.placed.lays_exchange h.lexemes h.unslashed hc fun v hv => ?_
  obtain ⟨ys, rfl⟩ := List.getLast?_eq_some_iff.mp hv
  exact after_blank (h.right.blank_of_trivia (by simpa using hne)) _

/-- **The space with which leaves end can be left out** where a mark comes next. -/
theorem lays_trim {u : List Char} {c : Char} (h : Written xs rest) (hne : rest ≠ [])
    (htext : textAll xs = u ++ [' ']) (hc : endsToken c = true) (z : List Char) :
    Lays (tokensAll xs) (u ++ c :: z) (c :: z) := by
  rcases List.eq_nil_or_concat xs with rfl | ⟨ls, l, rfl⟩
  · simp at htext
  rw [List.concat_eq_append] at h htext ⊢
  have hlast : Written [l] rest := h.right
  rw [textAll_append, textAll_cons, textAll_nil, List.append_nil] at htext
  cases l with
  | token w =>
    -- the text of a token is not empty and does not end with a space
    have hw : w ≠ [] := by
      rintro rfl
      cases hlast.lexemes [] (by simp)
    have hspace : (textAll ls ++ w).getLast? = (u ++ [' ']).getLast? := congrArg List.getLast? htext
    rw [List.getLast?_append_of_ne_nil _ hw, List.getLast?_concat] at hspace
    exact absurd hspace (getLast?_ne_space (hlast.plain w (by simp)))
  | node => exact False.elim hlast.placed
  | trivia v =>
    obtain ⟨v, rfl, rfl⟩ : ∃ v', v = v' ++ [' '] ∧ u = textAll ls ++ v' := by
      rcases List.eq_nil_or_concat v with rfl | ⟨v', d, rfl⟩
      · exact absurd rfl hlast.placed.1
      · have hsplit : textAll ls ++ v' ++ [d] = u ++ [' '] := by simpa [text] using htext
        obtain ⟨hu, hd⟩ := List.append_inj' hsplit rfl
        exact ⟨v', by rw [List.concat_eq_append, hd], hu.symm⟩
    have hblank : Blank v := blank_of_append_space (hlast.blank_of_trivia (by simpa using hne))
    have hls : Written ls (v ++ ' ' :: rest) := by simpa [text] using h.left
    have htokens : tokensAll (ls ++ [.trivia (v ++ [' '])]) = tokensAll ls := by simp
    rw [htokens, List.append_assoc]
    cases v with
    | nil => exact hls.lays_exchange (by simp) (.inl hc) z
    | cons d v =>
      have hd : d ≠ '*' := by
        rintro rfl
        cases hblank with
        | space hstar => cases hstar
      have hlays := hls.lays_exchange (by simp) (.inr ⟨rfl, hd⟩) (v ++ c :: z)
      exact lays_congr rfl (after_blank hblank (c :: z)) hlays

end Written

end Mt22
