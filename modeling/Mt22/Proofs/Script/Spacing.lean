import Mt22.Proofs.Program.Alike
import Mt22.Proofs.Script.Reading
import Mt22.Proofs.Tree.Grow

/-!
# Space between tokens

What is made of a script depends on its tokens alone (`Script.agree_of_lays`).  White space and
comments can therefore be put before or after any token of an accepted script
(`Script.program_of_inserted_space`).
-/

namespace Mt22

open Mt22.Tree Mt22.Trivia

namespace Script

/-- The tree of an accepted script looks like one in which every `else` is at the nearest `if`. -/
theorem exists_grown {s : Script} {t : Tree} (h : s.parse = .ok t) :
    ∃ v, Grown .program v t.tokens ∧ Alike t v := by
  have ht := is_of_parse h
  obtain ⟨v, hc, hn, hr, htok⟩ := ht.conforms.exists_nearest
  have hv : Is .program v := ⟨hr.trans ht.rule, hc⟩
  obtain ⟨u, hu, -, halike⟩ := parse_of_lays hv hn (htok ▸ lays_of_parse h)
  obtain rfl : u = t := Except.ok.inj (hu.symm.trans h)
  exact ⟨v, ⟨hv, hn, htok⟩, halike⟩

/-- **Only the tokens matter.**  A script in which the tokens of an accepted one are laid out is
accepted, and the outcomes agree. -/
theorem agree_of_lays {s s' : Script} {t : Tree} (h : s.parse = .ok t)
    (hl : Lays t.tokens s'.source []) : ∃ u, s'.parse = .ok u ∧ u.tokens = t.tokens ∧
      Agree Eq (Program.ofTree u) (Program.ofTree t) := by
  obtain ⟨v, hv, halike⟩ := exists_grown h
  obtain ⟨u, hu, hutok, hualike⟩ := parse_of_lays hv.is hv.nearest (hv.tokens ▸ hl)
  exact ⟨u, hu, hutok.trans hv.tokens,
    (Program.ofTree_alike hualike).trans (Program.ofTree_alike halike).symm⟩

/-- The scripts give the same program, or failures that are reported alike but for their places. -/
def SameOutcome (s s' : Script) : Prop :=
  (∃ p, s.program = .ok p ∧ s'.program = .ok p) ∨
  ∃ e e', s.program = .error e ∧ s'.program = .error e' ∧
    (s.diagnose e).message = (s'.diagnose e').message ∧
    (s.diagnose e).issuer = (s'.diagnose e').issuer ∧
    (s.diagnose e).level = (s'.diagnose e').level

theorem program_of_parse {s : Script} {t : Tree} (h : s.parse = .ok t) : s.program = lower t := by
  rw [program, h]
  rfl

/-- A script in which the tokens of a tree are laid out gives what the tree gives. -/
theorem program_of_grown {s : Script} {t : Tree} {ws : List (List Char)} {p : Program}
    (h : Grown .program t ws) (hl : Lays ws s.source []) (hp : Program.ofTree t = .ok p) :
    s.program = .ok p := by
  obtain ⟨u, hu, -, halike⟩ := parse_of_lays h.is h.nearest (h.tokens ▸ hl)
  rw [program_of_parse hu, lower, (Program.ofTree_alike halike).eq_ok hp]
  rfl

theorem sameOutcome_of_agree {s s' : Script} {t u : Tree} (h : s.parse = .ok t)
    (h' : s'.parse = .ok u) (ha : Agree Eq (Program.ofTree u) (Program.ofTree t)) :
    SameOutcome s s' := by
  rw [SameOutcome, program_of_parse h, program_of_parse h', lower, lower]
  cases hu : Program.ofTree u with
  | ok p =>
    rw [hu] at ha
    cases ht : Program.ofTree t with
    | ok q =>
      rw [ht] at ha
      cases ha with
      | ok hpq => exact .inl ⟨q, rfl, hpq ▸ rfl⟩
    | error f => rw [ht] at ha; cases ha
  | error g =>
    rw [hu] at ha
    cases ht : Program.ofTree t with
    | ok q => rw [ht] at ha; cases ha
    | error f =>
      rw [ht] at ha
      cases ha with
      | error hs =>
        exact .inr ⟨.faulty f, .faulty g, rfl, rfl, hs.message.symm, hs.issuer.symm, hs.level.symm⟩

/-- Blank text between the leaves of an accepted script leaves its tokens laid out, unless it comes
after the trivia at the end. -/
theorem lays_insert {s : Script} {t : Tree} (h : s.parse = .ok t) {xs ys : List Tree}
    {c : Char} {gap : List Char} (hleaves : t.leaves = xs ++ ys) (hgap : Blank (c :: gap))
    (hc : isSpace c = true) (hend : ∀ v, xs.getLast? = some (.trivia v) → textAll ys ≠ []) :
    Lays t.tokens (textAll xs ++ (c :: gap ++ textAll ys)) [] := by
  have ht := is_of_parse h
  have htok : t.tokens = tokensAll xs ++ tokensAll ys := by
    rw [← tokensAll_leaves, hleaves, tokensAll_append]
  have hlex := ht.conforms.lexemes (by rw [ht.rule]; decide)
  have hun := ht.unslashed (by decide)
  obtain ⟨-, hplaced⟩ := placed_of_parse h
  rw [hleaves, placed_append, List.append_nil] at hplaced
  rw [htok] at hlex hun ⊢
  refine lays_append.mpr ⟨c :: gap ++ textAll ys, ?_, ?_⟩
  · refine hplaced.1.lays_onto (fun w hw => hlex w (List.mem_append_left _ hw))
      (List.IsChain.left_of_append hun) (endsToken_of_isSpace hc) ?_
    intro v hv
    have hrun := run_of_skip (hplaced.1.skip_last hv)
    exact after_blank (hrun.blank (hend v hv)) _
  · have hlays := hplaced.2.lays
    rw [List.append_nil] at hlays
    exact lays_congr (after_blank hgap _).symm rfl hlays

/-- **White space and comments do not matter.**  Let white space be put immediately before or after a
token of an accepted script, followed by more white space and complete comments.  The script is still
accepted, with the same tokens, and the outcome is the same. -/
theorem program_of_inserted_space (s s' : Script) (t : Tree) (h : s.parse = .ok t)
    (xs ys : List Tree) (w gap : List Char) (hleaves : t.leaves = xs ++ .token w :: ys)
    (hgap : Blank gap) (hstart : gap.head?.any isSpace = true)
    (hs' : s'.source = textAll xs ++ gap ++ w ++ textAll ys ∨
      s'.source = textAll xs ++ w ++ gap ++ textAll ys) :
    s.source = textAll xs ++ w ++ textAll ys ∧
      (∃ u, s'.parse = .ok u ∧ u.tokens = t.tokens) ∧ SameOutcome s s' := by
  have hsource : s.source = textAll xs ++ w ++ textAll ys := by
    rw [← (placed_of_parse h).1, ← textAll_leaves, hleaves, textAll_append, textAll_cons,
      List.append_assoc]
    rfl
  have hlays : Lays t.tokens s'.source [] := by
    cases gap with
    | nil => cases hstart
    | cons c gap =>
      have hc : isSpace c = true := by simpa using hstart
      rcases hs' with hs' | hs'
      · have hw : w ≠ [] := by
          have ht := is_of_parse h
          refine isLexeme_ne_nil (ht.conforms.lexemes (by rw [ht.rule]; decide) w ?_)
          rw [← tokensAll_leaves, hleaves]
          simp
        have := lays_insert h hleaves hgap hc (by simp [Tree.text, hw])
        rw [hs']
        simpa [Tree.text] using this
      · have hleaves : t.leaves = (xs ++ [.token w]) ++ ys := by simp [hleaves]
        have := lays_insert h hleaves hgap hc (by simp)
        rw [hs']
        simpa [Tree.text] using this
  obtain ⟨u, hu, htok, hagree⟩ := agree_of_lays h hlays
  exact ⟨hsource, ⟨u, hu, htok⟩, sameOutcome_of_agree h hu hagree⟩

/-- Placed leaves without trivia are tokens. -/
theorem eq_map_token_of_placed {xs : List Tree} {rest : List Char} (h : Placed xs rest)
    (hx : xs.all (!·.isTrivia) = true) : xs = (tokensAll xs).map .token := by
  induction xs with
  | nil => rfl
  | cons x xs ih =>
    cases x with
    | token w => exact congrArg (Tree.token w :: ·) (ih h.2.2 hx)
    | trivia v => cases hx
    | node => exact False.elim h

/-- A comment is put after a slash, and one with a quote in it after that. -/
theorem program_of_inserted_space_slash : ∃ t,
    (ofSource "a" "x:auto=1/2;").parse = .ok t ∧
    t.leaves = [['x'], [':'], ['a', 'u', 't', 'o'], ['='], ['1']].map .token ++
      .token ['/'] :: [['2'], [';']].map .token ∧
    Blank " /*/;*/// \"\n".toList ∧
    (∃ u, (ofSource "b" "x:auto=1/ /*/;*/// \"\n2;").parse = .ok u ∧ u.tokens = t.tokens) ∧
    SameOutcome (ofSource "a" "x:auto=1/2;") (ofSource "b" "x:auto=1/ /*/;*/// \"\n2;") := by
  have hread : ((ofSource "a" "x:auto=1/2;").parse.toOption.any fun t =>
      t.leaves.all (!·.isTrivia) && t.tokens = [['x'], [':'], ['a', 'u', 't', 'o'], ['='], ['1'],
        ['/'], ['2'], [';']]) = true := by decide +kernel
  have hblank : Blank " /*/;*/// \"\n".toList :=
    .space rfl (.block (b := ['/', ';']) (by decide)
      (.line (b := [' ', '"']) (by simp [isLineEnd]) rfl .nil))
  cases h : (ofSource "a" "x:auto=1/2;").parse with
  | error e => rw [h] at hread; cases hread
  | ok t =>
    rw [h] at hread
    obtain ⟨hall, htok⟩ := Bool.and_eq_true_iff.mp hread
    have hleaves : t.leaves = [['x'], [':'], ['a', 'u', 't', 'o'], ['='], ['1']].map .token ++
        .token ['/'] :: [['2'], [';']].map .token := by
      rw [eq_map_token_of_placed (placed_of_parse h).2 hall, tokensAll_leaves,
        of_decide_eq_true htok]
      rfl
    obtain ⟨-, hparse, hsame⟩ := program_of_inserted_space _
      (ofSource "b" "x:auto=1/ /*/;*/// \"\n2;") t h _ _ _ _ hleaves hblank rfl (.inr (by decide))
    exact ⟨t, rfl, hleaves, hblank, hparse, hsame⟩

end Script

end Mt22
