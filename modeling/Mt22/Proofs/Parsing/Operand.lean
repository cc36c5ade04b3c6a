import Mt22.Proofs.Parsing.Spell
import Mt22.Proofs.Tree.Grow

/-!
# Operands on their own

An operand can be read on its own (`Rule.Accepts`).  It starts and ends with a token, and not with
trivia, so that its tokens stay what they are where another text follows (`Rule.Accepts.lays_onto`).

There is no statement in an expression, and so no `else` that could be at the wrong `if`
(`Tree.Is.nearest`).
-/

namespace Mt22

open Mt22.Tree Mt22.Token Mt22.Trivia Mt22.Peg

/-! ### Rules without statements -/

/-- The rules that an expression is made of. -/
def Rule.isOfExpression (r : Rule) : Bool :=
  r ∈ [.expression, .relational, .logical, .additive, .multiplicative, .notExpr, .negExpr, .primary,
    .concatOp, .relOp, .logicOp, .addOp, .mulOp, .notOp, .negOp, .literal, .floatLit, .intLit, .strLit,
    .strBody, .boolLit, .kwTrue, .kwFalse, .identifier, .arguments, .arrayCell, .funcCall, .arrayLit]

/-- The rules that an expression calls, lookahead apart. -/
def Peg.calls : Peg → List Rule
  | call r => [r]
  | seq a b | choice a b => a.calls ++ b.calls
  | opt a | star a | more a => a.calls
  | _ => []

theorem Peg.Fits.mem_calls {e : Peg} {ts : List Tree} (h : e.Fits ts) :
    ∀ t ∈ ts, ∀ r, t.rule? = some r → r ∈ e.calls := by
  induction h with
  | text | start | finish | without | nil | ahead => simp [rule?]
  | @call r t hr =>
    intro u hu r' hr'
    obtain rfl := List.mem_singleton.mp hu
    exact List.mem_singleton.mpr (Option.some.inj (hr'.symm.trans hr))
  | seq _ _ iha ihb =>
    intro t ht r hr
    rcases List.mem_append.mp ht with ht | ht
    · exact List.mem_append_left _ (iha t ht r hr)
    · exact List.mem_append_right _ (ihb t ht r hr)
  | left _ ih => exact fun t ht r hr => List.mem_append_left _ (ih t ht r hr)
  | right _ ih => exact fun t ht r hr => List.mem_append_right _ (ih t ht r hr)
  | within _ ih => exact ih
  | cons _ _ iha ihb =>
    intro t ht r hr
    rcases List.mem_append.mp ht with ht | ht
    · exact iha t ht r hr
    · exact ihb t ht r hr
  | more _ ih => exact ih

theorem Rule.isOfExpression_body {r : Rule} (hr : r.isOfExpression = true)
    (hk : r.kind = .plain ∨ r.kind = .compound) :
    r ≠ .ifStmt ∧ ∀ r' ∈ r.body.calls, r'.isOfExpression = true := by
  have hall : ∀ r ∈ Rule.all, r.isOfExpression = true → r.kind = .plain ∨ r.kind = .compound →
      r ≠ .ifStmt ∧ ∀ r' ∈ r.body.calls, r'.isOfExpression = true := by
    decide
  exact hall r r.mem_all hr hk

/-- In an expression every `else` is at the nearest `if`, since there is none. -/
theorem Tree.Is.nearest {r : Rule} {t : Tree} (h : Is r t) (hr : r.isOfExpression = true) :
    t.Nearest := by
  obtain ⟨hrule, hc⟩ := h
  induction hc generalizing r with
  | token => exact nearest_token ..
  | @node r' a b ps kind tight fits parts ih =>
    obtain rfl := Option.some.inj hrule
    obtain ⟨hif, hcalls⟩ := Rule.isOfExpression_body hr kind
    refine .node (noStray_of_hasElse (fits.hasElse_eq_false (Rule.isElseless_body kind hif))) ?_
    intro t ht hn
    cases t with
    | token | trivia => cases hn
    | node s i j qs =>
      have hmem : Tree.node s i j qs ∈ solid ps := List.mem_filter.mpr ⟨ht, rfl⟩
      exact ih _ ht hn (hcalls s (fits.mem_calls _ hmem s rfl)) rfl

/-! ### No trivia at the ends -/

/-- The rules whose texts start and end with a token. -/
def Rule.isSolid (r : Rule) : Bool :=
  r ∈ [.primary, .literal, .floatLit, .intLit, .strLit, .boolLit, .kwTrue, .kwFalse, .identifier,
    .arrayCell, .funcCall, .arrayLit]

namespace Peg

/-- What is read starts with a token. -/
def startsSolid : Peg → Bool
  | text _ => true
  | call r => r.isSolid
  | seq a b => (seq a b).word?.isSome || a.startsSolid
  | choice a b => a.startsSolid && b.startsSolid
  | _ => false

/-- What is read ends with a token. -/
def endsSolid : Peg → Bool
  | text _ => true
  | call r => r.isSolid
  | seq _ b => b.endsSolid
  | choice a b => a.endsSolid && b.endsSolid
  | _ => false

end Peg

theorem Rule.isSolid_body {r : Rule} (hr : r.isSolid = true) (hk : r.kind = .plain) :
    r.body.startsSolid = true ∧ r.body.endsSolid = true := by
  have hall : ∀ r ∈ Rule.all, r.isSolid = true → r.kind = .plain →
      r.body.startsSolid = true ∧ r.body.endsSolid = true := by
    decide
  exact hall r r.mem_all hr hk

theorem Rule.isSolid_call {r : Rule} (hr : r.isSolid = true) : (Peg.call r).isSyntax = true ∧
    (Peg.call r).isMarked = true ∧ r.isOfExpression = true ∧ .mark '/' ∉ r.first := by
  have hall : ∀ r ∈ Rule.all, r.isSolid = true → (Peg.call r).isSyntax = true ∧
      (Peg.call r).isMarked = true ∧ r.isOfExpression = true ∧ .mark '/' ∉ r.first := by
    decide
  exact hall r r.mem_all hr

/-- No trivia stands where a keyword is ahead. -/
theorem Peg.piece?_of_ahead {m : Mode} {c c' : Cursor} {ts : List Tree}
    (h : Matches m (ahead (call .keyword)) c ts c') : piece? c.rest = none := by
  have hmem := lead_of_ahead h
  obtain ⟨hne, -, hstart⟩ := reserved_isWord _ hmem
  cases hrest : c.rest with
  | nil => rfl
  | cons d s =>
    rw [hrest, lead] at hne hstart
    by_cases hd : isWordChar d = true
    · rw [List.takeWhile_cons_of_pos hd] at hstart
      have hd' : isWordStart d = true := by simpa using hstart
      refine piece?_cons_eq_none ?_ ?_ s
      · cases hs : isSpace d with
        | false => rfl
        | true => rw [not_isWordChar_of_isSpace hs] at hd; cases hd
      · rintro rfl
        cases hd
    · rw [List.takeWhile_cons_of_neg hd] at hne
      exact absurd rfl hne

namespace Tree

/-- The first of the trees is a token. -/
def StartsSolid (ts : List Tree) : Prop := ∃ w us, ts = .token w :: us

/-- The last of the trees is a token. -/
def EndsSolid (ts : List Tree) : Prop := ∃ w us, ts = us ++ [.token w]

theorem StartsSolid.append {ts : List Tree} (h : StartsSolid ts) (us : List Tree) :
    StartsSolid (ts ++ us) := by
  obtain ⟨w, vs, rfl⟩ := h
  exact ⟨w, vs ++ us, rfl⟩

theorem EndsSolid.append (us : List Tree) {ts : List Tree} (h : EndsSolid ts) :
    EndsSolid (us ++ ts) := by
  obtain ⟨w, vs, rfl⟩ := h
  exact ⟨w, us ++ vs, (List.append_assoc ..).symm⟩

theorem solid_token (w : List Char) : StartsSolid [.token w] ∧ EndsSolid [.token w] :=
  ⟨⟨w, [], rfl⟩, ⟨w, [], rfl⟩⟩

end Tree

/-- **Where the grammar says so, the leaves of what was read start or end with a token.** -/
theorem Peg.solid_of_matches {m : Mode} {e : Peg} {c c' : Cursor} {ts : List Tree}
    (h : Matches m e c ts c') (hnormal : m = .normal) (he : e.isSyntax = true) :
    (e.startsSolid = true → StartsSolid (leavesAll ts)) ∧
      (e.endsSolid = true → EndsSolid (leavesAll ts)) := by
  induction h with
  | @text _ s => exact ⟨fun _ => (solid_token s).1, fun _ => (solid_token s).2⟩
  | @call m r c c' parts _ ih =>
    subst hnormal
    simp only [isSyntax, Bool.or_eq_true, decide_eq_true_eq] at he
    rcases he with (hk | hk) | ht
    · rw [leavesAll_leave_node hk]
      have hih := ih (by rw [hk]; rfl) (Rule.isSyntax_body r (.inl hk))
      exact ⟨fun hr => hih.1 (Rule.isSolid_body hr hk).1, fun hr => hih.2 (Rule.isSolid_body hr hk).2⟩
    · obtain rfl := Rule.eq_strLit_of_compound hk
      exact ⟨fun _ => (solid_token (textAll parts)).1, fun _ => (solid_token (textAll parts)).2⟩
    · rw [leavesAll_leave_token ht]
      exact ⟨fun _ => (solid_token (textAll parts)).1, fun _ => (solid_token (textAll parts)).2⟩
  | @seq m a b c ca c' ta tb ha hb iha ihb =>
    subst hnormal
    obtain ⟨hea, heb⟩ := Bool.and_eq_true_iff.mp he
    rw [leavesAll_append]
    refine ⟨fun hs => ?_, fun hs => .append _ ((ihb rfl heb).2 hs)⟩
    cases hw : (seq a b).word? with
    | none =>
      have hs : a.startsSolid = true := by simpa [startsSolid, hw] using hs
      rw [leavesAll_append, List.append_assoc]
      exact ((iha rfl hea).1 hs).append _
    | some w =>
      -- the keyword that is ahead is what the text starts with
      obtain ⟨rfl, rfl⟩ := seq.inj (eq_word_of_word? hw)
      obtain ⟨rfl, rfl, rfl, -⟩ := matches_word ha hb
      have hgap : (Mode.normal.skip ca).1 = [] := by
        simp [Mode.skip, Mode.normal, skip_of_piece?_none (piece?_of_ahead ha)]
      rw [hgap]
      exact (solid_token w).1
  | left _ ih =>
    have hih := ih hnormal (Bool.and_eq_true_iff.mp he).1
    exact ⟨fun hs => hih.1 (Bool.and_eq_true_iff.mp hs).1,
      fun hs => hih.2 (Bool.and_eq_true_iff.mp hs).1⟩
  | right _ _ ih =>
    have hih := ih hnormal (Bool.and_eq_true_iff.mp he).2
    exact ⟨fun hs => hih.1 (Bool.and_eq_true_iff.mp hs).2,
      fun hs => hih.2 (Bool.and_eq_true_iff.mp hs).2⟩
  | _ => exact ⟨fun hs => absurd hs Bool.false_ne_true, fun hs => absurd hs Bool.false_ne_true⟩

/-! ### Accepted texts -/

/-- The rule reads the whole text, on its own, and leaves the tree. -/
structure Rule.Accepts (r : Rule) (s : List Char) (t : Tree) : Prop where
  read : r.read s = .ok [t]
  text : t.text = s

namespace Rule.Accepts

variable {r : Rule} {s : List Char} {t : Tree}

theorem reads (h : r.Accepts s t) :
    ∃ o, Matches .normal (.call r) (.ofText s) [t] ⟨o, []⟩ := by
  obtain ⟨⟨o, rest⟩, hreads⟩ := Rule.read_eq_ok_iff.mp h.read
  have htext := hreads.textAll_rest
  rw [textAll_cons, textAll_nil, List.append_nil, h.text] at htext
  obtain rfl : rest = [] := List.append_right_eq_self.mp htext
  exact ⟨o, hreads⟩

/-- An accepted text starts and ends with a token. -/
theorem solid_ends (h : r.Accepts s t) (hr : r.isSolid = true) :
    StartsSolid t.leaves ∧ EndsSolid t.leaves := by
  obtain ⟨o, hreads⟩ := h.reads
  have hsolid := solid_of_matches hreads rfl (Rule.isSolid_call hr).1
  rw [leavesAll, leavesAll, List.append_nil] at hsolid
  exact ⟨hsolid.1 hr, hsolid.2 hr⟩

theorem is (h : r.Accepts s t) (hr : r.isSolid = true) : Is r t := by
  obtain ⟨o, hreads⟩ := h.reads
  obtain ⟨hf, hc, -⟩ := fits_of_matches hreads rfl (Rule.isSolid_call hr).1
  obtain ⟨u, hu, hrule⟩ := Fits.call_iff.mp hf
  have hmem : u ∈ [t] := (List.mem_filter.mp (show u ∈ solid [t] by rw [hu]; simp)).1
  obtain rfl := List.mem_singleton.mp hmem
  exact ⟨hrule, hc u hmem (isNode_of_rule hrule)⟩

theorem grown (h : r.Accepts s t) (hr : r.isSolid = true) : Grown r t t.tokens :=
  ⟨h.is hr, (h.is hr).nearest (Rule.isSolid_call hr).2.2.1, rfl⟩

theorem lexemes (h : r.Accepts s t) (hr : r.isSolid = true) : ∀ w ∈ t.tokens, isLexeme w = true := by
  refine (h.is hr).conforms.lexemes ?_
  rw [(h.is hr).rule]
  rintro heq
  obtain rfl := Option.some.inj heq
  cases hr

/-- No trivia stands before an accepted text. -/
theorem piece?_eq_none (h : r.Accepts s t) (hr : r.isSolid = true) : piece? s = none := by
  obtain ⟨-, hmark, -, hslash⟩ := Rule.isSolid_call hr
  obtain ⟨w, ls, hls⟩ := (h.solid_ends hr).1
  have htok : t.tokens = w :: tokensAll ls := by rw [← tokensAll_leaves, hls]; rfl
  have htext : s = w ++ textAll ls := by rw [← h.text, ← textAll_leaves, hls]; rfl
  obtain ⟨v, hv, hhead⟩ := (h.is hr).conforms.first_token (h.is hr).rule hmark
  obtain ⟨vs, hvs⟩ := hv.tokens
  rw [tokensAll_cons, tokensAll_nil, List.append_nil, htok] at hvs
  obtain rfl := (List.cons.inj hvs).1
  have hlex := hv.lexeme
  rw [htext]
  cases w with
  | nil => cases hlex
  | cons c cs =>
    simp only [isLexeme, Bool.and_eq_true, Bool.not_eq_true'] at hlex
    refine piece?_cons_eq_none hlex.1.1 ?_ _
    rintro rfl
    rw [headOf_mark rfl rfl] at hhead
    exact hslash hhead

/-- The leaves of an accepted text are placed in it. -/
theorem placed (h : r.Accepts s t) (hr : r.isSolid = true) : Placed t.leaves [] := by
  obtain ⟨hgrammar, hmark, -⟩ := Rule.isSolid_call hr
  obtain ⟨o, hreads⟩ := h.reads
  have hplaced := placed_of_matches hreads rfl hgrammar hmark (.inl (h.piece?_eq_none hr))
  rwa [leavesAll, leavesAll, List.append_nil] at hplaced

/-- **An accepted text keeps its tokens before another text**, if that starts with white space or a
mark. -/
theorem lays_onto (h : r.Accepts s t) (hr : r.isSolid = true) {c : Char} (hc : endsToken c = true)
    (z : List Char) : Lays t.tokens (s ++ c :: z) (c :: z) := by
  obtain ⟨w, ls, hls⟩ := (h.solid_ends hr).2
  have hne : r ≠ .strBody := by
    rintro rfl
    cases hr
  have hlays := (h.placed hr).lays_onto (z := z) (by rw [tokensAll_leaves]; exact h.lexemes hr)
    (by rw [tokensAll_leaves]; exact (h.is hr).unslashed hne) hc ?_
  · rwa [tokensAll_leaves, textAll_leaves, h.text] at hlays
  · intro v hv
    rw [hls, List.getLast?_concat] at hv
    cases hv

/-! ### Parentheses -/

/-- What stands between the first and the last token of an accepted text. -/
theorem exists_inner (h : r.Accepts s t) (hr : r.isSolid = true) {v w : List Char}
    {ws : List (List Char)} (htok : t.tokens = v :: (ws ++ [w])) :
    ∃ ls, t.leaves = .token v :: (ls ++ [.token w]) ∧ tokensAll ls = ws := by
  obtain ⟨⟨v', us, hus⟩, ⟨w', vs, hvs⟩⟩ := h.solid_ends hr
  rw [← tokensAll_leaves, hus, tokensAll_cons, tokens_token, List.singleton_append] at htok
  obtain ⟨hv, hrest⟩ := List.cons.inj htok
  rw [hus] at hvs
  cases vs with
  | nil =>
    obtain rfl : us = [] := (List.cons.inj hvs).2
    simp at hrest
  | cons x vs =>
    have hus' : us = vs ++ [.token w'] := (List.cons.inj hvs).2
    rw [hus', tokensAll_append, tokensAll_cons, tokens_token, tokensAll_nil, List.append_nil] at hrest
    obtain ⟨hrest, hw⟩ := List.append_inj' hrest rfl
    rw [(List.cons.inj hw).1] at hus'
    exact ⟨vs, by rw [hus, hus', hv], hrest⟩

/-- An operand that starts with a parenthesis is an expression in parentheses. -/
theorem parenthesis_shape (h : Rule.primary.Accepts s t) (hs : s.head? = some '(') :
    ∃ u, solid t.parts = [.token "(".toList, u, .token ")".toList] ∧ Is .expression u := by
  obtain ⟨hf, hc⟩ := (h.is rfl).fits (by decide)
  have hmem : ∀ u ∈ solid t.parts, u.isNode = true → u.Conforms :=
    fun u hu => hc u (List.mem_filter.mp hu).1
  -- the other alternatives have another first token
  have hother : ∀ r : Rule, (Peg.call r).isMarked = true ∧ .mark '(' ∉ r.first →
      ¬ (Peg.call r).Fits (solid t.parts) := by
    intro r hr hfits
    obtain ⟨u, hu, hrule⟩ := Fits.call_iff.mp hfits
    have hconf := hmem u (by simp [hu]) (isNode_of_rule hrule)
    obtain ⟨w, hw, hhead⟩ := hconf.first_token hrule hr.1
    obtain ⟨ws, htok⟩ := hw.tokens
    rw [← hu, ← (h.is rfl).tokens_eq rfl] at htok
    obtain ⟨v, ls, hls⟩ := (h.solid_ends rfl).1
    rw [← tokensAll_leaves, hls, tokensAll_cons, tokens_token, List.singleton_append] at htok
    obtain rfl := (List.cons.inj htok).1
    rw [← h.text, ← textAll_leaves, hls, textAll_cons, Tree.text] at hs
    have hlex := hw.lexeme
    cases v with
    | nil => cases hlex
    | cons c cs =>
      obtain rfl : c = '(' := by simpa using hs
      rw [headOf_mark rfl rfl] at hhead
      exact hr.2 hhead
  rcases Fits.choice_iff.mp hf with hf | hf
  · exact absurd hf (hother _ (by decide))
  rcases Fits.choice_iff.mp hf with hf | hf
  · exact absurd hf (hother _ (by decide))
  rcases Fits.choice_iff.mp hf with hf | hf
  · exact absurd hf (hother _ (by decide))
  rcases Fits.choice_iff.mp hf with hf | hf
  · exact absurd hf (hother _ (by decide))
  rcases Fits.choice_iff.mp hf with hf | hf
  · obtain ⟨xs, ys, hs, hx, hy⟩ := Fits.seq_iff.mp hf
    obtain ⟨zs, ws, rfl, hz, hw⟩ := Fits.seq_iff.mp hy
    obtain rfl := Fits.text_iff.mp hx
    obtain rfl := Fits.text_iff.mp hw
    obtain ⟨u, rfl, hu⟩ := Fits.call_iff.mp hz
    exact ⟨u, hs, hu, hmem u (by simp [hs]) (isNode_of_rule hu)⟩
  · exact absurd hf (hother _ (by decide))

/-- **What stands in parentheses is an expression**, the tokens of which are laid out before another
text as well. -/
theorem parenthesized {inside : List Char} (h : Rule.primary.Accepts ('(' :: (inside ++ [')'])) t)
    {c : Char} (hc : endsToken c = true) (z : List Char) :
    ∃ u, t.children = [u] ∧ Is .expression u ∧ Lays u.tokens (inside ++ c :: z) (c :: z) := by
  obtain ⟨u, hparts, hu⟩ := h.parenthesis_shape rfl
  have hchildren : t.children = [u] := by
    rw [children, ← nodes_solid, hparts, nodes_cons_token, nodes_cons_of_rule hu.rule]
    rfl
  have htok : t.tokens = "(".toList :: (u.tokens ++ [")".toList]) := by
    rw [(h.is rfl).tokens_eq rfl, hparts]
    simp
  obtain ⟨ls, hls, hlstok⟩ := h.exists_inner rfl htok
  have hinside : textAll ls = inside := by
    have htext := h.text
    rw [← textAll_leaves, hls, textAll_cons, textAll_append, textAll_cons, textAll_nil] at htext
    have htext : '(' :: (textAll ls ++ [')']) = '(' :: (inside ++ [')']) := htext
    exact List.append_cancel_right (List.cons.inj htext).2
  have hplaced := h.placed rfl
  rw [hls] at hplaced
  have hplaced : Placed ls [')'] := (placed_append.mp hplaced.2.2).1
  refine ⟨u, hchildren, hu, ?_⟩
  have hlays := hplaced.lays_onto (z := z)
    (by rw [hlstok]; exact hu.conforms.lexemes (by rw [hu.rule]; decide))
    (by rw [hlstok]; exact hu.unslashed (by decide)) hc ?_
  · rwa [hlstok, hinside] at hlays
  · -- the trivia at the end is complete, since the parenthesis is no part of it
    intro v hv
    have hrun := run_of_skip (hplaced.skip_last hv)
    exact after_blank (hrun.blank (List.cons_ne_nil _ _)) _

end Rule.Accepts

end Mt22
