import Mt22.Proofs.Tree.FirstToken

/-!
# Reading what is laid out

A text in which the tokens of a conforming tree are laid out should be read to that tree.  Whether
an expression does so depends on what follows it: a chain of operators would go on if another
operator followed.  `Predicts e F` says that the expression reads the trees that fit it, wherever
their tokens are laid out and a head of `F` follows.  It is put together along the expression
(`Predicts.seq`, `Predicts.choice`, `Predicts.star`, …).  Where the next head decides every choice,
or where two rules are told apart by what follows, this can be read off the expression
(`predicts_of_isDecided`).
-/

namespace Mt22

open Mt22.Tree Mt22.Token Mt22.Trivia Mt22.Peg

/-- Read at the start of `s`, the expression gives these trees, up to trivia and offsets, and what is
left is `rest`, up to trivia. -/
def Reads (e : Peg) (ts : List Tree) (s rest : List Char) : Prop :=
  ∀ o, ∃ us o' s', Ends .normal e ⟨o, s⟩ (some (us, ⟨o', s'⟩)) ∧ after s' = after rest ∧
    tokensAll us = tokensAll ts ∧ List.Forall₂ Alike (nodes us) (nodes ts)

/-! ### What may follow -/

/-- The heads that end an expression. -/
def closingHeads : List Head := .finish :: [')', ']', '\x7d', ',', ';'].map .mark

/-- The heads that end an operand: what ends an expression, and the operators. -/
def operandFollow : List Head :=
  closingHeads ++ [':', '=', '!', '<', '>', '&', '|', '+', '-', '*', '/', '%'].map .mark

/-- The heads that can follow a type. -/
def typeFollow : List Head := .finish :: ['=', ';', ',', ')', '('].map .mark

/-- The heads that can follow a statement. -/
def statementFollow : List Head := .finish :: .mark '\x7d' :: .ofElse :: statementHeads

/-- The heads that can follow what a rule has read, when the rule is to be read to its end. -/
def Rule.follow : Rule → List Head
  | identifier => operandFollow ++ ['[', '(', '\x7b'].map .mark
  | kwInteger | kwFloat | kwBoolean | kwString | kwAuto | kwVoid => typeFollow
  | primType | arrayType | varType | funcType => typeFollow
  | kwOut | kwInherit => [.ofWord "out", .name]
  | kwTrue | kwFalse | intLit | floatLit | strLit | boolLit | literal => operandFollow
  | notExpr | negExpr | primary | arrayCell | funcCall | arrayLit => operandFollow
  | dimensions => [.finish, .mark ']']
  | concatOp | relOp | logicOp | addOp | mulOp | notOp | negOp => .finish :: Rule.first expression
  | expression => closingHeads
  | relational => .mark ':' :: closingHeads
  | logical => [':', '=', '!', '<', '>'].map .mark ++ closingHeads
  | additive => [':', '=', '!', '<', '>', '&', '|'].map .mark ++ closingHeads
  | multiplicative => [':', '=', '!', '<', '>', '&', '|', '+', '-'].map .mark ++ closingHeads
  | arguments => .finish :: [')', ']', '\x7d'].map .mark
  | lhs => [.finish, .mark '=']
  | assign => .finish :: [',', ';'].map .mark
  | assignStmt | ifStmt | forStmt | whileStmt | doWhileStmt | breakStmt | continueStmt
  | returnStmt | callStmt | statement | block | varDecl => statementFollow
  | nameList => [.finish, .mark ':']
  | initializers => [.finish, .mark ';']
  | paramDecl => .finish :: [',', ')'].map .mark
  | paramList => [.finish, .mark ')']
  | funcDecl | declaration => [.finish, .name]
  | _ => []

/-! ### Trees to be read -/

/-- The tree is read wherever its tokens are laid out, given what follows. -/
structure Tree.Complete (t : Tree) : Prop where
  conforms : t.Conforms
  reads : ∀ {r : Rule} {s rest : List Char}, t.rule? = some r → Lays t.tokens s rest →
    headOf (after rest) ∈ r.follow → (t.isOpen = true → headOf (after rest) ≠ .ofElse) →
    Reads (.call r) [t] (after s) rest

/-- The tokens of the trees are laid out in `s` up to `rest`, and the trees can be read there. -/
structure Laid (ts : List Tree) (s rest : List Char) : Prop where
  lays : Lays (tokensAll ts) s rest
  closed : openAll ts = true → headOf (after rest) ≠ .ofElse
  stray : NoStray ts
  complete : ∀ t ∈ ts, t.isNode = true → t.Complete

/-- The only token with the head of a keyword is the keyword. -/
theorem eq_of_headOf_word {w v : List Char} (hl : isLexeme w = true) (h : headOf w = .word v) :
    w = v := by
  cases w with
  | nil => cases hl
  | cons c cs =>
    cases hc : isWordStart c with
    | false =>
      rw [headOf, hc] at h
      by_cases hd : c.isDigit = true
      · rw [if_neg (by decide), if_pos hd] at h; cases h
      · rw [if_neg (by decide), if_neg hd] at h; cases h
    | true =>
      have hall := isLexeme_all hl (by simpa using hc)
      have hlead : lead (c :: cs) = c :: cs := by
        have := lead_append hall (stops_nil isWordChar)
        rwa [List.append_nil] at this
      rw [headOf, if_pos hc, hlead] at h
      split at h
      · exact Head.word.inj h
      · cases h

namespace Laid

variable {ts us : List Tree} {s rest : List Char} {e : Peg}

theorem starts (h : Laid ts s rest) (hf : e.Fits ts) (hm : e.isMarked = true)
    (hl : e.isLexical = true) : (ts = [] ∧ e.nullable = true) ∨ ∃ w, Starts ts w ∧ headOf w ∈ e.first := by
  refine hf.first_token hm hl ?_
  intro t ht r hr hmark
  exact (h.complete t ht (isNode_of_rule hr)).conforms.first_token hr hmark

theorem headOf_starts (h : Laid ts s rest) {w : List Char} (hw : Starts ts w) :
    headOf (after s) = headOf w := by
  obtain ⟨ws, htok⟩ := hw.tokens
  exact Lays.headOf_cons hw.lexeme (htok ▸ h.lays)

/-- The head of the text is one of the expression, or nothing is laid out. -/
theorem head (h : Laid ts s rest) (hf : e.Fits ts) (hm : e.isMarked = true)
    (hl : e.isLexical = true) :
    (ts = [] ∧ e.nullable = true ∧ after s = after rest) ∨ headOf (after s) ∈ e.first := by
  rcases h.starts hf hm hl with ⟨rfl, hn⟩ | ⟨w, hw, hh⟩
  · exact .inl ⟨rfl, hn, h.lays⟩
  · exact .inr (h.headOf_starts hw ▸ hh)

/-- What is laid out as two parts, of which the second fits an expression. -/
theorem split (h : Laid (ts ++ us) s rest) (hf : e.Fits us) (hm : e.isMarked = true)
    (hl : e.isLexical = true) : ∃ mid, Laid ts s mid ∧ Laid us mid rest ∧
      headOf (after mid) ∈ e.first ++ if e.nullable then [headOf (after rest)] else [] := by
  have hlays := h.lays
  rw [tokensAll_append] at hlays
  obtain ⟨mid, hts, hus⟩ := lays_append.mp hlays
  have hcompl : ∀ t ∈ us, t.isNode = true → t.Complete :=
    fun t ht => h.complete t (List.mem_append_right _ ht)
  have hfirst : (us = [] ∧ e.nullable = true) ∨ ∃ w, Starts us w ∧ headOf w ∈ e.first :=
    hf.first_token hm hl fun t ht r hr hmark =>
      (hcompl t ht (isNode_of_rule hr)).conforms.first_token hr hmark
  rcases hfirst with ⟨rfl, hn⟩ | ⟨w, hw, hh⟩
  · have hmid : after mid = after rest := hus
    refine ⟨mid, ⟨hts, ?_, h.stray.left, fun t ht => h.complete t (List.mem_append_left _ ht)⟩,
      ⟨hus, (fun ho => by cases ho), h.stray.right, hcompl⟩, ?_⟩
    · rw [hmid]
      have := h.closed
      rwa [List.append_nil] at this
    · simp [hn, hmid]
  · obtain ⟨t, vs, ws, rfl, htok, htriv, helse⟩ := hw.tree
    have hopen : openAll (ts ++ t :: vs) = openAll (t :: vs) := openAll_append (by simp [htriv])
    have hlaid : Laid (t :: vs) mid rest :=
      ⟨hus, fun ho => h.closed (hopen ▸ ho), h.stray.right, hcompl⟩
    have hmid := hlaid.headOf_starts hw
    refine ⟨mid, ⟨hts, ?_, h.stray.left, fun t ht => h.complete t (List.mem_append_left _ ht)⟩, hlaid,
      List.mem_append_left _ (hmid ▸ hh)⟩
    -- an `else` that follows an open tree would be one of the trees
    intro ho heq
    rw [hmid] at heq
    have hword : t = elseToken := by
      rw [helse.resolve_right (absurd heq), eq_of_headOf_word hw.lexeme heq]
      rfl
    subst hword
    rw [h.stray ts vs rfl] at ho
    cases ho

end Laid

/-- The expression reads the trees that fit it, wherever their tokens are laid out with one of the
heads after them. -/
def Predicts (e : Peg) (F : List Head) : Prop :=
  ∀ (ts : List Tree) (s rest : List Char), e.Fits ts → Laid ts s rest → headOf (after rest) ∈ F →
    Reads e ts (after s) rest

/-- The expression `a` matches nowhere where trees are laid out that fit `b`. -/
def Apart (a b : Peg) (F : List Head) : Prop :=
  ∀ (ts : List Tree) (s rest : List Char), b.Fits ts → Laid ts s rest → headOf (after rest) ∈ F →
    Refuses a (after s)

/-! ### Readings put together -/

theorem tokensAll_skip (m : Mode) (c : Cursor) : tokensAll (m.skip c).1 = [] := by
  rw [← tokensAll_solid, Mode.solid_skip]
  rfl

theorem nodes_skip (m : Mode) (c : Cursor) : nodes (m.skip c).1 = [] := by
  rw [← nodes_solid, Mode.solid_skip]
  rfl

namespace Reads

variable {a b : Peg} {ts us : List Tree} {s mid rest : List Char}

theorem text {w : List Char} (h : Lays [w] s rest) : Reads (.text w) [.token w] (after s) rest := by
  intro o
  obtain ⟨s', hs, -, hrest⟩ := h
  refine ⟨[.token w], o + Text.byteSize w, s', ?_, hrest, rfl, .nil⟩
  have h := Ends.text (m := .normal) w ⟨o, after s⟩
  rw [matchText, hs, if_pos (by simp), List.drop_left] at h
  rwa [hs]

theorem seq (ha : Reads a ts (after s) mid) (hb : Reads b us (after mid) rest) :
    Reads (.seq a b) (ts ++ us) (after s) rest := by
  intro o
  obtain ⟨ta, oa, sa, hea, hsa, htoka, hnoda⟩ := ha o
  obtain ⟨tb, ob, sb, heb, hsb, htokb, hnodb⟩ := hb (Mode.normal.skip ⟨oa, sa⟩).2.offset
  refine ⟨ta ++ (Mode.normal.skip ⟨oa, sa⟩).1 ++ tb, ob, sb, hea.seq_some ?_, hsb, ?_, ?_⟩
  · rw [← hsa] at heb
    exact heb
  · simp [htoka, htokb, tokensAll_skip]
  · rw [nodes_append, nodes_append, nodes_append, nodes_skip, List.append_nil]
    exact List.rel_append hnoda hnodb

theorem left (ha : Reads a ts (after s) rest) : Reads (.choice a b) ts (after s) rest := by
  intro o
  obtain ⟨ta, oa, sa, hea, h⟩ := ha o
  exact ⟨ta, oa, sa, hea.choice_left, h⟩

theorem right (ha : Refuses a (after s)) (hb : Reads b ts (after s) rest) :
    Reads (.choice a b) ts (after s) rest := by
  intro o
  obtain ⟨tb, ob, sb, heb, h⟩ := hb o
  exact ⟨tb, ob, sb, (ha o).choice_right heb, h⟩

theorem within (ha : Reads a ts (after s) rest) : Reads (.opt a) ts (after s) rest := by
  intro o
  obtain ⟨ta, oa, sa, hea, h⟩ := ha o
  exact ⟨ta, oa, sa, hea.opt, h⟩

theorem without (ha : Refuses a (after s)) (hs : after s = after rest) :
    Reads (.opt a) [] (after s) rest := by
  intro o
  exact ⟨[], o, after s, (ha o).opt, by rw [after_after, hs], rfl, .nil⟩

/-- Further items are read from where the last one ended, trivia included. -/
def More (a : Peg) (ts : List Tree) (s rest : List Char) : Prop :=
  ∀ s', after s' = after s → ∀ o, ∃ us o' s'', Ends .normal (.more a) ⟨o, s'⟩ (some (us, ⟨o', s''⟩)) ∧
    after s'' = after rest ∧ tokensAll us = tokensAll ts ∧ List.Forall₂ Alike (nodes us) (nodes ts)

theorem More.nil (ha : Refuses a (after s)) (hs : after s = after rest) : More a [] s rest := by
  intro s' hs' o
  refine ⟨[], o, s', .more_nil ?_, hs'.trans hs, rfl, .nil⟩
  show Ends .normal a ⟨_, after s'⟩ none
  rw [hs']
  exact ha _

theorem More.cons (ha : Reads a ts (after s) mid) (hs : More a us mid rest) :
    More a (ts ++ us) s rest := by
  intro s' hs' o
  obtain ⟨ta, oa, sa, hea, hsa, htoka, hnoda⟩ := ha (Mode.normal.skip ⟨o, s'⟩).2.offset
  obtain ⟨tb, ob, sb, heb, hsb, htokb, hnodb⟩ := hs sa hsa oa
  refine ⟨(Mode.normal.skip ⟨o, s'⟩).1 ++ ta ++ tb, ob, sb, .more_cons ?_ heb, hsb, ?_, ?_⟩
  · rw [← hs'] at hea
    exact hea
  · simp [htoka, htokb, tokensAll_skip]
  · rw [nodes_append, nodes_append, nodes_append, nodes_skip, List.nil_append]
    exact List.rel_append hnoda hnodb

theorem star_cons (ha : Reads a ts (after s) mid) (hs : More a us mid rest) :
    Reads (.star a) (ts ++ us) (after s) rest := by
  intro o
  obtain ⟨ta, oa, sa, hea, hsa, htoka, hnoda⟩ := ha o
  obtain ⟨tb, ob, sb, heb, hsb, htokb, hnodb⟩ := hs sa hsa oa
  refine ⟨ta ++ tb, ob, sb, hea.star_cons heb, hsb, by simp [htoka, htokb], ?_⟩
  rw [nodes_append, nodes_append]
  exact List.rel_append hnoda hnodb

theorem star_nil (ha : Refuses a (after s)) (hs : after s = after rest) :
    Reads (.star a) [] (after s) rest := by
  intro o
  exact ⟨[], o, after s, (ha o).star_nil, by rw [after_after, hs], rfl, .nil⟩

/-- A keyword as a whole word. -/
theorem word {w : List Char} (hw : w ∈ reserved) (h : Lays [w] s rest) :
    Reads (.seq (.ahead (.call .keyword)) (.text w)) [.token w] (after s) rest := by
  intro o
  obtain ⟨s', hs, hb, hrest⟩ := h
  have hstop : Stops isWordChar s' := hb (reserved_isWord w hw).2.2
  have hahead : Ends .normal (.ahead (.call .keyword)) ⟨o, after s⟩ (some ([], ⟨o, after s⟩)) := by
    obtain ⟨ts, o', hk, -⟩ := takes_keyword hw hstop o
    rw [← hs] at hk
    exact (Ends.call_some (m := Mode.normal.ahead) (r := .keyword) hk).ahead
  obtain ⟨us, o', s'', hu, hs'', htok, hnod⟩ :=
    text (s := s) ⟨s', hs, hb, hrest⟩ (Mode.normal.skip ⟨o, after s⟩).2.offset
  refine ⟨[] ++ (Mode.normal.skip ⟨o, after s⟩).1 ++ us, o', s'', hahead.seq_some ?_, hs'', ?_, ?_⟩
  · show Ends .normal (.text w) ⟨_, after (after s)⟩ _
    rw [after_after]
    exact hu
  · simp [htok, tokensAll_skip]
  · rw [nodes_append, nodes_append, nodes_skip, List.append_nil]
    exact hnod

end Reads

theorem Peg.Refuses.seq {a b : Peg} {s : List Char} (h : Refuses a s) : Refuses (.seq a b) s :=
  fun o => (h o).seq_none_left

theorem Peg.Refuses.choice {a b : Peg} {s : List Char} (ha : Refuses a s) (hb : Refuses b s) :
    Refuses (.choice a b) s :=
  fun o => (ha o).choice_right (hb o)

theorem Peg.Refuses.call {r : Rule} {s : List Char} (hk : r.kind = .plain) (h : Refuses r.body s) :
    Refuses (.call r) s := by
  intro o
  refine .call_none ?_
  rw [hk]
  exact h o

/-- What follows the first item is refused. -/
theorem Reads.refuses_seq {a b : Peg} {ts : List Tree} {s mid : List Char} (ha : Reads a ts s mid)
    (hb : Refuses b (after mid)) : Refuses (.seq a b) s := by
  intro o
  obtain ⟨ta, oa, sa, hea, hsa, -⟩ := ha o
  refine hea.seq_none_right ?_
  show Ends .normal b ⟨_, after sa⟩ none
  rw [hsa]
  exact hb _

/-! ### Expressions that read what fits them -/

section

variable {a b : Peg} {F : List Head}

theorem predicts_text (w : List Char) : Predicts (.text w) F := by
  intro ts s rest hf hl _
  obtain rfl := Fits.text_iff.mp hf
  exact .text hl.lays

theorem predicts_word {w : List Char} (hw : w ∈ reserved) :
    Predicts (.seq (.ahead (.call .keyword)) (.text w)) F := by
  intro ts s rest hf hl _
  obtain ⟨xs, ys, rfl, hx, hy⟩ := Fits.seq_iff.mp hf
  obtain rfl := Fits.ahead_iff.mp hx
  obtain rfl := Fits.text_iff.mp hy
  exact .word hw hl.lays

theorem predicts_call {r : Rule} (h : ∀ x ∈ F, x ∈ r.follow) : Predicts (.call r) F := by
  intro ts s rest hf hl hh
  obtain ⟨t, rfl, hr⟩ := Fits.call_iff.mp hf
  refine (hl.complete t (List.mem_singleton.mpr rfl) (isNode_of_rule hr)).reads hr ?_ (h _ hh) ?_
  · have := hl.lays
    rwa [tokensAll_cons, tokensAll_nil, List.append_nil] at this
  · exact hl.closed

theorem Predicts.seq (ha : Predicts a (b.first ++ if b.nullable then F else []))
    (hb : Predicts b F) (hm : b.isMarked = true) (hl : b.isLexical = true) :
    Predicts (.seq a b) F := by
  intro ts s rest hf hlaid hh
  obtain ⟨xs, ys, rfl, hx, hy⟩ := Fits.seq_iff.mp hf
  obtain ⟨mid, hlx, hly, hmid⟩ := hlaid.split hy hm hl
  refine .seq (ha _ _ _ hx hlx ?_) (hb _ _ _ hy hly hh)
  rw [List.mem_append] at hmid ⊢
  refine hmid.imp_right ?_
  split
  · intro h
    rwa [List.mem_singleton.mp h]
  · exact id

theorem Predicts.choice (ha : Predicts a F) (hb : Predicts b F) (hab : Apart a b F) :
    Predicts (.choice a b) F := by
  intro ts s rest hf hl hh
  rcases Fits.choice_iff.mp hf with hf | hf
  · exact (ha _ _ _ hf hl hh).left
  · exact .right (hab _ _ _ hf hl hh) (hb _ _ _ hf hl hh)

theorem Predicts.opt (ha : Predicts a F) (hheaded : a.isHeaded = true)
    (hF : ∀ x ∈ F, x ∉ a.first) : Predicts (.opt a) F := by
  intro ts s rest hf hl hh
  rcases Fits.opt_iff.mp hf with rfl | hf
  · have hs : after s = after rest := hl.lays
    exact .without (refuses_of_head hheaded (piece?_after s) (hs ▸ hF _ hh)) hs
  · exact (ha _ _ _ hf hl hh).within

theorem Peg.Fits.star_induction {motive : List Tree → Prop} {ts : List Tree}
    (h : (Peg.star a).Fits ts) (nil : motive [])
    (cons : ∀ {xs ys}, a.Fits xs → (Peg.star a).Fits ys → motive ys → motive (xs ++ ys)) :
    motive ts := by
  generalize he : Peg.star a = e at h
  induction h with
  | nil => exact nil
  | cons hx hy _ ih =>
    obtain rfl := Peg.star.inj he
    exact cons hx hy (ih he)
  | _ => cases he

theorem Predicts.star (ha : Predicts a (a.first ++ F)) (hheaded : a.isHeaded = true)
    (hl : a.isLexical = true) (hF : ∀ x ∈ F, x ∉ a.first) : Predicts (.star a) F := by
  have hm : a.isMarked = true := by
    simp only [isHeaded, Bool.and_eq_true] at hheaded
    exact hheaded.1.1.2
  -- an item is read up to the next one, or up to what follows
  have item : ∀ {xs ys : List Tree} {s rest : List Char}, a.Fits xs → (Peg.star a).Fits ys →
      Laid (xs ++ ys) s rest → headOf (after rest) ∈ F →
      ∃ mid, Reads a xs (after s) mid ∧ Laid ys mid rest := by
    intro xs ys s rest hx hy hlaid hh
    obtain ⟨mid, hlx, hly, hmid⟩ := hlaid.split hy hm hl
    refine ⟨mid, ha _ _ _ hx hlx ?_, hly⟩
    rw [List.mem_append] at hmid ⊢
    refine hmid.imp_right ?_
    intro h
    rwa [List.mem_singleton.mp h]
  have refuses : ∀ {s rest : List Char}, after s = after rest → headOf (after rest) ∈ F →
      Refuses a (after s) := by
    intro s rest hs hh
    exact refuses_of_head hheaded (piece?_after s) (hs ▸ hF _ hh)
  have more : ∀ {ts : List Tree}, (Peg.star a).Fits ts → ∀ (s rest : List Char), Laid ts s rest →
      headOf (after rest) ∈ F → Reads.More a ts s rest := by
    intro ts hf
    refine hf.star_induction (motive := fun ts => ∀ s rest : List Char, Laid ts s rest →
      headOf (after rest) ∈ F → Reads.More a ts s rest) ?_ ?_
    · intro s rest hlaid hh
      exact .nil (refuses hlaid.lays hh) hlaid.lays
    · intro xs ys hx hy ih s rest hlaid hh
      obtain ⟨mid, hread, hly⟩ := item hx hy hlaid hh
      exact .cons hread (ih mid rest hly hh)
  intro ts s rest hf hlaid hh
  cases hf with
  | nil => exact .star_nil (refuses hlaid.lays hh) hlaid.lays
  | cons hx hy =>
    obtain ⟨mid, hread, hly⟩ := item hx hy hlaid hh
    exact .star_cons hread (more hy mid rest hly hh)

/-- Heads tell the expressions apart. -/
theorem apart_of_heads (hheaded : a.isHeaded = true) (hm : b.isMarked = true)
    (hl : b.isLexical = true) (hn : b.nullable = false) (hab : ∀ x ∈ b.first, x ∉ a.first) :
    Apart a b F := by
  intro ts s rest hf hlaid _
  rcases hlaid.head hf hm hl with ⟨-, hnull, -⟩ | hhead
  · rw [hn] at hnull
    cases hnull
  · exact refuses_of_head hheaded (piece?_after s) (hab _ hhead)

theorem Apart.choice {c : Peg} (hb : Apart a b F) (hc : Apart a c F) : Apart a (.choice b c) F := by
  intro ts s rest hf hl hh
  rcases Fits.choice_iff.mp hf with hf | hf
  · exact hb _ _ _ hf hl hh
  · exact hc _ _ _ hf hl hh

end

/-! ### Expressions that the next tokens decide -/

/-- Pairs of rules that start with the same head.  The first does not read what the second should:
a number has no point in it, or the token after a name tells. -/
def Rule.toldApart (r r' : Rule) : Bool :=
  (r, r') ∈ [(floatLit, intLit), (arrayCell, funcCall), (arrayCell, identifier),
    (funcCall, identifier), (callStmt, assignStmt), (varDecl, statement), (funcDecl, varDecl)]

namespace Peg

/-- No head of the one is a head of the other. -/
def disjoint (F G : List Head) : Bool := F.all fun x => !G.contains x

theorem not_mem_of_disjoint {F G : List Head} (h : disjoint F G = true) : ∀ x ∈ F, x ∉ G := by
  intro x hx hg
  have := List.all_eq_true.mp h x hx
  simp [hg] at this

/-- Heads tell the second expression from the first. -/
def parted (a b : Peg) : Bool :=
  a.isHeaded && b.isMarked && b.isLexical && !b.nullable && disjoint b.first a.first

theorem apart_of_parted {a b : Peg} {F : List Head} (h : parted a b = true) : Apart a b F := by
  simp only [parted, Bool.and_eq_true, Bool.not_eq_true'] at h
  obtain ⟨⟨⟨⟨ha, hm⟩, hl⟩, hn⟩, hd⟩ := h
  exact apart_of_heads ha hm hl hn (not_mem_of_disjoint hd)

/-- The calls of two rules that are told apart. -/
def told : Peg → Peg → Bool
  | call r, call r' => r.toldApart r'
  | _, _ => false

/-- Every alternative of the second expression is told from the first. -/
def isApart (a : Peg) : Peg → Bool
  | choice b c => isApart a b && isApart a c
  | b => parted a b || told a b

/-- With one of the heads after the expression, every choice in it is decided by the next tokens. -/
def isDecided : Peg → List Head → Bool
  | text _, _ => true
  | call r, F => F.all (r.follow.contains ·)
  | seq a b, F =>
    match (seq a b).word? with
    | some w => reserved.contains w
    | none => b.isMarked && b.isLexical && a.isDecided (b.first ++ if b.nullable then F else []) &&
        b.isDecided F
  | choice a b, F => a.isApart b && a.isDecided F && b.isDecided F
  | opt a, F => a.isHeaded && disjoint F a.first && a.isDecided F
  | star a, F => a.isHeaded && a.isLexical && disjoint F a.first && a.isDecided (a.first ++ F)
  | _, _ => false

theorem mem_follow_of_isDecided {r : Rule} {F : List Head} (h : (call r).isDecided F = true) :
    ∀ x ∈ F, x ∈ r.follow := by
  intro x hx
  simpa using List.all_eq_true.mp h x hx

section

variable (hrules : ∀ {r r' : Rule}, r.toldApart r' = true → Apart (.call r) (.call r') r.follow)
include hrules

theorem apart_of_isApart {a b : Peg} {F : List Head} (h : a.isApart b = true)
    (ha : a.isDecided F = true) : Apart a b F := by
  have single : ∀ {b : Peg}, (parted a b || told a b) = true → Apart a b F := by
    intro b h
    rcases Bool.or_eq_true_iff.mp h with h | h
    · exact apart_of_parted h
    · cases a with
      | call r =>
        cases b with
        | call r' =>
          intro ts s rest hf hl hh
          exact hrules h ts s rest hf hl (mem_follow_of_isDecided ha _ hh)
        | _ => cases h
      | _ => cases h
  induction b with
  | choice b c ihb ihc =>
    obtain ⟨hb, hc⟩ := Bool.and_eq_true_iff.mp h
    exact (ihb hb).choice (ihc hc)
  | _ => exact single h

/-- **Where the next tokens decide every choice, what is laid out is read.** -/
theorem predicts_of_isDecided {e : Peg} {F : List Head} (h : e.isDecided F = true) :
    Predicts e F := by
  induction e generalizing F with
  | text w => exact predicts_text w
  | call r => exact predicts_call (mem_follow_of_isDecided h)
  | seq a b iha ihb =>
    cases hw : (seq a b).word? with
    | some w =>
      obtain ⟨rfl, rfl⟩ := seq.inj (eq_word_of_word? hw)
      exact predicts_word (by simpa [isDecided, hw] using h)
    | none =>
      simp only [isDecided, hw, Bool.and_eq_true] at h
      obtain ⟨⟨⟨hm, hl⟩, ha⟩, hb⟩ := h
      exact (iha ha).seq (ihb hb) hm hl
  | choice a b iha ihb =>
    simp only [isDecided, Bool.and_eq_true] at h
    exact (iha h.1.2).choice (ihb h.2) (apart_of_isApart hrules h.1.1 h.1.2)
  | opt a ih =>
    simp only [isDecided, Bool.and_eq_true] at h
    exact (ih h.2).opt h.1.1 (not_mem_of_disjoint h.1.2)
  | star a ih =>
    simp only [isDecided, Bool.and_eq_true] at h
    exact (ih h.2).star h.1.1.1 h.1.1.2 (not_mem_of_disjoint h.1.2)
  | one | start | finish | more | ahead | absent => cases h

end

end Peg

end Mt22
