import Mt22.Proofs.Tree.Attach

/-!
# The grammar as an ordinary one

Read as an ordinary context-free grammar, an expression derives sequences of tokens: any alternative
of a choice may be taken, an item may be repeated any number of times, and lookahead derives nothing.
The terminals are the marks and the keywords, which stand for themselves, and the tokens of a class:
names, integers, floats and string literals.

A sequence of tokens is derived from a rule exactly if it is the tokens of a conforming tree
(`derives_of_conforms`, `Peg.Derives.exists_tree`).
-/

namespace Mt22

open Mt22.Tree Mt22.Token

/-- The sequences of tokens that an expression derives. -/
inductive Peg.Derives : Peg → List (List Char) → Prop
  /-- A keyword or a mark. -/
  | text (w : List Char) : Derives (.text w) [w]
  /-- A name, an integer or a float. -/
  | token {r : Rule} {w : List Char} (hr : r ≠ .strBody) (h : r.Allows w) : Derives (.call r) [w]
  /-- A string literal, which is one token with its quotes. -/
  | string {b : List Char} (h : isStringBody b = true) :
      Derives (.call .strLit) ['"' :: (b ++ ['"'])]
  | rule {r : Rule} {ws : List (List Char)} (hk : r.kind = .plain) (h : Derives r.body ws) :
      Derives (.call r) ws
  | seq {a b : Peg} {vs ws : List (List Char)} (ha : Derives a vs) (hb : Derives b ws) :
      Derives (.seq a b) (vs ++ ws)
  | left {a b : Peg} {ws : List (List Char)} (h : Derives a ws) : Derives (.choice a b) ws
  | right {a b : Peg} {ws : List (List Char)} (h : Derives b ws) : Derives (.choice a b) ws
  | without {a : Peg} : Derives (.opt a) []
  | within {a : Peg} {ws : List (List Char)} (h : Derives a ws) : Derives (.opt a) ws
  | nil {a : Peg} : Derives (.star a) []
  | cons {a : Peg} {vs ws : List (List Char)} (ha : Derives a vs) (hs : Derives (.star a) ws) :
      Derives (.star a) (vs ++ ws)
  /-- Lookahead reads nothing. -/
  | ahead {a : Peg} : Derives (.ahead a) []
  /-- The start of the text is no token. -/
  | start : Derives .start []
  /-- The end of the text is no token. -/
  | finish : Derives .finish []

/-- What fits an expression has tokens that are derived from it. -/
theorem Peg.Fits.derives {e : Peg} {ts : List Tree} (h : e.Fits ts) (he : e.isLexical = true)
    (hc : ∀ t ∈ ts, ∀ r, t.rule? = some r → r ≠ .strBody → (Peg.call r).Derives t.tokens) :
    e.Derives (tokensAll ts) := by
  induction h with
  | text s => exact .text s
  | start => exact .start
  | finish => exact .finish
  | @call r t hr =>
    rw [tokensAll_cons, tokensAll_nil, List.append_nil]
    exact hc t (List.mem_singleton.mpr rfl) r hr (of_decide_eq_true he)
  | seq _ _ iha ihb =>
    obtain ⟨ha, hb⟩ := Bool.and_eq_true_iff.mp he
    rw [tokensAll_append]
    exact .seq (iha ha fun t ht => hc t (List.mem_append_left _ ht))
      (ihb hb fun t ht => hc t (List.mem_append_right _ ht))
  | left _ ih => exact .left (ih (Bool.and_eq_true_iff.mp he).1 hc)
  | right _ ih => exact .right (ih (Bool.and_eq_true_iff.mp he).2 hc)
  | without => exact .without
  | within _ ih => exact .within (ih he hc)
  | nil => exact .nil
  | cons _ _ iha ihb =>
    rw [tokensAll_append]
    exact .cons (iha he fun t ht => hc t (List.mem_append_left _ ht))
      (ihb he fun t ht => hc t (List.mem_append_right _ ht))
  | more => cases he
  | ahead => exact .ahead

/-- **The tokens of a conforming tree are derived from its rule.** -/
theorem derives_of_conforms {t : Tree} (h : t.Conforms) {r : Rule} (hr : t.rule? = some r)
    (hb : r ≠ .strBody) : (Peg.call r).Derives t.tokens := by
  induction h generalizing r with
  | @token r i j w hw =>
    obtain rfl := Option.some.inj hr
    have hne : r ≠ .strLit := by
      rintro rfl
      exact hw
    rw [tokens_node hne]
    exact .token hb hw
  | @node r i j ps kind tight fits parts ih =>
    obtain rfl := Option.some.inj hr
    rcases kind with hk | hk
    · rw [tokens_node (Rule.ne_strLit_of_plain hk), ← tokensAll_solid]
      refine .rule hk (fits.derives (Rule.isLexical_body r hk) ?_)
      intro t ht r' hr'
      exact ih t (List.mem_filter.mp ht).1 (isNode_of_rule hr') hr'
    · obtain rfl := Rule.eq_strLit_of_compound hk
      obtain ⟨b, hb, htok, htext⟩ := (Is.of_conforms (.node (.inr hk) tight fits parts)).strLit_tokens
      rw [htok, htext]
      exact .string hb

/-- Trees for a derivation: they fit the expression, conform, and have the tokens. -/
theorem Peg.Derives.exists_trees {e : Peg} {ws : List (List Char)} (h : e.Derives ws) :
    ∃ ts, e.Fits ts ∧ solid ts = ts ∧ tokensAll ts = ws ∧ ∀ t ∈ ts, t.isNode = true → t.Conforms := by
  induction h with
  | text w => exact ⟨[.token w], .text w, rfl, rfl, by simp [isNode]⟩
  | @token r w hr hw =>
    have hne : r ≠ .strLit := by
      rintro rfl
      exact hw
    refine ⟨[.node r 0 0 [.token w]], .call rfl, rfl, by simp [tokens_node hne], ?_⟩
    intro t ht _
    obtain rfl := List.mem_singleton.mp ht
    exact .token hw
  | @string b hb =>
    refine ⟨[.node .strLit 0 0 [.token ['"'], .node .strBody 0 0 [.token b], .token ['"']]], .call rfl,
      rfl, by simp [tokens_strLit, Tree.text], ?_⟩
    intro t ht _
    obtain rfl := List.mem_singleton.mp ht
    refine .node (.inr rfl) (fun _ => rfl) ?_ ?_
    · exact .item (.text _) (.item (.call rfl) (.text _))
    · intro u hu hn
      simp only [List.mem_cons, List.not_mem_nil, or_false] at hu
      rcases hu with rfl | rfl | rfl
      · cases hn
      · exact .token hb
      · cases hn
  | @rule r ws hk _ ih =>
    obtain ⟨ts, hf, hs, htok, hc⟩ := ih
    refine ⟨[.node r 0 0 ts], .call rfl, rfl, ?_, ?_⟩
    · rw [tokensAll_cons, tokens_node (Rule.ne_strLit_of_plain hk), htok]
      simp
    · intro t ht _
      obtain rfl := List.mem_singleton.mp ht
      exact .node (.inl hk) (fun _ => hs) (by rw [hs]; exact hf) hc
  | seq _ _ iha ihb =>
    obtain ⟨ts, hf, hs, htok, hc⟩ := iha
    obtain ⟨us, hf', hs', htok', hc'⟩ := ihb
    refine ⟨ts ++ us, .seq hf hf', by rw [solid_append, hs, hs'], by simp [htok, htok'], ?_⟩
    intro t ht
    rcases List.mem_append.mp ht with ht | ht
    · exact hc t ht
    · exact hc' t ht
  | left _ ih =>
    obtain ⟨ts, hf, h⟩ := ih
    exact ⟨ts, .left hf, h⟩
  | right _ ih =>
    obtain ⟨ts, hf, h⟩ := ih
    exact ⟨ts, .right hf, h⟩
  | without => exact ⟨[], .without, rfl, rfl, by simp⟩
  | within _ ih =>
    obtain ⟨ts, hf, h⟩ := ih
    exact ⟨ts, .within hf, h⟩
  | nil => exact ⟨[], .nil, rfl, rfl, by simp⟩
  | cons _ _ iha ihb =>
    obtain ⟨ts, hf, hs, htok, hc⟩ := iha
    obtain ⟨us, hf', hs', htok', hc'⟩ := ihb
    refine ⟨ts ++ us, .cons hf hf', by rw [solid_append, hs, hs'], by simp [htok, htok'], ?_⟩
    intro t ht
    rcases List.mem_append.mp ht with ht | ht
    · exact hc t ht
    · exact hc' t ht
  | ahead => exact ⟨[], .ahead, rfl, rfl, by simp⟩
  | start => exact ⟨[], .start, rfl, rfl, by simp⟩
  | finish => exact ⟨[], .finish, rfl, rfl, by simp⟩

/-- **What a rule derives is the tokens of a conforming tree**, in which every `else` belongs to the
nearest `if`. -/
theorem Peg.Derives.exists_tree {r : Rule} {ws : List (List Char)} (h : (Peg.call r).Derives ws) :
    ∃ t, Is r t ∧ t.Nearest ∧ t.tokens = ws := by
  obtain ⟨ts, hf, -, htok, hc⟩ := h.exists_trees
  obtain ⟨t, rfl, hr⟩ := Fits.call_iff.mp hf
  obtain ⟨u, hu, hn, hur, hut⟩ := (hc t (List.mem_singleton.mpr rfl) (isNode_of_rule hr)).exists_nearest
  refine ⟨u, ⟨hur.trans hr, hu⟩, hn, hut.trans ?_⟩
  rwa [tokensAll_cons, tokensAll_nil, List.append_nil] at htok

end Mt22
