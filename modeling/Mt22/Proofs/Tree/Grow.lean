import Mt22.Proofs.Tree.Attach

/-!
# Growing trees

Trees are put together rule by rule.  What is put together by the grammar, with every `else` at the
nearest `if`, has these properties again, and its tokens are those of its parts.

* `Tree.Grown r t ws`: a node of rule `r` with the tokens `ws`.
* `Peg.Grows e ts ws`: trees for an expression with the tokens `ws`.
-/

namespace Mt22

open Mt22.Tree

/-- A conforming node of a rule, with its tokens and with every `else` at the nearest `if`. -/
structure Tree.Grown (r : Rule) (t : Tree) (ws : List (List Char)) : Prop where
  is : Is r t
  nearest : t.Nearest
  tokens : t.tokens = ws

/-- Trees that an expression gives, with their tokens and with every `else` at the nearest `if`. -/
structure Peg.Grows (e : Peg) (ts : List Tree) (ws : List (List Char)) : Prop where
  fits : e.Fits ts
  tokens : tokensAll ts = ws
  solid : solid ts = ts
  nodes : ∀ t ∈ ts, t.isNode = true → t.Conforms ∧ t.Nearest

namespace Peg.Grows

variable {a b : Peg} {ts us : List Tree} {vs ws : List (List Char)}

theorem text (s : List Char) : Grows (.text s) [.token s] [s] :=
  ⟨.text s, rfl, rfl, by simp [isNode]⟩

theorem word (w : String) : Grows (Peg.word w) [.token w.toList] [w.toList] :=
  ⟨Fits.word_iff.mpr rfl, rfl, rfl, by simp [isNode]⟩

theorem call {r : Rule} {t : Tree} (h : Grown r t ws) : Grows (.call r) [t] ws := by
  refine ⟨.call h.is.rule, ?_, solid_singleton_of_isNode (isNode_of_rule h.is.rule), ?_⟩
  · rw [tokensAll_cons, tokensAll_nil, List.append_nil, h.tokens]
  · intro u hu _
    obtain rfl := List.mem_singleton.mp hu
    exact ⟨h.is.conforms, h.nearest⟩

theorem empty (h : a.Fits []) : Grows a [] [] := ⟨h, rfl, rfl, by simp⟩

theorem seq (ha : Grows a ts vs) (hb : Grows b us ws) : Grows (.seq a b) (ts ++ us) (vs ++ ws) := by
  refine ⟨.seq ha.fits hb.fits, ?_, ?_, ?_⟩
  · rw [tokensAll_append, ha.tokens, hb.tokens]
  · rw [solid_append, ha.solid, hb.solid]
  · intro t ht
    rcases List.mem_append.mp ht with ht | ht
    · exact ha.nodes t ht
    · exact hb.nodes t ht

/-- A sequence of which the first item gives one tree. -/
theorem item {t : Tree} (ha : Grows a [t] vs) (hb : Grows b us ws) :
    Grows (.seq a b) (t :: us) (vs ++ ws) := ha.seq hb

theorem map (h : Grows a ts ws) (hf : ∀ ts, a.Fits ts → b.Fits ts) : Grows b ts ws :=
  ⟨hf ts h.fits, h.tokens, h.solid, h.nodes⟩

theorem left (h : Grows a ts ws) : Grows (.choice a b) ts ws := h.map fun _ => .left

theorem right (h : Grows b ts ws) : Grows (.choice a b) ts ws := h.map fun _ => .right

theorem within (h : Grows a ts ws) : Grows (.opt a) ts ws := h.map fun _ => .within

theorem without : Grows (.opt a) [] [] := .empty .without

theorem nil : Grows (.star a) [] [] := .empty .nil

theorem cons (ha : Grows a ts vs) (hs : Grows (.star a) us ws) :
    Grows (.star a) (ts ++ us) (vs ++ ws) := by
  have h := ha.seq hs
  exact ⟨.cons ha.fits hs.fits, h.tokens, h.solid, h.nodes⟩

/-- A node of a rule, given that no `else` is stray among its parts. -/
theorem node_of_noStray {r : Rule} (h : Grows r.body ts ws) (hk : r.kind = .plain)
    (hs : NoStray ts) : Grown r (.node r 0 0 ts) ws := by
  refine ⟨⟨rfl, .node (.inl hk) (fun _ => h.solid) ?_ fun t ht hn => (h.nodes t ht hn).1⟩,
    .node ?_ fun t ht hn => (h.nodes t ht hn).2, ?_⟩
  · rw [h.solid]
    exact h.fits
  · rw [h.solid]
    exact hs
  · rw [tokens_node (Rule.ne_strLit_of_plain hk), h.tokens]

theorem node {r : Rule} (h : Grows r.body ts ws) (hk : r.kind = .plain) (hr : r ≠ .ifStmt) :
    Grown r (.node r 0 0 ts) ws :=
  h.node_of_noStray hk
    (noStray_of_hasElse (h.fits.hasElse_eq_false (Rule.isElseless_body (.inl hk) hr)))

end Peg.Grows

namespace Tree.Grown

open Peg

variable {r : Rule}

/-- The parts of a node, trivia apart, are what its rule gives. -/
theorem grows {t : Tree} {ws : List (List Char)} (h : Grown r t ws) (hk : r.kind = .plain) :
    Grows r.body (solid t.parts) ws := by
  obtain ⟨hf, hc⟩ := h.is.fits (by rw [hk]; decide)
  refine ⟨hf, ?_, solid_solid _, fun c hc' hn => ?_⟩
  · rw [← h.tokens, h.is.tokens_eq hk]
  · have hmem := (List.mem_filter.mp hc').1
    refine ⟨hc c hmem hn, ?_⟩
    cases h.nearest with
    | node _ hparts => exact hparts c hmem hn

/-- A token of a class. -/
theorem token {w : List Char} (h : r.Allows w) (hr : r ≠ .strLit) :
    Grown r (.node r 0 0 [.token w]) [w] :=
  ⟨⟨rfl, .token h⟩, nearest_token r 0 0 w, by simp [tokens_node hr]⟩

/-- A string literal, which is one token with its quotes. -/
theorem string {b : List Char} (h : Token.isStringBody b = true) :
    Grown .strLit (.node .strLit 0 0 [.token ['"'], .node .strBody 0 0 [.token b], .token ['"']])
      ['"' :: (b ++ ['"'])] := by
  have hfits : Rule.strLit.body.Fits
      [.token ['"'], .node .strBody 0 0 [.token b], .token ['"']] :=
    .item (.text _) (.item (.call rfl) (.text _))
  have hparts : ∀ t ∈ [Tree.token ['"'], .node .strBody 0 0 [.token b], .token ['"']],
      t.isNode = true → t.Conforms ∧ t.Nearest := by
    intro t ht hn
    simp only [List.mem_cons, List.not_mem_nil, or_false] at ht
    rcases ht with rfl | rfl | rfl
    · cases hn
    · exact ⟨.token h, nearest_token ..⟩
    · cases hn
  refine ⟨⟨rfl, .node (.inr rfl) (fun _ => rfl) hfits fun t ht hn => (hparts t ht hn).1⟩,
    .node ?_ fun t ht hn => (hparts t ht hn).2, by simp [tokens_strLit, Tree.text]⟩
  exact noStray_of_hasElse (hfits.hasElse_eq_false (Rule.isElseless_body (.inr rfl) (by decide)))

/-- A program of some declarations. -/
theorem program {ds : List Tree} {ws : List (List Char)}
    (h : Grows (plus (.call .declaration)) ds ws) :
    Grown .program (.node .program 0 0 (ds ++ [.node .eoi 0 0 []])) ws := by
  have heoi : Grown .eoi (.node .eoi 0 0 []) [] :=
    Grows.node (r := .eoi) (Grows.empty .finish) rfl (by decide)
  have hbody := (Grows.empty .start).seq (h.seq (.call heoi))
  rw [List.append_nil, List.nil_append, List.nil_append] at hbody
  exact Grows.node (r := .program) hbody rfl (by decide)

end Tree.Grown

/-! ### One item after the other -/

open Mt22.Peg

theorem Peg.Fits.star_append {a : Peg} {ts us : List Tree} (ht : Fits (.star a) ts)
    (hu : Fits (.star a) us) : Fits (.star a) (ts ++ us) := by
  generalize he : Peg.star a = e at ht
  induction ht with
  | nil =>
    cases he
    exact hu
  | cons ha _ _ ih =>
    cases he
    rw [List.append_assoc]
    exact .cons ha (ih rfl)
  | _ => cases he

theorem Peg.Fits.plus_append {a : Peg} {ts us : List Tree} (ht : (plus a).Fits ts)
    (hu : (plus a).Fits us) : (plus a).Fits (ts ++ us) := by
  obtain ⟨xs, ys, rfl, hx, hy⟩ := Fits.seq_iff.mp ht
  obtain ⟨zs, ws, rfl, hz, hw⟩ := Fits.seq_iff.mp hu
  rw [List.append_assoc]
  exact .seq hx (hy.star_append (.cons hz hw))

theorem Peg.Fits.rule_of_plus {r : Rule} {ts : List Tree} (h : (plus (.call r)).Fits ts) :
    ∀ t ∈ ts, t.rule? = some r := by
  have hstar : ∀ {e us}, Fits e us → e = .star (.call r) → ∀ u ∈ us, u.rule? = some r := by
    intro e us h
    induction h with
    | nil => simp
    | cons ha _ _ ih =>
      intro he u hu
      cases he
      obtain ⟨t, rfl, ht⟩ := Fits.call_iff.mp ha
      rcases List.mem_append.mp hu with hu | hu
      · exact List.mem_singleton.mp hu ▸ ht
      · exact ih rfl u hu
    | _ => intro he; cases he
  obtain ⟨xs, ys, rfl, hx, hy⟩ := Fits.seq_iff.mp h
  intro t ht
  exact hstar (.cons hx hy) rfl t ht

theorem Peg.Grows.plus_append {a : Peg} {ts us : List Tree} {vs ws : List (List Char)}
    (ht : Grows (plus a) ts vs) (hu : Grows (plus a) us ws) :
    Grows (plus a) (ts ++ us) (vs ++ ws) := by
  have h := ht.seq hu
  exact ⟨ht.fits.plus_append hu.fits, h.tokens, h.solid, h.nodes⟩

theorem Tree.nodes_of_rule {r : Rule} {ts : List Tree} (h : ∀ t ∈ ts, t.rule? = some r) :
    nodes ts = ts :=
  List.filter_eq_self.mpr fun t ht => isNode_of_rule (h t ht)

/-- The children of a program: its declarations, and the end of the text. -/
theorem Tree.children_program {ds : List Tree} (h : ∀ d ∈ ds, d.rule? = some .declaration) :
    (Tree.node .program 0 0 (ds ++ [.node .eoi 0 0 []])).children = ds ++ [.node .eoi 0 0 []] := by
  rw [children, parts, nodes_append, nodes_of_rule h]
  rfl

/-! ### Lists with commas -/

/-- Trees with commas between them. -/
def Tree.separated : List Tree → List Tree
  | [] => []
  | t :: ts => t :: ts.flatMap fun u => [.token ",".toList, u]

/-- Groups of tokens with commas between them. -/
def commaTokens (wss : List (List (List Char))) : List (List Char) := [",".toList].intercalate wss

theorem intercalate_cons {α : Type} (x : α) (g : List α) (gs : List (List α)) :
    [x].intercalate (g :: gs) = g ++ gs.flatMap (x :: ·) := by
  induction gs generalizing g with
  | nil => simp
  | cons h gs ih => rw [List.intercalate_cons_cons, ih]; simp

theorem Tree.nodes_separated {r : Rule} {ts : List Tree} (h : ∀ t ∈ ts, t.rule? = some r) :
    nodes (separated ts) = ts := by
  have hrest : ∀ us : List Tree, (∀ u ∈ us, u.rule? = some r) →
      nodes (us.flatMap fun u => [.token ",".toList, u]) = us := by
    intro us hus
    induction us with
    | nil => rfl
    | cons u us ih =>
      rw [List.flatMap_cons, nodes_append, nodes_cons_token,
        nodes_cons_of_rule (hus u List.mem_cons_self),
        ih fun v hv => hus v (List.mem_cons_of_mem u hv)]
      rfl
  cases ts with
  | nil => rfl
  | cons t ts =>
    rw [separated, nodes_cons_of_rule (h t List.mem_cons_self),
      hrest ts fun u hu => h u (List.mem_cons_of_mem t hu)]

theorem Peg.Grows.commaList {r : Rule} {ts : List Tree} {wss : List (List (List Char))}
    (h : List.Forall₂ (Grown r) ts wss) (hne : ts ≠ []) :
    Grows (Peg.commaList (.call r)) (separated ts) (commaTokens wss) := by
  have hrest : ∀ {us vss}, List.Forall₂ (Grown r) us vss →
      Grows (.star (.seq (.text ",".toList) (.call r)))
        (us.flatMap fun u => [.token ",".toList, u]) (vss.flatMap (",".toList :: ·)) := by
    intro us vss h
    induction h with
    | nil => exact .nil
    | cons hu _ ih => exact ((text _).item (call hu)).cons ih
  cases h with
  | nil => exact absurd rfl hne
  | cons ht hts =>
    rw [commaTokens, intercalate_cons]
    exact (call ht).item (hrest hts)

end Mt22
