import Mt22.Proofs.Parsing.Complete

/-!
# Moving an `else` to the nearest `if`

The grammar alone allows an `else` to belong to any `if` before it.  Moving each `else` to the nearest
`if` keeps the tokens, so a conforming tree always has one with the same tokens in which every `else`
belongs to the nearest `if` (`Tree.Conforms.exists_nearest`).

* `Tree.attach b t`: the open tree `t` with `else b` given to the last `if` in it.
-/

namespace Mt22

open Mt22.Tree Mt22.Peg

namespace Tree

mutual

/-- The tree with `else b` given to the last `if` that is open at its end. -/
def attach (b : Tree) : Tree → Tree
  | .node r i j ps => .node r i j (if openAll ps then attachAll b ps else ps ++ [elseToken, b])
  | t => t

/-- The trees with `else b` given to the last `if` that is open at their end. -/
def attachAll (b : Tree) : List Tree → List Tree
  | [] => []
  | t :: ts => if ts.all isTrivia then attach b t :: ts else t :: attachAll b ts

end

/-- The trees are the same, or nodes of one rule. -/
def SameRule (t u : Tree) : Prop := t = u ∨ t.rule? = u.rule? ∧ t.isNode = true

theorem SameRule.isTrivia {t u : Tree} (h : SameRule t u) : t.isTrivia = u.isTrivia := by
  obtain rfl | ⟨hr, hn⟩ := h
  · rfl
  · cases t with
    | token | trivia => cases hn
    | node =>
      cases u with
      | token | trivia => cases hr
      | node => rfl

theorem SameRule.solid {ts us : List Tree} (h : List.Forall₂ SameRule ts us) :
    List.Forall₂ SameRule (solid ts) (solid us) := by
  induction h with
  | nil => exact .nil
  | @cons t u ts us htu _ ih =>
    have htriv := htu.isTrivia
    cases hu : u.isTrivia with
    | true =>
      simp only [Tree.solid, List.filter_cons, htriv, hu] at ih ⊢
      exact ih
    | false =>
      simp only [Tree.solid, List.filter_cons, htriv, hu] at ih ⊢
      exact .cons htu ih

theorem forall₂_append_left {α β : Type} {R : α → β → Prop} {xs ys : List α} {zs : List β}
    (h : List.Forall₂ R (xs ++ ys) zs) :
    ∃ us vs, List.Forall₂ R xs us ∧ List.Forall₂ R ys vs ∧ zs = us ++ vs := by
  induction xs generalizing zs with
  | nil => exact ⟨[], zs, .nil, h, rfl⟩
  | cons x xs ih =>
    cases h with
    | cons hx hxs =>
      obtain ⟨us, vs, hu, hv, rfl⟩ := ih hxs
      exact ⟨_ :: us, vs, .cons hx hu, hv, rfl⟩

end Tree

/-- Fitting looks at no tree from the inside. -/
theorem Peg.Fits.congr {e : Peg} {ts us : List Tree} (h : e.Fits ts)
    (hs : List.Forall₂ SameRule ts us) : e.Fits us := by
  induction h generalizing us with
  | text s =>
    cases hs with
    | cons h1 h2 =>
      cases h2
      obtain rfl | ⟨-, hn⟩ := h1
      · exact .text s
      · cases hn
  | start => cases hs; exact .start
  | finish => cases hs; exact .finish
  | call hr =>
    cases hs with
    | cons h1 h2 =>
      cases h2
      obtain rfl | ⟨hru, -⟩ := h1
      · exact .call hr
      · exact .call (hru ▸ hr)
  | seq _ _ iha ihb =>
    obtain ⟨xs, ys, hx, hy, rfl⟩ := forall₂_append_left hs
    exact .seq (iha hx) (ihb hy)
  | left _ ih => exact .left (ih hs)
  | right _ ih => exact .right (ih hs)
  | without => cases hs; exact .without
  | within _ ih => exact .within (ih hs)
  | nil => cases hs; exact .nil
  | cons _ _ iha ihb =>
    obtain ⟨xs, ys, hx, hy, rfl⟩ := forall₂_append_left hs
    exact .cons (iha hx) (ihb hy)
  | more _ ih => exact .more (ih hs)
  | ahead => cases hs; exact .ahead

namespace Tree

/-- Where an `else` is attached: at the last of the trees, trivia apart. -/
theorem attachAll_of_openAll (b : Tree) : ∀ {ts : List Tree}, openAll ts = true →
    ∃ xs t zs, ts = xs ++ t :: zs ∧ zs.all isTrivia = true ∧ t.isOpen = true ∧
      attachAll b ts = xs ++ attach b t :: zs
  | t :: ts, h => by
    rw [openAll] at h
    rw [attachAll]
    split at h
    · next hall =>
      rw [if_pos hall]
      exact ⟨[], t, ts, rfl, hall, h, rfl⟩
    · next hall =>
      rw [if_neg hall]
      obtain ⟨xs, u, zs, rfl, hz, hu, heq⟩ := attachAll_of_openAll b h
      exact ⟨t :: xs, u, zs, rfl, hz, hu, by rw [heq]; rfl⟩

theorem isNode_of_isOpen {t : Tree} (h : t.isOpen = true) : t.isNode = true := by
  cases t with
  | token | trivia => cases h
  | node => rfl

theorem solid_of_isTrivia {ts : List Tree} (h : ts.all isTrivia = true) : solid ts = [] := by
  rw [solid, List.filter_eq_nil_iff]
  intro t ht
  simp [List.all_eq_true.mp h t ht]

theorem solid_singleton_of_isNode {t : Tree} (h : t.isNode = true) : solid [t] = [t] := by
  cases t with
  | token | trivia => cases h
  | node => rfl

theorem solid_eq_self_congr {ts us : List Tree} (h : List.Forall₂ SameRule ts us)
    (hs : solid ts = ts) : solid us = us := by
  induction h with
  | nil => rfl
  | @cons t u ts us htu _ ih =>
    rw [solid, List.filter_eq_self] at hs ⊢
    intro x hx
    rcases List.mem_cons.mp hx with rfl | hx
    · rw [← htu.isTrivia]
      exact hs t List.mem_cons_self
    · have := ih (List.filter_eq_self.mpr fun y hy => hs y (List.mem_cons_of_mem _ hy))
      exact List.filter_eq_self.mp this x hx

/-! ### No stray `else` -/

theorem noStray_of_hasElse {ts : List Tree} (h : hasElse ts = false) : NoStray ts := by
  rintro us vs rfl
  rw [hasElse_iff.mpr (by simp)] at h
  cases h

theorem NoStray.concat {ts : List Tree} (h : NoStray ts) {t : Tree} (ht : t ≠ elseToken) :
    NoStray (ts ++ [t]) := by
  intro us vs heq
  rcases List.eq_nil_or_concat vs with rfl | ⟨vs', v, rfl⟩
  · obtain ⟨-, h1⟩ := List.append_inj' heq rfl
    exact absurd (List.cons.inj h1).1 ht
  · rw [List.concat_eq_append, ← List.cons_append, ← List.append_assoc] at heq
    exact h us vs' (List.append_inj' heq rfl).1

/-- An `else` may follow what is not open. -/
theorem NoStray.append_else {ts : List Tree} (h : hasElse ts = false) (ho : openAll ts = false)
    {b : Tree} (hb : b ≠ elseToken) : NoStray (ts ++ [elseToken, b]) := by
  have hlast : NoStray (ts ++ [elseToken]) := by
    intro us vs heq
    rcases List.eq_nil_or_concat vs with rfl | ⟨vs', v, rfl⟩
    · rw [← (List.append_inj' heq rfl).1]
      exact ho
    · rw [List.concat_eq_append, ← List.cons_append, ← List.append_assoc] at heq
      exact noStray_of_hasElse h us vs' (List.append_inj' heq rfl).1
  have := hlast.concat hb
  rwa [List.append_assoc] at this

end Tree

/-- The expression has no text `else`. -/
def Peg.isElseless : Peg → Bool
  | text s => s ≠ "else".toList
  | seq a b | choice a b => a.isElseless && b.isElseless
  | opt a | star a | more a => a.isElseless
  | _ => true

theorem Rule.isElseless_body {r : Rule} (hk : r.kind = .plain ∨ r.kind = .compound)
    (hr : r ≠ .ifStmt) : r.body.isElseless = true := by
  have hall : ∀ r ∈ Rule.all, r.kind = .plain ∨ r.kind = .compound → r ≠ .ifStmt →
      r.body.isElseless = true := by
    decide
  exact hall r r.mem_all hk hr

theorem Peg.Fits.hasElse_eq_false {e : Peg} {ts : List Tree} (h : e.Fits ts)
    (he : e.isElseless = true) : hasElse ts = false := by
  have happend : ∀ xs ys, hasElse xs = false → hasElse ys = false → hasElse (xs ++ ys) = false := by
    intro xs ys hx hy
    simp only [hasElse] at hx hy
    rw [hasElse, List.any_append, hx, hy]
    rfl
  induction h with
  | text s => simpa [hasElse] using of_decide_eq_true he
  | @call r t hr =>
    cases t with
    | token | trivia => cases hr
    | node => rfl
  | seq _ _ iha ihb =>
    obtain ⟨ha, hb⟩ := Bool.and_eq_true_iff.mp he
    exact happend _ _ (iha ha) (ihb hb)
  | left _ ih => exact ih (Bool.and_eq_true_iff.mp he).1
  | right _ ih => exact ih (Bool.and_eq_true_iff.mp he).2
  | within _ ih | more _ ih => exact ih he
  | cons _ _ iha ihb => exact happend _ _ (iha he) (ihb he)
  | start | finish | without | nil | ahead => rfl

namespace Tree

/-- What attaching an `else` to an open tree gives. -/
structure Attached (b t u : Tree) : Prop where
  conforms : u.Conforms
  nearest : u.Nearest
  rule : u.rule? = t.rule?
  tokens : u.tokens = t.tokens ++ "else".toList :: b.tokens

/-- One tree of a list is put in the place of another. -/
theorem forall_mem_replace {P : Tree → Prop} {xs zs : List Tree} {t u : Tree}
    (h : ∀ v ∈ xs ++ t :: zs, P v) (hu : P u) : ∀ v ∈ xs ++ u :: zs, P v := by
  simp only [List.forall_mem_append, List.forall_mem_cons] at h ⊢
  exact ⟨h.1, hu, h.2.2⟩

/-- The part of a node to which the `else` goes is put in the place of the old one. -/
theorem Attached.last {b t u : Tree} {r : Rule} {i j : Nat} {xs zs : List Tree} (hr : r ≠ .strLit)
    (hc : (Tree.node r i j (xs ++ t :: zs)).Conforms)
    (hn : (Tree.node r i j (xs ++ t :: zs)).Nearest) (hz : zs.all isTrivia = true)
    (ht : t.isNode = true) (h : Attached b t u) :
    Attached b (.node r i j (xs ++ t :: zs)) (.node r i j (xs ++ u :: zs)) := by
  have hu : u.isNode = true := by
    cases t with
    | token | trivia => cases ht
    | node => exact isNode_of_rule h.rule
  have hsame : List.Forall₂ SameRule (xs ++ t :: zs) (xs ++ u :: zs) :=
    List.rel_append (List.forall₂_same.mpr fun _ _ => .inl rfl)
      (.cons (.inr ⟨h.rule.symm, ht⟩) (List.forall₂_same.mpr fun _ _ => .inl rfl))
  obtain ⟨hstray, hnear⟩ := hn
  generalize hps : xs ++ t :: zs = ps at hc
  cases hc with
  | token =>
    have hmem : t ∈ xs ++ t :: zs := by simp
    rw [hps, List.mem_singleton] at hmem
    rw [hmem] at ht
    cases ht
  | node kind tight fits parts =>
    subst hps
    refine ⟨.node kind (fun ht => solid_eq_self_congr hsame (tight ht))
      (fits.congr (SameRule.solid hsame)) (forall_mem_replace parts fun _ => h.conforms),
      .node ?_ (forall_mem_replace hnear fun _ => h.nearest), rfl, ?_⟩
    · have hsolid : ∀ {v : Tree}, v.isNode = true → solid (xs ++ v :: zs) = solid xs ++ [v] := by
        intro v hv
        rw [solid_append, ← List.singleton_append, solid_append, solid_of_isTrivia hz,
          solid_singleton_of_isNode hv, List.append_nil]
      rw [hsolid ht] at hstray
      rw [hsolid hu]
      refine hstray.left.concat ?_
      rintro rfl
      cases hu
    · have hzs : tokensAll zs = [] := by rw [← tokensAll_solid, solid_of_isTrivia hz]; rfl
      rw [tokens_node hr, tokens_node hr]
      simp [h.tokens, hzs]

/-- An `if` without an `else`, whose branch is not open, takes the `else` itself. -/
theorem Attached.ifStmt {b : Tree} {i j : Nat} {ps : List Tree} (hb : Is .statement b)
    (hbn : b.Nearest) (hc : (Tree.node .ifStmt i j ps).Conforms)
    (hn : (Tree.node .ifStmt i j ps).Nearest) (hnone : hasElse ps = false)
    (hopen : openAll ps = false) :
    Attached b (.node .ifStmt i j ps) (.node .ifStmt i j (ps ++ [elseToken, b])) := by
  have hbnode := isNode_of_rule hb.rule
  have hsolid : solid (ps ++ [elseToken, b]) = solid ps ++ [elseToken, b] := by
    rw [solid_append, show [elseToken, b] = [elseToken] ++ [b] from rfl, solid_append,
      solid_singleton_of_isNode hbnode]
    rfl
  have hparts : ∀ {P : Tree → Prop}, (∀ v ∈ ps, v.isNode = true → P v) → P b →
      ∀ v ∈ ps ++ [elseToken, b], v.isNode = true → P v := by
    intro P hps hb
    simp only [List.forall_mem_append, List.forall_mem_cons]
    exact ⟨hps, (by rintro ⟨⟩), fun _ => hb, List.forall_mem_nil _⟩
  obtain ⟨hf, hconf⟩ := (Is.of_conforms hc).fits (by decide)
  have hf : Rule.ifStmt.body.Fits (solid ps) := hf
  obtain ⟨-, hnear⟩ := hn
  refine ⟨.node (.inl rfl) (fun h => by cases h) ?_ (hparts hconf hb.conforms),
    .node ?_ (hparts hnear hbn), rfl, ?_⟩
  · rw [hsolid]
    obtain ⟨e, a, he, ha, hs | ⟨c, -, hs⟩⟩ := ifStmt_cases hf
    · rw [hs]
      exact fits_ifParts_else he ha hb.rule
    · have helse : hasElse (solid ps) = true := hasElse_iff.mpr (by simp [hs])
      rw [hasElse_solid, hnone] at helse
      cases helse
  · rw [hsolid]
    refine .append_else (by rw [hasElse_solid, hnone]) (by rw [openAll_solid, hopen]) ?_
    rintro rfl
    cases hbnode
  · rw [tokens_node (by decide), tokens_node (by decide)]
    simp [elseToken]

/-- A string literal ends with a quote, and so is not open. -/
theorem not_openAll_strLit {ps : List Tree} (h : Rule.strLit.body.Fits (solid ps)) :
    openAll ps = false := by
  obtain ⟨xs, ys, hs, -, hy⟩ := Fits.seq_iff.mp h
  obtain ⟨zs, us, rfl, -, hu⟩ := Fits.seq_iff.mp hy
  obtain rfl := Fits.text_iff.mp hu
  rw [← openAll_solid, hs, ← List.append_assoc, openAll_append_singleton _ rfl]
  rfl

/-- **An `else` can be given to an open tree**, at the last `if` in it. -/
theorem Conforms.attach {b t : Tree} (hb : Is .statement b) (hbn : b.Nearest) (h : t.Conforms)
    (hn : t.Nearest) (ho : t.isOpen = true) : Attached b t (attach b t) := by
  induction h with
  | @token r i j w hw =>
    have hne : r ≠ .ifStmt := by
      rintro rfl
      exact hw
    simp [isOpen, openAll, hne] at ho
  | @node r i j ps kind tight fits parts ih =>
    have hc : (Tree.node r i j ps).Conforms := .node kind tight fits parts
    rw [Tree.attach]
    cases hopen : openAll ps with
    | true =>
      have hne : r ≠ .strLit := by
        rintro rfl
        rw [not_openAll_strLit fits] at hopen
        cases hopen
      obtain ⟨xs, t, zs, rfl, hz, ht, hattach⟩ := attachAll_of_openAll b hopen
      have hmem : t ∈ xs ++ t :: zs := by simp
      have hnode := isNode_of_isOpen ht
      have hnear := hn.children t (List.mem_filter.mpr ⟨hmem, hnode⟩)
      rw [if_pos rfl, hattach]
      exact .last hne hc hn hz hnode (ih t hmem hnode hnear ht)
    | false =>
      rw [isOpen, hopen, Bool.or_false, Bool.and_eq_true, decide_eq_true_eq, Bool.not_eq_true'] at ho
      obtain ⟨rfl, hnone⟩ := ho
      rw [if_neg (by decide)]
      exact .ifStmt hb hbn hc hn hnone hopen

/-- The tree has the rule and the tokens of another, and every `else` in it belongs to the nearest
`if`. -/
structure Stands (t u : Tree) : Prop where
  conforms : u.Conforms
  nearest : u.Nearest
  rule : u.rule? = t.rule?
  tokens : u.tokens = t.tokens

/-- Trees that stand for the nodes of a list, one for each. -/
theorem exists_stands : ∀ {ts : List Tree}, (∀ t ∈ ts, t.isNode = true → ∃ u, Stands t u) →
    ∃ us, List.Forall₂ SameRule ts us ∧ tokensAll us = tokensAll ts ∧
      ∀ u ∈ us, u.isNode = true → u.Conforms ∧ u.Nearest
  | [], _ => ⟨[], .nil, rfl, by simp⟩
  | t :: ts, h => by
    obtain ⟨us, hs, htok, hall⟩ := exists_stands fun u hu => h u (List.mem_cons_of_mem _ hu)
    cases hn : t.isNode with
    | false =>
      refine ⟨t :: us, .cons (.inl rfl) hs, by simp [htok], ?_⟩
      intro u hu hun
      rcases List.mem_cons.mp hu with rfl | hu
      · rw [hn] at hun
        cases hun
      · exact hall u hu hun
    | true =>
      obtain ⟨u, hc, hnear, hr, htu⟩ := h t List.mem_cons_self hn
      refine ⟨u :: us, .cons (.inr ⟨hr.symm, hn⟩) hs, by simp [htok, htu], ?_⟩
      intro v hv hvn
      rcases List.mem_cons.mp hv with rfl | hv
      · exact ⟨hc, hnear⟩
      · exact hall v hv hvn

theorem nearest_token (r : Rule) (i j : Nat) (w : List Char) :
    (Tree.node r i j [.token w]).Nearest := by
  refine .node ?_ ?_
  · intro us vs h
    cases us with
    | nil => rfl
    | cons u us => simp at h
  · intro t ht hn
    obtain rfl := List.mem_singleton.mp ht
    cases hn

theorem solid_ifParts {e a : Tree} (he : e.isNode = true) (ha : a.isNode = true) :
    solid (ifParts e a) = ifParts e a := by
  cases e with
  | token | trivia => cases he
  | node =>
    cases a with
    | token | trivia => cases ha
    | node => rfl

/-- The `else` after an open branch is moved into the branch. -/
theorem Attached.stands {b e a u : Tree} {i j : Nat} {ps : List Tree}
    (hs : solid ps = ifParts e a ++ [elseToken, b]) (he : Is .expression e) (hen : e.Nearest)
    (ha : a.rule? = some .statement) (h : Attached b a u) :
    Stands (.node .ifStmt i j ps) (.node .ifStmt i j (ifParts e u)) := by
  have hu : u.rule? = some .statement := h.rule.trans ha
  have hsolid := solid_ifParts (isNode_of_rule he.rule) (isNode_of_rule hu)
  have hparts : ∀ {P : Tree → Prop}, P e → P u → ∀ x ∈ ifParts e u, x.isNode = true → P x := by
    intro P he hu
    simp only [ifParts, List.forall_mem_cons]
    exact ⟨nofun, nofun, fun _ => he, nofun, fun _ => hu, List.forall_mem_nil _⟩
  refine ⟨.node (.inl rfl) (fun h => by cases h) ?_ (hparts he.conforms h.conforms),
    .node ?_ (hparts hen h.nearest), rfl, ?_⟩
  · rw [hsolid]
    exact fits_ifParts he.rule hu
  · rw [hsolid]
    exact noStray_of_hasElse (hasElse_ifParts (isNode_of_rule he.rule) (isNode_of_rule hu))
  · rw [tokens_node (by decide), tokens_node (by decide), ← tokensAll_solid ps, hs]
    simp [ifParts, h.tokens, elseToken]

/-- An `if` statement: an `else` after an open branch is attached to that branch. -/
theorem exists_nearest_if {i j : Nat} {ps : List Tree}
    (h : (Tree.node .ifStmt i j ps).Conforms)
    (hps : ∀ u ∈ ps, u.isNode = true → u.Conforms ∧ u.Nearest) :
    ∃ u, Stands (.node .ifStmt i j ps) u := by
  obtain ⟨hf, -⟩ := (Is.of_conforms h).fits (by decide)
  have hf : Rule.ifStmt.body.Fits (solid ps) := hf
  have hmem : ∀ u ∈ solid ps, u.isNode = true → u.Conforms ∧ u.Nearest :=
    fun u hu => hps u (List.mem_filter.mp hu).1
  obtain ⟨e, a, he, ha, hs⟩ := ifStmt_cases hf
  have hnone := hasElse_ifParts (isNode_of_rule he) (isNode_of_rule ha)
  rcases hs with hs | ⟨b, hb, hs⟩
  · refine ⟨_, h, .node ?_ fun u hu hn => (hps u hu hn).2, rfl, rfl⟩
    rw [hs]
    exact noStray_of_hasElse hnone
  · have htriv : a.isTrivia = false := by
      cases a with
      | token | node => rfl
      | trivia => cases ha
    have hopen : openAll (ifParts e a) = a.isOpen := openAll_append_singleton [_, _, _, _] htriv
    cases ho : a.isOpen with
    | false =>
      refine ⟨_, h, .node ?_ fun u hu hn => (hps u hu hn).2, rfl, rfl⟩
      rw [hs]
      refine .append_else hnone (hopen.trans ho) ?_
      rintro rfl
      cases hb
    | true =>
      obtain ⟨hec, hen⟩ := hmem e (by simp [hs, ifParts]) (isNode_of_rule he)
      obtain ⟨hac, han⟩ := hmem a (by simp [hs, ifParts]) (isNode_of_rule ha)
      obtain ⟨hbc, hbn⟩ := hmem b (by simp [hs]) (isNode_of_rule hb)
      exact ⟨_, (hac.attach ⟨hb, hbc⟩ hbn han ho).stands hs ⟨he, hec⟩ hen ha⟩

/-- **Every `else` can be moved to the nearest `if`**, which changes no token. -/
theorem Conforms.exists_nearest {t : Tree} (h : t.Conforms) : ∃ u, Stands t u := by
  induction h with
  | @token r i j w hw => exact ⟨_, .token hw, nearest_token r i j w, rfl, rfl⟩
  | @node r i j ps kind tight fits parts ih =>
    obtain ⟨us, hsame, htok, hus⟩ := exists_stands ih
    have hfits := fits.congr (SameRule.solid hsame)
    have htight : r.isTight = true → solid us = us := fun h => solid_eq_self_congr hsame (tight h)
    by_cases hlit : r = .strLit
    · -- a string literal has no `else` in it, and is kept for its text
      subst hlit
      refine ⟨_, .node kind tight fits parts, .node ?_ ?_, rfl, rfl⟩
      · exact noStray_of_hasElse (fits.hasElse_eq_false (Rule.isElseless_body kind (by decide)))
      · intro t ht hn
        have hsolid := tight rfl
        obtain ⟨xs, ys, hs, hx, hy⟩ := Fits.seq_iff.mp fits
        obtain ⟨zs, vs, rfl, hz, hv⟩ := Fits.seq_iff.mp hy
        obtain ⟨v, rfl, hvr⟩ := Fits.call_iff.mp hz
        obtain rfl := Fits.text_iff.mp hx
        obtain rfl := Fits.text_iff.mp hv
        rw [← hsolid, hs] at ht
        simp only [List.mem_append, List.mem_singleton] at ht
        rcases ht with rfl | rfl | rfl
        · cases hn
        · have hbody : Is .strBody t := ⟨hvr, parts t (by rw [← hsolid, hs]; simp) hn⟩
          obtain ⟨i, j, w, rfl, -⟩ := hbody.token rfl
          exact nearest_token _ i j w
        · cases hn
    · have htokens : (Tree.node r i j us).tokens = (Tree.node r i j ps).tokens := by
        rw [tokens_node hlit, tokens_node hlit, htok]
      have hconf : (Tree.node r i j us).Conforms := .node kind htight hfits fun u hu h => (hus u hu h).1
      by_cases hif : r = .ifStmt
      · subst hif
        obtain ⟨u, hc, hn, hr, ht⟩ := exists_nearest_if hconf hus
        exact ⟨u, hc, hn, hr, ht.trans htokens⟩
      · refine ⟨_, hconf, .node ?_ fun u hu h => (hus u hu h).2, rfl, htokens⟩
        exact noStray_of_hasElse (hfits.hasElse_eq_false (Rule.isElseless_body kind hif))

end Tree

end Mt22
