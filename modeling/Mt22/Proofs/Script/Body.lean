import Mt22.Proofs.Program.DrawProgram
import Mt22.Proofs.Script.Lexical
import Mt22.Proofs.Script.NearestIf
import Mt22.Proofs.Tree.Vocabulary

/-!
# Bodies of functions

The tokens of a function are those of its header and those of its body, and any other body can be
put in the place of its own (`FuncDecl.exists_header`).  So a script in which the tokens of the header
and of another body are laid out is one of the same function with that body (`Script.exists_header`).

A body that is a single assignment or a single call is taken apart into the tokens of the target and
the value, or of the call (`Stmt.tokens_of_assign`, `Stmt.tokens_of_call`).
-/

namespace Mt22

open Mt22.Tree Mt22.Peg Mt22.Visit

/-! ### Trees taken apart -/

/-- The items of a sequence before the last one. -/
def Peg.front : Peg → List Peg
  | seq a b => a :: b.front
  | _ => []

namespace Peg.Grows

variable {a b : Peg} {ts : List Tree} {ws : List (List Char)}

theorem seq_cases (h : Grows (.seq a b) ts ws) : ∃ us vs xs ys,
    ts = us ++ vs ∧ ws = xs ++ ys ∧ Grows a us xs ∧ Grows b vs ys := by
  obtain ⟨us, vs, rfl, ha, hb⟩ := Fits.seq_iff.mp h.fits
  have hsolid : ∀ t ∈ us ++ vs, (!t.isTrivia) = true := List.filter_eq_self.mp h.solid
  refine ⟨us, vs, tokensAll us, tokensAll vs, rfl, ?_, ⟨ha, rfl, ?_, ?_⟩, ⟨hb, rfl, ?_, ?_⟩⟩
  · rw [← h.tokens, tokensAll_append]
  · exact List.filter_eq_self.mpr fun t ht => hsolid t (List.mem_append_left _ ht)
  · exact fun t ht => h.nodes t (List.mem_append_left _ ht)
  · exact List.filter_eq_self.mpr fun t ht => hsolid t (List.mem_append_right _ ht)
  · exact fun t ht => h.nodes t (List.mem_append_right _ ht)

theorem text_eq {s : List Char} (h : Grows (.text s) ts ws) : ts = [.token s] ∧ ws = [s] := by
  obtain rfl := Fits.text_iff.mp h.fits
  exact ⟨rfl, h.tokens.symm⟩

theorem call_cases {r : Rule} (h : Grows (.call r) ts ws) : ∃ t, ts = [t] ∧ Grown r t ws := by
  obtain ⟨t, rfl, hr⟩ := Fits.call_iff.mp h.fits
  obtain ⟨hc, hn⟩ := h.nodes t (List.mem_singleton_self t) (isNode_of_rule hr)
  have htok := h.tokens
  rw [tokensAll_cons, tokensAll_nil, List.append_nil] at htok
  exact ⟨t, rfl, ⟨hr, hc⟩, hn, htok⟩

/-- A choice between nodes is one of them. -/
theorem exists_of_oneOf {rs : List Rule} (h : Grows (oneOf (rs.map .call)) ts ws) :
    ∃ r ∈ rs, ∃ t, ts = [t] ∧ Grown r t ws := by
  induction rs with
  | nil => cases h.fits
  | cons q rs ih =>
    cases rs with
    | nil =>
      obtain ⟨t, rfl, ht⟩ := h.call_cases
      exact ⟨q, List.mem_cons_self, t, rfl, ht⟩
    | cons p rs =>
      rcases Fits.choice_iff.mp h.fits with hq | hrest
      · obtain ⟨t, rfl, ht⟩ := call_cases ⟨hq, h.tokens, h.solid, h.nodes⟩
        exact ⟨q, List.mem_cons_self, t, rfl, ht⟩
      · obtain ⟨r, hr, t, rfl, ht⟩ := ih ⟨hrest, h.tokens, h.solid, h.nodes⟩
        exact ⟨r, List.mem_cons_of_mem _ hr, t, rfl, ht⟩

theorem plus_of_star {t : Tree} (h : Grows (.star a) (t :: ts) ws) :
    Grows (plus a) (t :: ts) ws := by
  refine ⟨?_, h.tokens, h.solid, h.nodes⟩
  have hfits := h.fits
  generalize hts : t :: ts = us at hfits
  cases hfits with
  | nil => cases hts
  | cons ha hs => exact .seq ha hs

/-- A run of choices between nodes, with the tokens of each of them. -/
theorem forall₂_of_star (rs : List Rule) (h : Grows (.star (oneOf (rs.map .call))) ts ws) :
    ∃ wss, ws = wss.flatten ∧ List.Forall₂ (fun t vs => ∃ r ∈ rs, Grown r t vs) ts wss := by
  induction ts generalizing ws with
  | nil => exact ⟨[], h.tokens.symm, .nil⟩
  | cons t ts ih =>
    obtain ⟨us, vs, xs, ys, hts, rfl, ha, hs⟩ := h.plus_of_star.seq_cases
    obtain ⟨r, hr, u, rfl, hu⟩ := ha.exists_of_oneOf
    obtain ⟨rfl, rfl⟩ := List.cons.inj hts
    obtain ⟨wss, rfl, hall⟩ := ih hs
    exact ⟨xs :: wss, rfl, .cons ⟨r, hr, hu⟩ hall⟩

/-- The tokens of an expression are in the vocabulary of its rules. -/
theorem forall_tokens {R : Rule → Bool} {Q : List Char → Prop} (hs : Rule.Speaks R Q)
    (h : Grows a ts ws) (hcalls : ∀ r ∈ a.calls, R r = true) (htexts : ∀ w ∈ a.texts, Q w) :
    ∀ w ∈ ws, Q w := by
  intro w hw
  rw [← h.tokens] at hw
  rcases h.fits.mem_tokensAll w hw with hw | ⟨t, ht, hn, hw⟩
  · exact htexts w hw
  · cases t with
    | token | trivia => cases hn
    | node r i j ps =>
      exact Is.forall_tokens hs ⟨rfl, (h.nodes _ ht hn).1⟩
        (hcalls r (h.fits.mem_calls _ ht r rfl)) w hw

/-- **The last node of a sequence can be exchanged** for another one of its rule. -/
theorem exchange_last {e : Peg} {r : Rule} (he : e.last = .call r) (h : Grows e ts ws) :
    ∃ us t xs ys, ts = us ++ [t] ∧ ws = xs ++ ys ∧ Grown r t ys ∧
      (∀ w ∈ xs, ∃ a ∈ e.front, ∃ us' xs', Grows a us' xs' ∧ w ∈ xs') ∧
      ∀ {t' ys'}, Grown r t' ys' → Grows e (us ++ [t']) (xs ++ ys') := by
  induction e generalizing ts ws with
  | seq a b _ ih =>
    obtain ⟨us, vs, xs, ys, rfl, rfl, ha, hb⟩ := h.seq_cases
    obtain ⟨us', t, xs', ys', rfl, rfl, ht, hfront, hnew⟩ := ih he hb
    refine ⟨us ++ us', t, xs ++ xs', ys', (List.append_assoc ..).symm, (List.append_assoc ..).symm,
      ht, fun w hw => ?_, fun ht' => ?_⟩
    · rcases List.mem_append.mp hw with hw | hw
      · exact ⟨a, List.mem_cons_self, us, xs, ha, hw⟩
      · obtain ⟨c, hc, hw⟩ := hfront w hw
        exact ⟨c, List.mem_cons_of_mem _ hc, hw⟩
    · rw [List.append_assoc, List.append_assoc]
      exact ha.seq (hnew ht')
  | call q =>
    obtain rfl := Peg.call.inj he
    obtain ⟨t, rfl, ht⟩ := h.call_cases
    exact ⟨[], t, [], ws, rfl, rfl, ht, by simp, fun ht' => .call ht'⟩
  | _ => cases he

end Peg.Grows

theorem Tree.Grown.nodes_eq {rs : List Rule} {ts : List Tree}
    {wss : List (List (List Char))}
    (h : List.Forall₂ (fun t vs => ∃ r ∈ rs, Grown r t vs) ts wss) : nodes ts = ts := by
  induction h with
  | nil => rfl
  | cons ht _ ih =>
    obtain ⟨r, -, ht⟩ := ht
    rw [nodes_cons_of_rule ht.is.rule, ih]

/-- A node whose body is a choice between nodes has one child, with the same tokens. -/
theorem Tree.Grown.exists_child {r : Rule} {t : Tree} {ws : List (List Char)} (h : Grown r t ws)
    (rs : List Rule) (hk : r.kind = .plain) (hr : r.body = oneOf (rs.map .call)) :
    ∃ q ∈ rs, ∃ c, t.children = [c] ∧ Grown q c ws := by
  obtain ⟨q, hq, c, hparts, hc⟩ := Grows.exists_of_oneOf (hr ▸ h.grows hk)
  refine ⟨q, hq, c, ?_, hc⟩
  rw [children, ← nodes_solid, hparts, nodes_cons_of_rule hc.is.rule, nodes_nil]

/-! ### Functions -/

/-- **A function is its header and its body**, and any other body can stand after the header, in
which there is no opening brace. -/
theorem FuncDecl.exists_header {f : FuncDecl} {ws : List (List Char)}
    (h : Drawn .funcDecl ofTree f ws) : ∃ us vs, ws = us ++ vs ∧ ['\x7b'] ∉ us ∧
      Drawn .block Stmt.ofBlock f.body vs ∧ ∀ {body : List Stmt} {vs' : List (List Char)},
        Drawn .block Stmt.ofBlock body vs' →
          Drawn .funcDecl ofTree { f with body := body } (us ++ vs') := by
  obtain ⟨t, ht, hf⟩ := h
  obtain ⟨ps, b, us, vs, hparts, rfl, hb, hfront, hnew⟩ :=
    Grows.exchange_last (r := .block) rfl (ht.grows rfl)
  obtain ⟨n, ty, l, p, b', hc, hn, hty, hl, hp, -, hname, hreturn, hlist, hnone, hparent, hbody⟩ :=
    FuncDecl.ofTree_ok hf
  have hchildren : nodes ps ++ [b] = n :: ty :: (l.toList ++ p.toList) ++ [b'] := by
    rw [children, ← nodes_solid, hparts, nodes_append, nodes_cons_of_rule hb.is.rule,
      nodes_nil] at hc
    rw [hc]
    simp
  obtain ⟨hps, hlast⟩ := List.append_inj' hchildren rfl
  obtain rfl := (List.cons.inj hlast).1
  have hparams : Param.listOf l = .ok f.params := by
    cases l with
    | none => rw [hnone rfl]; rfl
    | some l => exact hlist l rfl
  refine ⟨us, vs, rfl, fun hbrace => ?_, ⟨b, hb, hbody⟩, ?_⟩
  · have hwords : ∀ a ∈ Rule.funcDecl.body.front,
        (∀ r ∈ a.calls, Rule.isOfHeader r = true) ∧ ∀ w ∈ a.texts, w ≠ ['\x7b'] := by
      decide
    obtain ⟨a, ha, _, _, hgrows, hmem⟩ := hfront _ hbrace
    exact hgrows.forall_tokens Rule.speaks_header (hwords a ha).1 (hwords a ha).2 _ hmem rfl
  · rintro body vs' ⟨d, hd, hbody'⟩
    refine .node (hnew hd) rfl (by decide) ?_
    have hc' : (Tree.node .funcDecl 0 0 (ps ++ [d])).children =
        n :: ty :: (l.toList ++ (p.toList ++ [d])) := by
      rw [children, parts, nodes_append, nodes_cons_of_rule hd.is.rule, nodes_nil, hps]
      simp
    rw [FuncDecl.ofTree_eq hc' hn hty hl hp hd.is.rule, hreturn, hparams, hbody', ← hname,
      ← hparent]
    rfl

/-! ### Bodies of one statement -/

/-- Where every item gives something, all of them give a single result only if there is a single
item. -/
theorem eq_singleton_of_mapM {α β : Type} {f : α → Except Fault (List β)} {as : List α}
    {bss : List (List β)} {b : β} (h : as.mapM f = .ok bss)
    (hne : ∀ a ∈ as, ∀ bs, f a = .ok bs → bs ≠ []) (hb : bss.flatten = [b]) :
    ∃ a, as = [a] ∧ f a = .ok [b] := by
  obtain ⟨xs, ys, rfl, hxs, hys⟩ := List.flatten_eq_singleton_iff.mp hb
  have hresult : ∀ bs ∈ xs ++ [b] :: ys, bs ≠ [] := by
    intro bs hbs
    obtain ⟨a, ha, hf⟩ := exists_of_mem_mapM h hbs
    exact hne a ha bs hf
  have hnil : xs = [] ∧ ys = [] := by
    constructor
    · refine List.eq_nil_iff_forall_not_mem.mpr fun bs hbs => ?_
      exact hresult bs (List.mem_append_left _ hbs) (hxs bs hbs)
    · refine List.eq_nil_iff_forall_not_mem.mpr fun bs hbs => ?_
      exact hresult bs (List.mem_append_right _ (List.mem_cons_of_mem _ hbs)) (hys bs hbs)
  obtain ⟨rfl, rfl⟩ := hnil
  obtain ⟨a, as, ha, hnil, rfl⟩ := List.forall₂_cons_right_iff.mp (mapM_ok.mp h)
  obtain rfl := List.forall₂_nil_right_iff.mp hnil
  exact ⟨a, rfl, ha⟩

/-- What can be assigned to can be read. -/
theorem Target.drawnAt {x : Target} {ws : List (List Char)} (h : Drawn .lhs Target.ofTree x ws) :
    Expr.DrawnAt 0 x.toExpr ws := by
  obtain ⟨t, ht, hx⟩ := h
  obtain ⟨r, -, c, hchildren, hc⟩ := ht.exists_child [.arrayCell, .identifier] rfl rfl
  obtain ⟨p, hp, hcase⟩ := Target.ofTree_ok hx
  obtain rfl : p = c := (List.cons.inj (hp.symm.trans hchildren)).1
  rcases hcase with ⟨hrule, rfl⟩ | ⟨n, es, hrule, hes, rfl⟩
  · obtain rfl : r = .identifier := Option.some.inj (hc.is.rule.symm.trans hrule)
    exact (Expr.DrawnAt.name hc).loosen (Nat.zero_le 7) (Nat.le_refl 7)
  · obtain rfl : r = .arrayCell := Option.some.inj (hc.is.rule.symm.trans hrule)
    exact (Expr.DrawnAt.cell ⟨p, hc, hes⟩).loosen (Nat.zero_le 7) (Nat.le_refl 7)

namespace Stmt

/-- A block starts with a brace. -/
theorem brace_of_block {ss : List Stmt} {ws : List (List Char)}
    (h : Drawn .block ofBlock ss ws) : ∃ vs, ws = ['\x7b'] :: vs := by
  obtain ⟨t, ht, -⟩ := h
  obtain ⟨_, _, _, vs, -, rfl, hopen, -⟩ := (ht.grows rfl).seq_cases
  obtain ⟨-, rfl⟩ := hopen.text_eq
  exact ⟨vs, rfl⟩

theorem ofItem_ne_nil {i : Tree} {ss : List Stmt} (hi : Is .varDecl i ∨ Is .statement i)
    (h : ofItem i = .ok ss) : ss ≠ [] := by
  rcases hi with hi | hi
  · rw [ofItem, if_pos hi.rule] at h
    obtain ⟨vs, hvs, rfl⟩ := fmap_eq_ok.mp h
    rw [Ne, List.map_eq_nil_iff]
    exact VarDecl.ofGroup_ne_nil hi hvs
  · rw [ofItem, if_neg (by rw [hi.rule]; decide)] at h
    obtain ⟨s, -, rfl⟩ := fmap_eq_ok.mp h
    exact List.cons_ne_nil _ _

/-- A block of one statement has one item. -/
theorem exists_item {s : Stmt} {ws : List (List Char)} (h : Drawn .block ofBlock [s] ws) :
    ∃ i r vs, ws = ['\x7b'] :: (vs ++ [['\x7d']]) ∧ r ∈ [Rule.varDecl, .statement] ∧ Grown r i vs ∧
      ofItem i = .ok [s] := by
  obtain ⟨t, ht, hs⟩ := h
  obtain ⟨_, _, _, _, hparts, rfl, hopen, hrest⟩ := (ht.grows rfl).seq_cases
  obtain ⟨ts, _, vs, _, rfl, rfl, hitems, hclose⟩ := hrest.seq_cases
  obtain ⟨rfl, rfl⟩ := hopen.text_eq
  obtain ⟨rfl, rfl⟩ := hclose.text_eq
  obtain ⟨wss, rfl, hall⟩ := Grows.forall₂_of_star [.varDecl, .statement] hitems
  have hchildren : t.children = ts := by
    rw [children, ← nodes_solid, hparts, List.singleton_append, nodes_cons_token, nodes_append,
      Grown.nodes_eq hall, nodes_cons_token, nodes_nil, List.append_nil]
  obtain ⟨-, items, hmap, hflat⟩ := ofBlock_ok hs
  obtain ⟨i, hi, his⟩ := eq_singleton_of_mapM hmap
    (fun c hc bs hbs => ofItem_ne_nil (ht.is.block c hc) hbs) hflat.symm
  rw [hchildren] at hi
  subst hi
  obtain ⟨vs, _, ⟨r, hr, hgrown⟩, hnil, rfl⟩ := List.forall₂_cons_left_iff.mp hall
  obtain rfl := List.forall₂_nil_left_iff.mp hnil
  exact ⟨i, r, vs, by simp, hr, hgrown, his⟩

/-- A statement that is neither a declaration nor a block is made of a form of statement. -/
theorem exists_form {s : Stmt} {ws : List (List Char)} (h : Drawn .block ofBlock [s] ws)
    (hdeclare : ∀ v, s ≠ .declare v) (hblock : ∀ ss, s ≠ .block ss) :
    ∃ f r vs, ws = ['\x7b'] :: (vs ++ [['\x7d']]) ∧ Grown r f vs ∧ Made f [s] ∧
      ∀ q ∈ [Rule.statement, .block, .varDecl], f.rule? ≠ some q := by
  obtain ⟨i, q, vs, rfl, hq, hi, his⟩ := exists_item h
  have hstatement : Grown .statement i vs ∧ ofTree i = .ok s := by
    rcases List.mem_pair.mp hq with rfl | rfl
    · rw [ofItem, if_pos hi.is.rule] at his
      obtain ⟨ds, -, hds⟩ := fmap_eq_ok.mp his
      obtain ⟨v, -, hv⟩ := List.map_eq_singleton_iff.mp hds
      exact absurd hv.symm (hdeclare v)
    · rw [ofItem, if_neg (by rw [hi.is.rule]; decide)] at his
      obtain ⟨x, hx, hxs⟩ := fmap_eq_ok.mp his
      obtain rfl := (List.cons.inj hxs).1
      exact ⟨hi, hx⟩
  obtain ⟨hi, hs⟩ := hstatement
  obtain ⟨r, hr, f, hchildren, hf⟩ := hi.exists_child formRules rfl rfl
  have hne : r ≠ .block := by
    rintro rfl
    rw [ofTree_eq hchildren hf.is.rule hr] at hs
    obtain ⟨ss, -, rfl⟩ := fmap_eq_ok.mp hs
    exact hblock ss rfl
  refine ⟨f, r, vs, rfl, hf, ?_, ?_⟩
  · exact Recovered.form_step (fun u _ => recovered u) hchildren hf.is.rule hr hne hs
  · have hforms : ∀ r ∈ formRules, r ≠ .block →
        ∀ q ∈ [Rule.statement, .block, .varDecl], some r ≠ some q := by
      decide
    rw [hf.is.rule]
    exact hforms r hr hne

/-- The node before the semicolon with which a statement ends. -/
theorem exists_before_semicolon {r q : Rule} {f : Tree} {ws : List (List Char)} (h : Grown r f ws)
    (hk : r.kind = .plain) (hr : r.body = .seq (.call q) (.text [';'])) :
    ∃ c vs, f.children = [c] ∧ ws = vs ++ [[';']] ∧ Grown q c vs := by
  have hgrows := h.grows hk
  rw [hr] at hgrows
  obtain ⟨_, _, vs, _, hparts, rfl, hcall, hend⟩ := hgrows.seq_cases
  obtain ⟨c, rfl, hc⟩ := hcall.call_cases
  obtain ⟨rfl, rfl⟩ := hend.text_eq
  refine ⟨c, vs, ?_, rfl, hc⟩
  rw [children, ← nodes_solid, hparts, List.singleton_append, nodes_cons_of_rule hc.is.rule,
    nodes_cons_token, nodes_nil]

/-- The tokens of a body that is one call. -/
theorem tokens_of_call {n : String} {es : List Expr} {ws : List (List Char)}
    (h : Drawn .block ofBlock [.call n es] ws) : ∃ us,
      ws = ['\x7b'] :: (us ++ [[';'], ['\x7d']]) ∧ Drawn .funcCall Expr.ofCall (n, es) us := by
  obtain ⟨f, r, vs, rfl, hf, hmade, hother⟩ := exists_form h (by rintro _ ⟨⟩) (by rintro _ ⟨⟩)
  generalize hss : [Stmt.call n es] = ss at hmade
  cases hmade with
  | statement hfr | block hfr | group hfr => exact absurd hfr (hother _ (by decide))
  | @call _ c _ _ hfr hc _ hes =>
    obtain ⟨rfl, rfl⟩ := Stmt.call.inj (List.cons.inj hss).1
    obtain rfl : r = .callStmt := Option.some.inj (hf.is.rule.symm.trans hfr)
    obtain ⟨d, us, hd, rfl, hgrown⟩ := exists_before_semicolon (q := .funcCall) hf rfl rfl
    obtain rfl : c = d := (List.cons.inj (hc.symm.trans hd)).1
    exact ⟨us, by simp, c, hgrown, hes⟩
  | _ => cases hss

/-- The tokens of a body that is one assignment. -/
theorem tokens_of_assign {a : Assign} {ws : List (List Char)}
    (h : Drawn .block ofBlock [.assign a] ws) : ∃ us vs,
      ws = ['\x7b'] :: (us ++ ['='] :: (vs ++ [[';'], ['\x7d']])) ∧ ['='] ∉ us ∧ ['='] ∉ vs ∧
      Drawn .lhs Target.ofTree a.target us := by
  obtain ⟨f, r, ws, rfl, hf, hmade, hother⟩ := exists_form h (by rintro _ ⟨⟩) (by rintro _ ⟨⟩)
  generalize hss : [Stmt.assign a] = ss at hmade
  cases hmade with
  | statement hfr | block hfr | group hfr => exact absurd hfr (hother _ (by decide))
  | @assign _ c _ hfr hc _ hx =>
    obtain rfl := Stmt.assign.inj (List.cons.inj hss).1
    obtain rfl : r = .assignStmt := Option.some.inj (hf.is.rule.symm.trans hfr)
    obtain ⟨d, xs, hd, rfl, hgrown⟩ := exists_before_semicolon (q := .assign) hf rfl rfl
    obtain rfl : c = d := (List.cons.inj (hc.symm.trans hd)).1
    obtain ⟨l, e, hle, -, -, hl, -⟩ := Assign.ofTree_ok hx
    obtain ⟨_, _, us, _, hparts, rfl, htarget, hrest⟩ := (hgrown.grows rfl).seq_cases
    obtain ⟨_, _, _, vs, rfl, rfl, hsign, hvalue⟩ := hrest.seq_cases
    obtain ⟨l', rfl, hl'⟩ := htarget.call_cases
    obtain ⟨rfl, rfl⟩ := hsign.text_eq
    have hfirst : l = l' := by
      rw [children, ← nodes_solid, hparts, List.singleton_append,
        nodes_cons_of_rule hl'.is.rule] at hle
      exact (List.cons.inj hle).1.symm
    subst hfirst
    refine ⟨us, vs, by simp, fun hmem => ?_, fun hmem => ?_, l, hl', hl⟩
    · exact htarget.forall_tokens Rule.speaks_value (by decide) (by decide) _ hmem rfl
    · exact hvalue.forall_tokens Rule.speaks_value (by decide) (by decide) _ hmem rfl
  | _ => cases hss

/-- The body that assigns an expression to a name. -/
theorem drawn_assign {x : String} {e : Expr} {ws : List (List Char)}
    (hx : Token.isName x.toList = true) (he : Expr.DrawnAt 0 e ws) :
    Drawn .block ofBlock [.assign ⟨.id x, e⟩]
      (['\x7b'] :: x.toList :: ['='] :: (ws ++ [[';'], ['\x7d']])) := by
  obtain ⟨t, ht, hv, -⟩ :=
    Shown.assign (Assign.drawn_of (a := ⟨.id x, e⟩) (Target.drawn_id hx) he)
  have hitem : ofItem t = .ok [.assign ⟨.id x, e⟩] := by
    rw [ofItem, if_neg (by rw [ht.is.rule]; decide), hv]
    rfl
  obtain ⟨ts, hts, hblock⟩ := (ItemsShown.cons ht (.inr rfl) hitem .nil).block
  refine ⟨_, ?_, hblock⟩
  simpa using hts

end Stmt

/-! ### Scripts of one function -/

/-- The only declaration of a program of one function. -/
theorem Decl.drawn_of_singleton {ds : List Tree} {dss : List (List Decl)} {d : Decl}
    {ws : List (List Char)} (hds : Grows (plus (.call .declaration)) ds ws)
    (h : ds.mapM Decl.ofTree = .ok dss) (hd : dss.flatten = [d]) :
    Drawn .declaration Decl.ofTree [d] ws := by
  have his : ∀ t ∈ ds, Is .declaration t := by
    intro t ht
    have hrule := hds.fits.rule_of_plus t ht
    exact ⟨hrule, (hds.nodes t ht (isNode_of_rule hrule)).1⟩
  obtain ⟨t, rfl, ht⟩ :=
    eq_singleton_of_mapM h (fun t ht bs hbs => Decl.ofTree_ne_nil (his t ht) hbs) hd
  obtain ⟨_, us, vs, xs, hus, rfl, hcall, hstar⟩ := hds.seq_cases
  obtain ⟨t', rfl, ht'⟩ := hcall.call_cases
  obtain ⟨rfl, rfl⟩ := List.cons.inj hus
  have hxs : xs = [] := hstar.tokens.symm
  rw [hxs, List.append_nil]
  exact ⟨t, ht', ht⟩

/-- The function of a declaration. -/
theorem Decl.drawn_func_of {f : FuncDecl} {ws : List (List Char)}
    (h : Drawn .declaration Decl.ofTree [.func f] ws) : Drawn .funcDecl FuncDecl.ofTree f ws := by
  obtain ⟨t, ht, hf⟩ := h
  obtain ⟨r, -, c, hchildren, hc⟩ := ht.exists_child [.funcDecl, .varDecl] rfl rfl
  obtain ⟨d, hd, ⟨g, hr, hg, hfg⟩ | ⟨vs, -, -, hvs⟩⟩ := ofTree_ok hf
  · obtain rfl : c = d := (List.cons.inj (hchildren.symm.trans hd)).1
    obtain rfl : r = .funcDecl := Option.some.inj (hc.is.rule.symm.trans hr)
    obtain rfl := Decl.func.inj (List.cons.inj hfg).1
    exact ⟨c, hc, hg⟩
  · obtain ⟨v, -, hv⟩ := List.map_eq_singleton_iff.mp hvs.symm
    cases hv

/-- **A script of one function is a header and a body**: another text in which the tokens of the
header and of another body are laid out is a script of the function with that body. -/
theorem Script.exists_header {s : Script} {f : FuncDecl} (h : s.program = .ok ⟨[.func f]⟩) :
    ∃ t us vs, s.parse = .ok t ∧ t.tokens = us ++ vs ∧ ['\x7b'] ∉ us ∧
      Drawn .block Stmt.ofBlock f.body vs ∧
      ∀ {s' : Script} {body : List Stmt} {vs' : List (List Char)},
        Drawn .block Stmt.ofBlock body vs' → Lays (us ++ vs') s'.source [] →
          s'.program = .ok ⟨[.func { f with body := body }]⟩ := by
  obtain ⟨t, v, ht, hv, hp⟩ := exists_grown_of_program h
  obtain ⟨ds, dss, hds, hmap, hflat⟩ := decls_of_grown hv hp
  have hdecl := Decl.drawn_of_singleton hds hmap (Program.mk.inj hflat).symm
  obtain ⟨us, vs, hws, hbrace, hbody, hnew⟩ := FuncDecl.exists_header (Decl.drawn_func_of hdecl)
  refine ⟨t, us, vs, ht, hws, hbrace, hbody, fun hbody' hlays => ?_⟩
  obtain ⟨u, hu, hup⟩ := Program.drawn_decl (Decl.drawn_func (hnew hbody'))
  exact program_of_grown hu hlays hup

end Mt22
