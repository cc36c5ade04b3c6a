import Mt22.Proofs.Parsing.Predict
import Mt22.Proofs.Tree.Shapes

/-!
# Every conforming tree is read

A conforming tree in which every `else` belongs to the nearest `if` is read back from any text in
which its tokens are laid out (`Tree.Conforms.complete`), given that what follows does not prolong
it.  Most rules are decided by the next head.  The others are taken one by one:

* a number may be a float, and an operator may be the start of a longer one;
* a name starts an operand, a call, a cell, an assignment or a declaration, and the token after it
  tells which;
* an `else` after an `if` is taken, which is why it may not follow an open tree.
-/

namespace Mt22

open Mt22.Tree Mt22.Token Mt22.Trivia Mt22.Peg

/-! ### Nodes -/

theorem Rule.ne_strLit_of_plain {r : Rule} (h : r.kind = .plain) : r ≠ .strLit := by
  rintro rfl
  cases h

theorem Tree.Is.tokens_eq {r : Rule} {t : Tree} (h : Is r t) (hk : r.kind = .plain) :
    t.tokens = tokensAll (solid t.parts) := by
  cases t with
  | token | trivia => cases h.rule
  | node r' a b ps =>
    obtain rfl := Option.some.inj h.rule
    rw [tokens_node (Rule.ne_strLit_of_plain hk), tokensAll_solid]
    rfl

/-- The rules that leave a node with its text, and are no tokens, are choices between texts. -/
theorem Rule.texts_of_isTextual {r : Rule} (hk : r.kind = .plain) (h : r.isTextual = true) :
    r.body.isSingle = true ∧ ∃ ss, r.body.texts? = some ss := by
  have hall : ∀ r ∈ Rule.all, r.kind = .plain → r.isTextual = true →
      r.body.isSingle = true ∧ r.body.texts?.isSome = true := by
    decide
  obtain ⟨hsingle, htexts⟩ := hall r r.mem_all hk h
  exact ⟨hsingle, Option.isSome_iff_exists.mp htexts⟩

theorem Reads.call {r : Rule} {t : Tree} {s rest : List Char} (ht : Is r t) (hk : r.kind = .plain)
    (h : Reads r.body (solid t.parts) s rest) : Reads (.call r) [t] s rest := by
  intro o
  obtain ⟨us, o', s', he, hs, htok, hnod⟩ := h o
  have hcall := Ends.call_some (m := .normal) (r := r) (c := ⟨o, s⟩) (by rw [hk]; exact he)
  rw [Mode.leave_node rfl (.inl hk)] at hcall
  refine ⟨[.node r o o' us], o', s', hcall, hs, ?_, ?_⟩
  · rw [tokensAll_cons, tokensAll_cons, tokens_node (Rule.ne_strLit_of_plain hk), htok,
      ht.tokens_eq hk]
  · rw [nodes_cons_of_rule rfl, nodes_cons_of_rule ht.rule]
    refine .cons (.mk ht.rule.symm ?_ ?_) .nil
    · intro htextual
      obtain ⟨hsingle, ss, hss⟩ := Rule.texts_of_isTextual hk htextual
      obtain ⟨hf, -, hsolid⟩ := fits_of_matches he.matches rfl (Rule.isSyntax_body r (.inl hk))
      rw [hsolid (.inr hsingle)] at hf
      obtain ⟨v, -, rfl⟩ := hf.texts hss
      obtain ⟨w, -, hw⟩ := (ht.fits (by rw [hk]; decide)).1.texts hss
      rw [hw] at htok
      have hvw : v = w := by simpa using htok
      have htight : r.isTight = true := by rw [Rule.isTight, hsingle, Bool.or_true]
      rw [ht.tight htight] at hw
      cases t with
      | token | trivia => cases ht.rule
      | node r' a b ps =>
        obtain rfl : ps = [.token w] := hw
        rw [hvw]
        rfl
    · show List.Forall₂ Alike (nodes us) (nodes t.parts)
      rwa [nodes_solid] at hnod

/-- A token of a class. -/
theorem Reads.token {r : Rule} {w s s' rest : List Char} (hk : r.kind = .token) (a b : Nat)
    (h : Takes r.body s w s') (hs : after s' = after rest) :
    Reads (.call r) [.node r a b [.token w]] s rest := by
  intro o
  obtain ⟨ts, o', he, htext⟩ := h o
  have hcall := Ends.call_some (m := .normal) (r := r) (c := ⟨o, s⟩) (by rw [hk]; exact he)
  rw [Mode.leave_token rfl hk, htext] at hcall
  have hne : r ≠ .strLit := by
    rintro rfl
    cases hk
  refine ⟨_, o', s', hcall, hs, ?_, .cons (.mk rfl (fun _ => rfl) .nil) .nil⟩
  rw [tokensAll_cons, tokensAll_cons, tokens_node hne, tokens_node hne]

theorem reads_name {w s rest : List Char} (hw : isName w = true) (h : Lays [w] s rest) (a b : Nat) :
    Reads (.call .identifier) [.node .identifier a b [.token w]] (after s) rest := by
  obtain ⟨s', hs, hb, hrest⟩ := h
  have hstart : w.head?.any isWordStart = true := by
    cases w with
    | nil => cases hw
    | cons c cs =>
      rw [isName, Bool.and_eq_true, Bool.and_eq_true] at hw
      simpa using hw.1.1
  rw [hs]
  exact .token rfl a b (takes_name hw (hb hstart)) hrest

/-- What can follow an operand ends a number. -/
theorem stops_of_operandFollow {s : List Char} (h : headOf (after s) ∈ operandFollow) :
    Stops isNumberChar s := by
  have hall : ∀ x ∈ operandFollow, x.endsNumber = true := by decide
  exact stops_of_head (hall _ h)

theorem reads_integer {w s rest : List Char} (hw : isInteger w = true) (h : Lays [w] s rest)
    (hh : headOf (after rest) ∈ operandFollow) (a b : Nat) :
    Reads (.call .intLit) [.node .intLit a b [.token w]] (after s) rest := by
  obtain ⟨s', hs, -, hrest⟩ := h
  have hrest : after s' = after rest := hrest
  have hstop := stops_of_operandFollow (hrest ▸ hh)
  rw [hs]
  exact .token rfl a b (takes_integer hw (hstop.mono isDigitChar_isNumberChar)) hrest

theorem reads_float {w s rest : List Char} (hw : IsFloat w) (h : Lays [w] s rest)
    (hh : headOf (after rest) ∈ operandFollow) (a b : Nat) :
    Reads (.call .floatLit) [.node .floatLit a b [.token w]] (after s) rest := by
  obtain ⟨s', hs, -, hrest⟩ := h
  have hrest : after s' = after rest := hrest
  rw [hs]
  exact .token rfl a b (takes_float hw (stops_of_operandFollow (hrest ▸ hh))) hrest

/-- A string literal is read as a whole, whatever stands in it. -/
theorem reads_string {t : Tree} {s rest : List Char} (ht : Is .strLit t) (h : Lays t.tokens s rest) :
    Reads (.call .strLit) [t] (after s) rest := by
  obtain ⟨hf, hp⟩ := ht.fits (by decide)
  rw [ht.tight rfl] at hf
  cases t with
  | token | trivia => cases ht.rule
  | node r a b ps =>
    obtain rfl := Option.some.inj ht.rule
    obtain ⟨xs, ys, rfl, hx, hy⟩ := Fits.seq_iff.mp hf
    obtain ⟨zs, us, rfl, hz, hu⟩ := Fits.seq_iff.mp hy
    obtain rfl := Fits.text_iff.mp hx
    obtain rfl := Fits.text_iff.mp hu
    obtain ⟨v, rfl, hv⟩ := Fits.call_iff.mp hz
    have hbody : Is .strBody v := ⟨hv, hp v (by simp [parts]) (isNode_of_rule hv)⟩
    obtain ⟨i, j, w, rfl, hw⟩ := hbody.token rfl
    obtain ⟨s', hs, -, hrest⟩ := h
    have hs : after s = ['"'] ++ (w ++ '"' :: s') := by
      rw [hs]
      simp [Tree.text]
    rw [hs]
    intro o
    -- no trivia is allowed between the quotes and what they enclose
    have hquote : ∀ o r, Ends ⟨false, true, true⟩ (.text ['"']) ⟨o, ['"'] ++ r⟩
        (some ([.token ['"']], ⟨o + Text.byteSize ['"'], r⟩)) := fun o r => .text _ _
    obtain ⟨ts, o', he, htext⟩ := takes_stringBody hw s' (o + Text.byteSize ['"'])
    have hcall := Ends.call_some (m := ⟨false, true, true⟩) (r := .strBody) he
    have hleave : Mode.leave ⟨false, true, true⟩ .strBody ⟨o + Text.byteSize ['"'], w ++ '"' :: s'⟩
        ⟨o', '"' :: s'⟩ ts = [.node .strBody (o + Text.byteSize ['"']) o' [.token w]] := by
      rw [← htext]
      rfl
    rw [hleave] at hcall
    have hall := (hquote o _).seq_some (hcall.seq_some (hquote o' s'))
    refine ⟨_, _, s', Ends.call_some (m := .normal) (r := .strLit) hall, hrest, rfl, ?_⟩
    exact .cons (.mk rfl (fun h => by cases h) (.cons (.mk rfl (fun _ => rfl) .nil) .nil)) .nil

/-! ### What the token after a name tells -/

theorem Laid.is {r : Rule} {ts : List Tree} {s rest : List Char} (h : Laid ts s rest)
    (hf : (Peg.call r).Fits ts) : ∃ t, ts = [t] ∧ Is r t ∧ Lays t.tokens s rest := by
  obtain ⟨t, rfl, hr⟩ := Fits.call_iff.mp hf
  refine ⟨t, rfl, ⟨hr, (h.complete t (List.mem_singleton.mpr rfl) (isNode_of_rule hr)).conforms⟩, ?_⟩
  have := h.lays
  rwa [tokensAll_cons, tokensAll_nil, List.append_nil] at this

theorem refuses_text {w s : List Char} (h : ¬ w <+: s) : Refuses (.text w) s := by
  intro o
  have := Ends.text (m := .normal) w ⟨o, s⟩
  rwa [matchText, if_neg (by simpa using h)] at this

/-- A mark is refused where another head stands. -/
theorem refuses_mark {c : Char} {s : List Char} (hw : isWordStart c = false)
    (hd : c.isDigit = false) (h : headOf s ≠ .mark c) : Refuses (.text [c]) s := by
  refine refuses_text ?_
  rintro ⟨r, rfl⟩
  exact h (headOf_mark hw hd r)

/-- A rule that starts with a name and a mark is refused if another token follows the name. -/
theorem refuses_after_name {r : Rule} {c : Char} {e : Peg} {w : List Char} {ws : List (List Char)}
    {s rest : List Char} (hk : r.kind = .plain)
    (hr : r.body = .seq (.call .identifier) (.seq (.text [c]) e)) (hc : isWordStart c = false)
    (hd : c.isDigit = false) (hw : isName w = true) (h : Lays (w :: ws) s rest)
    (hnext : ∀ s', Lays ws s' rest → headOf (after s') ≠ .mark c) : Refuses (.call r) (after s) := by
  obtain ⟨s', hs, hbound, hl⟩ := h
  refine .call hk ?_
  rw [hr]
  have hname := reads_name hw ⟨s', hs, hbound, rfl⟩ 0 0
  exact hname.refuses_seq (refuses_mark hc hd (hnext s' hl)).seq

theorem Tree.Is.name_tokens {t : Tree} (h : Is .identifier t) :
    ∃ w, t.tokens = [w] ∧ isName w = true := by
  obtain ⟨a, b, w, rfl, hw⟩ := h.token rfl
  exact ⟨w, rfl, hw⟩

/-- The tokens of a node that starts with a name and a mark. -/
theorem Tree.Is.named_tokens {r : Rule} {t : Tree} {v : List Char} {e : Peg} (h : Is r t)
    (hk : r.kind = .plain) (hr : r.body = .seq (.call .identifier) (.seq (.text v) e)) :
    ∃ w ws, t.tokens = w :: v :: tokensAll ws ∧ isName w = true ∧ e.Fits ws ∧
      ∀ u ∈ ws, u.isNode = true → u.Conforms := by
  obtain ⟨hf, hc⟩ := h.fits (by rw [hk]; decide)
  rw [hr] at hf
  obtain ⟨xs, ys, hs, hx, hy⟩ := Fits.seq_iff.mp hf
  obtain ⟨zs, ws, rfl, hz, he⟩ := Fits.seq_iff.mp hy
  obtain rfl := Fits.text_iff.mp hz
  obtain ⟨u, rfl, hu⟩ := Fits.call_iff.mp hx
  have hmem : ∀ x ∈ solid t.parts, x.isNode = true → x.Conforms :=
    fun x hx => hc x (List.mem_filter.mp hx).1
  have hname : Is .identifier u := ⟨hu, hmem u (by simp [hs]) (isNode_of_rule hu)⟩
  obtain ⟨w, hw, hn⟩ := hname.name_tokens
  refine ⟨w, ws, ?_, hn, he, fun x hx => hmem x (by simp [hs, hx])⟩
  rw [h.tokens_eq hk, hs]
  simp [hw]

/-- The tokens of what can be assigned to: a name, and a bracket if it is a cell. -/
theorem Tree.Is.lhs_tokens {t : Tree} (h : Is .lhs t) :
    ∃ w ws, t.tokens = w :: ws ∧ isName w = true ∧ (ws = [] ∨ ∃ vs, ws = ['['] :: vs) := by
  obtain ⟨hf, hc⟩ := h.fits (by decide)
  have hmem : ∀ x ∈ solid t.parts, x.isNode = true → x.Conforms :=
    fun x hx => hc x (List.mem_filter.mp hx).1
  rw [h.tokens_eq rfl]
  rcases Fits.choice_iff.mp hf with hf | hf
  · obtain ⟨u, hs, hu⟩ := Fits.call_iff.mp hf
    have hcell : Is .arrayCell u := ⟨hu, hmem u (by simp [hs]) (isNode_of_rule hu)⟩
    obtain ⟨w, ws, hw, hn, -⟩ := hcell.named_tokens rfl rfl
    exact ⟨w, _, by simpa [hs] using hw, hn, .inr ⟨_, rfl⟩⟩
  · obtain ⟨u, hs, hu⟩ := Fits.call_iff.mp hf
    have hname : Is .identifier u := ⟨hu, hmem u (by simp [hs]) (isNode_of_rule hu)⟩
    obtain ⟨w, hw, hn⟩ := hname.name_tokens
    exact ⟨w, [], by simpa [hs] using hw, hn, .inl rfl⟩

/-- The first part of a node whose rule starts with a call. -/
theorem Tree.Is.first_part {r r' : Rule} {t : Tree} {e : Peg} (h : Is r t) (hk : r.kind = .plain)
    (hr : r.body = .seq (.call r') e) :
    ∃ u us, t.tokens = u.tokens ++ tokensAll us ∧ Is r' u ∧ e.Fits us ∧
      ∀ x ∈ us, x.isNode = true → x.Conforms := by
  obtain ⟨hf, hc⟩ := h.fits (by rw [hk]; decide)
  rw [hr] at hf
  obtain ⟨xs, us, hs, hx, he⟩ := Fits.seq_iff.mp hf
  obtain ⟨u, rfl, hu⟩ := Fits.call_iff.mp hx
  have hmem : ∀ x ∈ solid t.parts, x.isNode = true → x.Conforms :=
    fun x hx => hc x (List.mem_filter.mp hx).1
  refine ⟨u, us, ?_, ⟨hu, hmem u (by simp [hs]) (isNode_of_rule hu)⟩, he,
    fun x hx => hmem x (by simp [hs, hx])⟩
  rw [h.tokens_eq hk, hs, List.singleton_append, tokensAll_cons]

theorem Peg.Fits.single {e : Peg} {ts : List Tree} (h : e.Fits ts) (he : e.isSingle = true) :
    ∃ t, ts = [t] := by
  induction h with
  | text | call => exact ⟨_, rfl⟩
  | left _ ih => exact ih (Bool.and_eq_true_iff.mp he).1
  | right _ ih => exact ih (Bool.and_eq_true_iff.mp he).2
  | _ => cases he

/-- The tokens of a node that is one item are those of its child. -/
theorem Tree.Is.tokens_child {r : Rule} {t u : Tree} (h : Is r t) (hk : r.kind = .plain)
    (hr : r.body.isSingle = true) (hu : t.children = [u]) : t.tokens = u.tokens := by
  obtain ⟨x, hx⟩ := (h.fits (by rw [hk]; decide)).1.single hr
  have hmem : u ∈ nodes [x] := by
    rw [← hx, nodes_solid, ← children, hu]
    exact List.mem_singleton.mpr rfl
  have hux : u = x := List.mem_singleton.mp (List.mem_filter.mp hmem).1
  rw [h.tokens_eq hk, hx, hux, tokensAll_cons, tokensAll_nil, List.append_nil]

/-- The tokens of an assignment: a name, and a bracket or an equals sign. -/
theorem Tree.Is.assignStmt_tokens {t : Tree} (h : Is .assignStmt t) :
    ∃ w v ws, t.tokens = w :: v :: ws ∧ isName w = true ∧ (v = ['['] ∨ v = ['=']) := by
  obtain ⟨u, us, htok, hu, -⟩ := h.first_part rfl rfl
  obtain ⟨l, vs, htok', hl, hf, -⟩ := hu.first_part rfl rfl
  obtain ⟨xs, ys, rfl, hx, -⟩ := Fits.seq_iff.mp hf
  obtain rfl := Fits.text_iff.mp hx
  obtain ⟨w, ws, hw, hn, hws⟩ := hl.lhs_tokens
  rw [htok, htok', hw]
  rcases hws with rfl | ⟨vs, rfl⟩
  · exact ⟨w, _, _, rfl, hn, .inr rfl⟩
  · exact ⟨w, _, _, rfl, hn, .inl rfl⟩

/-- The tokens of a call statement: a name and a parenthesis. -/
theorem Tree.Is.callStmt_tokens {t : Tree} (h : Is .callStmt t) :
    ∃ w ws, t.tokens = w :: ['('] :: ws ∧ isName w = true := by
  obtain ⟨u, us, htok, hu, -⟩ := h.first_part rfl rfl
  obtain ⟨w, ws, hw, hn, -⟩ := hu.named_tokens rfl rfl
  rw [htok, hw]
  exact ⟨w, _, rfl, hn⟩

/-! ### Alternatives told apart -/

section

variable {F : List Head}

/-- A number that can be an integer is no float. -/
theorem apart_float_integer : Apart (.call .floatLit) (.call .intLit) operandFollow := by
  intro ts s rest hf hl hh o
  obtain ⟨t, rfl, ht, hlays⟩ := hl.is hf
  obtain ⟨a, b, w, rfl, hw⟩ := ht.token rfl
  obtain ⟨s', hs, -, hrest⟩ := hlays
  have hrest : after s' = after rest := hrest
  rw [hs]
  exact .call_none (lacks_float_of_integer hw (stops_of_operandFollow (hrest ▸ hh)) o)

/-- A name is refused by a rule which it starts, unless the mark that should come next follows. -/
theorem apart_name {r : Rule} {c : Char} {e : Peg} (hk : r.kind = .plain)
    (hr : r.body = .seq (.call .identifier) (.seq (.text [c]) e)) (hc : isWordStart c = false)
    (hd : c.isDigit = false) (hF : .mark c ∉ F) : Apart (.call r) (.call .identifier) F := by
  intro ts s rest hf hl hh
  obtain ⟨t, rfl, ht, hlays⟩ := hl.is hf
  obtain ⟨w, hw, hn⟩ := ht.name_tokens
  rw [hw] at hlays
  refine refuses_after_name hk hr hc hd hn hlays ?_
  intro s' hs' heq
  have hs' : after s' = after rest := hs'
  rw [hs'] at heq
  exact hF (heq ▸ hh)

theorem apart_cell_call : Apart (.call .arrayCell) (.call .funcCall) F := by
  intro ts s rest hf hl _
  obtain ⟨t, rfl, ht, hlays⟩ := hl.is hf
  obtain ⟨w, ws, hw, hn, -⟩ := ht.named_tokens rfl rfl
  rw [hw] at hlays
  refine refuses_after_name rfl rfl rfl rfl hn hlays ?_
  intro s' hs'
  rw [Lays.headOf_cons rfl hs']
  decide

theorem apart_call_assign : Apart (.call .callStmt) (.call .assignStmt) F := by
  intro ts s rest hf hl _
  obtain ⟨t, rfl, ht, hlays⟩ := hl.is hf
  obtain ⟨w, v, ws, hw, hn, hv⟩ := ht.assignStmt_tokens
  rw [hw] at hlays
  refine .call rfl (.seq ?_)
  refine refuses_after_name rfl rfl rfl rfl hn hlays ?_
  intro s' hs'
  rcases hv with rfl | rfl
  · rw [Lays.headOf_cons rfl hs']; decide
  · rw [Lays.headOf_cons rfl hs']; decide

/-- A list of names is one name only, if no comma follows it. -/
theorem reads_nameList {w s s' : List Char} (hw : isName w = true) (hs : after s = w ++ s')
    (hb : Bounded w s') (hcomma : headOf (after s') ≠ .mark ',') :
    ∃ t, Reads (.call .nameList) [t] (after s) s' := by
  have hname := reads_name hw (show Lays [w] s s' from ⟨s', hs, hb, rfl⟩) 0 0
  have hnone : Refuses (.seq "," (.call .identifier)) (after s') := (refuses_mark rfl rfl hcomma).seq
  have hlist := hname.seq (.star_nil hnone rfl)
  let t : Tree := .node .nameList 0 0 [.node .identifier 0 0 [.token w]]
  refine ⟨t, Reads.call (t := t) ⟨rfl, .node (.inl rfl) (fun h => by cases h) ?_ ?_⟩ rfl hlist⟩
  · exact .seq (.call rfl) .nil
  · intro u hu _
    obtain rfl := List.mem_singleton.mp hu
    exact .token hw

/-- A variable declaration is refused where a name is not followed by a comma or a colon. -/
theorem refuses_varDecl {w v : List Char} {ws : List (List Char)} {s rest : List Char}
    (hw : isName w = true) (hv : isLexeme v = true) (hcomma : headOf v ≠ .mark ',')
    (hcolon : headOf v ≠ .mark ':') (h : Lays (w :: v :: ws) s rest) :
    Refuses (.call .varDecl) (after s) := by
  obtain ⟨s', hs, hb, hl⟩ := h
  have hhead := hl.headOf_cons hv
  obtain ⟨t, ht⟩ := reads_nameList hw hs hb (by rwa [hhead])
  exact .call rfl (ht.refuses_seq (refuses_mark rfl rfl (by rwa [hhead])).seq)

/-- A statement that starts with a name goes on with neither a comma nor a colon. -/
theorem apart_varDecl_statement : Apart (.call .varDecl) (.call .statement) F := by
  intro ts s rest hf hl _
  obtain ⟨t, rfl, ht, hlays⟩ := hl.is hf
  obtain ⟨r, hr, u, hu, hut⟩ := ht.shape_one [.ifStmt, .forStmt, .whileStmt, .doWhileStmt,
    .breakStmt, .continueStmt, .returnStmt, .block, .callStmt, .assignStmt] (by decide) rfl rfl
  rw [ht.tokens_child rfl rfl hu] at hlays
  have hcases : (Peg.call .varDecl).isHeaded = true ∧
      ∀ r ∈ [Rule.ifStmt, .forStmt, .whileStmt, .doWhileStmt, .breakStmt, .continueStmt,
      .returnStmt, .block, .callStmt, .assignStmt], (Peg.call r).isMarked = true ∧
      (r = .callStmt ∨ r = .assignStmt ∨ ∀ x ∈ r.first, x ∉ Peg.first (.call .varDecl)) := by
    decide
  obtain ⟨hheaded, hcases⟩ := hcases
  obtain ⟨hmark, rfl | rfl | hfirst⟩ := hcases r hr
  · obtain ⟨w, ws, hw, hn⟩ := hut.callStmt_tokens
    rw [hw] at hlays
    exact refuses_varDecl hn rfl (by decide) (by decide) hlays
  · obtain ⟨w, v, ws, hw, hn, hv⟩ := hut.assignStmt_tokens
    rw [hw] at hlays
    rcases hv with rfl | rfl
    · exact refuses_varDecl hn rfl (by decide) (by decide) hlays
    · exact refuses_varDecl hn rfl (by decide) (by decide) hlays
  · obtain ⟨w, hw, hh⟩ := hut.conforms.first_token hut.rule hmark
    obtain ⟨ws, htok⟩ := hw.tokens
    rw [tokensAll_cons, tokensAll_nil, List.append_nil] at htok
    rw [htok] at hlays
    refine refuses_of_head hheaded (piece?_after s) ?_
    rw [hlays.headOf_cons hw.lexeme]
    exact hfirst _ hh

/-- A function declaration has one name, and the word `function` after the colon. -/
theorem apart_funcDecl_varDecl : Apart (.call .funcDecl) (.call .varDecl) F := by
  intro ts s rest hf hl _
  obtain ⟨t, rfl, ht, hlays⟩ := hl.is hf
  obtain ⟨l, us, htok, hl', hus, hcus⟩ := ht.first_part rfl rfl
  obtain ⟨i, vs, htok', hi, hvs, -⟩ := hl'.first_part rfl rfl
  obtain ⟨w, hw, hn⟩ := hi.name_tokens
  rw [htok, htok', hw, List.append_assoc] at hlays
  cases hvs with
  | nil =>
    -- one name: the type after the colon is no `function`
    obtain ⟨xs, ys, rfl, hx, hy⟩ := Fits.seq_iff.mp hus
    obtain rfl := Fits.text_iff.mp hx
    obtain ⟨zs, ws, rfl, hz, -⟩ := Fits.seq_iff.mp hy
    obtain ⟨v, rfl, hv⟩ := Fits.call_iff.mp hz
    have hconf : v.Conforms := hcus v (by simp) (isNode_of_rule hv)
    obtain ⟨x, hx, hh⟩ := hconf.first_token hv rfl
    obtain ⟨xs, hxs⟩ := (hx.append ws).tokens
    obtain ⟨s1, hs1, hb1, hl1⟩ := hlays
    simp only [tokensAll_nil, List.nil_append, List.singleton_append] at hl1 hxs
    rw [tokensAll_cons, hxs] at hl1
    obtain ⟨s2, hs2, hb2, hl2⟩ := hl1
    have hname := reads_name hn (show Lays [w] s s1 from ⟨s1, hs1, hb1, rfl⟩) 0 0
    have hcolon : Reads (.text [':']) [.token [':']] (after s1) s2 := .text ⟨s2, hs2, hb2, rfl⟩
    refine .call rfl (hname.refuses_seq (hcolon.refuses_seq (.seq ?_)))
    have hfunction : (word "function").isHeaded = true ∧
        ∀ x ∈ Rule.varType.first, x ∉ (word "function").first := by
      decide
    refine refuses_of_head hfunction.1 (piece?_after s2) ?_
    rw [hl2.headOf_cons hx.lexeme]
    exact hfunction.2 _ hh
  | cons hx _ =>
    obtain ⟨xs, ys, rfl, hx, -⟩ := Fits.seq_iff.mp hx
    obtain rfl := Fits.text_iff.mp hx
    refine refuses_after_name rfl rfl rfl rfl hn hlays ?_
    intro s' hs'
    rw [List.append_assoc, List.singleton_append, tokensAll_cons] at hs'
    rw [Lays.headOf_cons rfl hs']
    decide

end

/-- The rules that start alike are told apart. -/
theorem Rule.apart {r r' : Rule} (h : r.toldApart r' = true) :
    Apart (.call r) (.call r') r.follow := by
  have h := of_decide_eq_true h
  simp only [List.mem_cons, Prod.mk.injEq, List.not_mem_nil, or_false] at h
  rcases h with ⟨rfl, rfl⟩ | ⟨rfl, rfl⟩ | ⟨rfl, rfl⟩ | ⟨rfl, rfl⟩ | ⟨rfl, rfl⟩ | ⟨rfl, rfl⟩ | ⟨rfl, rfl⟩
  · exact apart_float_integer
  · exact apart_cell_call
  · exact apart_name rfl rfl rfl rfl (by decide)
  · exact apart_name rfl rfl rfl rfl (by decide)
  · exact apart_call_assign
  · exact apart_varDecl_statement
  · exact apart_funcDecl_varDecl

/-! ### Operators that start others -/

/-- One of some texts is read, if none before it could be. -/
theorem reads_texts {w s s' rest : List Char} (hs : after s = w ++ s') (hb : Bounded w s')
    (hrest : after s' = after rest) : ∀ {ws : List (List Char)}, w ∈ ws →
    (∀ v ∈ ws.takeWhile (· ≠ w), ¬ v <+: w ++ s') →
    Reads (oneOf (ws.map .text)) [.token w] (after s) rest
  | [v], hw, _ => by
    obtain rfl := List.mem_singleton.mp hw
    exact .text ⟨s', hs, hb, hrest⟩
  | v :: u :: ws, hw, h => by
    by_cases hv : v = w
    · subst hv
      exact (Reads.text ⟨s', hs, hb, hrest⟩).left
    · have hmem := (List.mem_cons.mp hw).resolve_left (Ne.symm hv)
      rw [List.takeWhile_cons_of_pos (by simpa using hv)] at h
      have ih := reads_texts hs hb hrest hmem fun x hx => h x (List.mem_cons_of_mem _ hx)
      refine .right (refuses_text ?_) ih
      rw [hs]
      exact h v List.mem_cons_self

theorem predicts_relOp : Predicts Rule.relOp.body Rule.relOp.follow := by
  intro ts s rest hf hl hh
  have htexts : Rule.relOp.body.texts? = some (["==", "!=", "<=", ">=", "<", ">"].map String.toList) :=
    rfl
  obtain ⟨w, hw, rfl⟩ := hf.texts htexts
  obtain ⟨s', hs, hb, hrest⟩ := hl.lays
  have hrest : after s' = after rest := hrest
  -- no operand starts with an equals sign
  have hequals : ¬ ['='] <+: s' := by
    rintro ⟨r, rfl⟩
    have hnone : piece? (['='] ++ r) = none := piece?_cons_eq_none rfl (by decide) r
    rw [← hrest, after_of_piece?_none hnone, List.singleton_append, headOf_mark rfl rfl] at hh
    revert hh
    decide
  refine reads_texts hs hb hrest hw ?_
  simp only [List.map_cons, List.map_nil, List.mem_cons, List.not_mem_nil, or_false] at hw
  rcases hw with rfl | rfl | rfl | rfl | rfl | rfl <;> simp [List.takeWhile, hequals]

/-! ### The dangling else -/

/-- What the end of a sequence reads, another end reads as well. -/
theorem Peg.Ends.seq_congr {m : Mode} {a b b' : Peg} {c : Cursor} {x : Match}
    (h : Ends m (.seq a b) c (some x))
    (hb : ∀ {c x}, Ends m b c (some x) → Ends m b' c (some x)) : Ends m (.seq a b') c (some x) := by
  obtain ⟨ts, c'⟩ := x
  cases h.matches with
  | seq ha hb' => exact .seq_some ha.ends (hb hb'.ends)

/-- An `if` statement with an `else`. -/
def ifElse : Peg :=
  items [word "if", "(", .call .expression, ")", .call .statement, word "else", .call .statement]

/-- An `if` statement is read with its `else`, or without one if no `else` follows. -/
theorem reads_ifStmt {ts : List Tree} {s rest : List Char} (hf : Rule.ifStmt.body.Fits ts)
    (hl : Laid ts s rest) (hh : headOf (after rest) ∈ statementFollow)
    (helse : hasElse ts = false → headOf (after rest) ≠ .ofElse) :
    Reads Rule.ifStmt.body ts (after s) rest := by
  obtain ⟨e, a, he, ha, rfl | ⟨b, hb, rfl⟩⟩ := ifStmt_cases hf
  · have hwithout : Predicts Rule.ifStmt.body (statementFollow.filter (· ≠ .ofElse)) :=
      predicts_of_isDecided Rule.apart (by decide)
    refine hwithout _ s rest hf hl ?_
    have hnone := hasElse_ifParts (isNode_of_rule he) (isNode_of_rule ha)
    exact List.mem_filter.mpr ⟨hh, by simpa using helse hnone⟩
  · have hf' : ifElse.Fits (ifParts e a ++ [elseToken, b]) :=
      .item (Fits.word_iff.mpr rfl) (.item (.text _) (.item (.call he) (.item (.text _)
        (.item (.call ha) (.item (Fits.word_iff.mpr rfl) (.call hb))))))
    have hwith : Predicts ifElse statementFollow := predicts_of_isDecided Rule.apart (by decide)
    intro o
    obtain ⟨us, o', s', hends, h⟩ := hwith _ s rest hf' hl hh o
    exact ⟨us, o', s', hends.seq_congr fun h => h.seq_congr fun h => h.seq_congr fun h =>
      h.seq_congr fun h => h.seq_congr fun h => h.opt, h⟩

/-! ### All rules -/

/-- Every rule but `if` reads what fits it. -/
theorem Rule.predicts {r : Rule} (hk : r.kind = .plain) (hr : r ≠ .ifStmt) :
    Predicts r.body r.follow := by
  have hall : ∀ r ∈ Rule.all, r.kind = .plain → r.follow = [] ∨ r = .relOp ∨ r = .ifStmt ∨
      r.body.isDecided r.follow = true := by
    decide +kernel
  rcases hall r r.mem_all hk with hnil | rfl | rfl | hdec
  · intro ts s rest _ _ hh
    rw [hnil] at hh
    cases hh
  · exact predicts_relOp
  · exact absurd rfl hr
  · exact predicts_of_isDecided Rule.apart hdec

theorem reads_of_allows {r : Rule} {w s rest : List Char} (hw : r.Allows w) (a b : Nat)
    (h : Lays [w] s rest) (hh : headOf (after rest) ∈ r.follow) :
    Reads (.call r) [.node r a b [.token w]] (after s) rest := by
  cases r with
  | identifier => exact reads_name hw h a b
  | intLit => exact reads_integer hw h hh a b
  | floatLit => exact reads_float hw h hh a b
  | strBody => cases hh
  | _ => exact False.elim hw

/-- **A conforming tree in which every `else` belongs to the nearest `if` is read** from every text
in which its tokens are laid out. -/
theorem Tree.Conforms.complete {t : Tree} (h : t.Conforms) (hn : t.Nearest) : t.Complete := by
  induction h with
  | @token r a b w hw =>
    refine ⟨.token hw, ?_⟩
    intro r' s rest hr hl hh _
    obtain rfl := Option.some.inj hr
    have hne : r ≠ .strLit := by
      rintro rfl
      exact hw
    rw [tokens_node hne] at hl
    exact reads_of_allows hw a b hl hh
  | @node r a b ps kind tight fits parts ih =>
    have hc : (Tree.node r a b ps).Conforms := .node kind tight fits parts
    refine ⟨hc, ?_⟩
    intro r' s rest hr hl hh hclosed
    obtain rfl := Option.some.inj hr
    rcases kind with hk | hk
    · obtain ⟨hstray, hnear⟩ := hn
      have hlaid : Laid (solid ps) s rest := by
        refine ⟨?_, ?_, hstray, ?_⟩
        · rw [tokensAll_solid, ← tokens_node (Rule.ne_strLit_of_plain hk) a b]
          exact hl
        · intro hopen
          rw [openAll_solid] at hopen
          exact hclosed (by rw [isOpen, hopen, Bool.or_true])
        · intro t ht hnode
          have ht := (List.mem_filter.mp ht).1
          exact ih t ht hnode (hnear t ht hnode)
      refine Reads.call (.of_conforms hc) hk ?_
      by_cases hif : r = .ifStmt
      · subst hif
        refine reads_ifStmt fits hlaid hh ?_
        intro hnone
        have hnone : hasElse ps = false := (hasElse_solid ps).symm.trans hnone
        exact hclosed (by rw [isOpen, hnone]; rfl)
      · exact Rule.predicts hk hif (solid ps) s rest fits hlaid hh
    · obtain rfl := Rule.eq_strLit_of_compound hk
      exact reads_string (.of_conforms hc) hl

end Mt22
