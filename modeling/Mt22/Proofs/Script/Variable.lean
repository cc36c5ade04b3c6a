import Mt22.Proofs.Parsing.Consume
import Mt22.Proofs.Parsing.Operand
import Mt22.Proofs.Program.DrawProgram
import Mt22.Proofs.Script.Lexical
import Mt22.Proofs.Script.Spacing

/-!
# Scripts of one variable

A script in which the tokens of a declaration of variables are laid out gives what the declaration
gives (`Script.program_of_variable`, `Script.fault_of_variable`).

* Between quotes stands what a string is, as it is written (`Script.program_of_string_iff`).
* A variable can have every name but a keyword, and a keyword is told from the start of a longer word
  (`Script.program_of_name_iff`).
-/

namespace Mt22

open Mt22.Tree Mt22.Token Mt22.Trivia Mt22.Peg

namespace Script

variable {s : Script} {t : Tree} {ws : List (List Char)}

theorem outcome_of_variable (ht : Grown .varDecl t ws) (hl : Lays ws s.source []) :
    ∃ u, s.parse = .ok u ∧
      Agree Eq (Program.ofTree u) ((fun vs => ⟨vs.map .var⟩) <$> VarDecl.ofGroup t) := by
  obtain ⟨p, hp, hpv⟩ := Program.grown_variables ht
  obtain ⟨u, hu, -, halike⟩ := parse_of_lays hp.is hp.nearest (hp.tokens ▸ hl)
  exact ⟨u, hu, hpv ▸ Program.ofTree_alike halike⟩

/-- A script of variables has the program of these variables. -/
theorem program_of_variable {vs : List VarDecl} (ht : Grown .varDecl t ws)
    (hl : Lays ws s.source []) (hv : VarDecl.ofGroup t = .ok vs) :
    s.program = .ok ⟨vs.map .var⟩ := by
  obtain ⟨u, hu, hagree⟩ := outcome_of_variable ht hl
  rw [program_of_parse hu, lower, hagree.eq_ok (by rw [hv]; rfl)]
  rfl

/-- A fault of the variables is one of their script. -/
theorem fault_of_variable {f : Fault} (ht : Grown .varDecl t ws) (hl : Lays ws s.source [])
    (hf : VarDecl.ofGroup t = .error f) : ∃ g, s.program = .error (.faulty g) ∧ g.Same f := by
  obtain ⟨u, hu, hagree⟩ := outcome_of_variable ht hl
  rw [program_of_parse hu, lower]
  rw [hf] at hagree
  cases hp : Program.ofTree u with
  | ok p => rw [hp] at hagree; cases hagree
  | error g =>
    rw [hp] at hagree
    cases hagree with
    | error h => exact ⟨g, rfl, h⟩

/-- The script of a variable with a value. -/
theorem program_of_value {name : String} {ty : Ty} {e : Expr} {us : List (List Char)}
    (hname : isName name.toList = true) (hty : Drawn .varType Ty.ofVarType ty us)
    (he : Expr.DrawnAt 7 e ws)
    (hl : Lays (name.toList :: ":".toList :: (us ++ "=".toList :: (ws ++ [";".toList]))) s.source []) :
    s.program = .ok ⟨[.var ⟨name, ty, some e⟩]⟩ := by
  obtain ⟨u, hu, hv⟩ := he.loosen (Nat.zero_le 7) (Nat.le_refl 7)
  have hv : Expr.ofTree u = .ok e := hv
  obtain ⟨t, ht, htv⟩ := VarDecl.grown hname hty hu
  exact program_of_variable ht hl (by rw [htv, hv]; rfl)

/-! ### Variables that are refused -/

/-- A variable with a type and a value is refused where the value is followed by neither a comma nor
a semicolon. -/
theorem refuses_value {y : Tree} {us : List (List Char)} {m m' rest : List Char}
    (hy : Grown .varType y us) (hl : Lays (us ++ ["=".toList]) m m')
    (he : Rule.expression.Consumes (after m') rest) (hcomma : headOf (after rest) ≠ .mark ',')
    (hsemicolon : headOf (after rest) ≠ .mark ';') :
    Refuses (items [.call .varType, .opt (.call .initializers), ";"]) (after m) := by
  obtain ⟨mid, hus, hequals⟩ := lays_append.mp hl
  have hhead : headOf (after mid) ∈ Rule.varType.follow := by
    rw [hequals.headOf_cons (by decide)]
    decide
  obtain ⟨_, _, -, htype⟩ := hy.consumes hus hhead (by decide)
  obtain ⟨u, vs, hu, hvalue⟩ := he
  have hlist : Grows (.star (.seq (.text ",".toList) (.call .expression))) [] [] := .nil
  have hinit : Rule.initializers.Consumes (after mid) rest :=
    .of_body rfl (by decide) ((Grows.text "=".toList).item ((Grows.call hu).item hlist))
      ((Reads.text hequals).seq (hvalue.seq (.star_nil (refuses_mark rfl rfl hcomma).seq rfl)))
  obtain ⟨_, _, -, hinit⟩ := hinit
  exact htype.refuses_seq (hinit.within.refuses_seq (refuses_mark rfl rfl hsemicolon))

/-- No declaration is read where a name and a colon are followed by neither the rest of a variable
nor a function. -/
theorem refuses_variable {w s m : List Char} (hw : isName w = true) (hl : Lays [w, ":".toList] s m)
    (hhead : headOf (after m) ≠ .ofWord "function")
    (h : Refuses (items [.call .varType, .opt (.call .initializers), ";"]) (after m)) :
    Refuses (.call .declaration) (after s) := by
  obtain ⟨s', hs, hb, hcolon⟩ := hl
  have hread := Reads.text hcolon
  have hfunc : Refuses (.call .funcDecl) (after s) := by
    refine .call rfl ((reads_name hw ⟨s', hs, hb, rfl⟩ 0 0).refuses_seq (hread.refuses_seq (.seq ?_)))
    refine refuses_of_head rfl (piece?_after m) fun hx => hhead (List.mem_singleton.mp hx)
  have hcomma : headOf (after s') ≠ .mark ',' := by
    rw [hcolon.headOf_cons (by decide)]
    decide
  obtain ⟨n, hnames⟩ := reads_nameList hw hs hb hcomma
  exact .call rfl (.choice hfunc (.call rfl (hnames.refuses_seq (hread.refuses_seq h))))

/-- A script that no declaration starts is not accepted. -/
theorem not_accepted_of_refuses (h : Refuses (.call .declaration) (after s.source)) :
    ¬ ∃ t, s.parse = .ok t := by
  rintro ⟨t, ht⟩
  obtain ⟨ds, c, o, hreads, -⟩ := readings_of_parse ht
  have hnone : Ends .normal (plus (.call .declaration)) (Mode.normal.skip (.ofText s.source)).2 none :=
    h.seq _
  exact absurd (hnone.unique hreads.ends) (by simp)

/-! ### Strings -/

theorem isName_x : isName "x".toList = true := by decide

/-- **String literals are verbatim.**  A text between quotes is the value of a variable, as it is
written, exactly if it is a concatenation of escapes and characters that stand for themselves. -/
theorem program_of_string_iff (name w : String) :
    (ofSource name ("x: auto = \"" ++ w ++ "\";")).program =
        .ok ⟨[.var ⟨"x", .auto, some (.str w)⟩]⟩ ↔
      ∃ units : List (List Char), w.toList = units.flatten ∧ ∀ u ∈ units, IsUnit u := by
  rw [← isStringBody_iff]
  constructor
  · intro h
    exact exprs_lexical h (.str w) (by simp [Program.exprs, Decl.exprs, Expr.subexprs])
  · intro h
    refine program_of_value isName_x Ty.drawn_auto (.literal (Expr.drawn_str h)) ?_
    have hsource : (ofSource name ("x: auto = \"" ++ w ++ "\";")).source =
        "x: auto = ".toList ++ (('"' :: (w.toList ++ ['"'])) ++ [';']) := by
      simp [source, ofSource]
    rw [hsource]
    exact lays_around ["x".toList, ":".toList, "auto".toList, "=".toList] (by decide)
      (by decide) rfl (by simp) (fun h => by cases h)

/-- Escapes are kept as they are written, and what looks like a comment is none.  Another letter
after a backslash is refused. -/
theorem program_of_string_iff_escapes :
    (ofSource "a" ("x: auto = \"" ++ "\\\\ \\\" /* it's" ++ "\";")).program =
        .ok ⟨[.var ⟨"x", .auto, some (.str "\\\\ \\\" /* it's")⟩]⟩ ∧
      (ofSource "a" ("x: auto = \"" ++ "\\q" ++ "\";")).program ≠
        .ok ⟨[.var ⟨"x", .auto, some (.str "\\q")⟩]⟩ := by
  refine ⟨(program_of_string_iff "a" _).mpr (isStringBody_iff.mp (by decide)), fun h => ?_⟩
  have hbody := isStringBody_iff.mpr ((program_of_string_iff "a" _).mp h)
  exact absurd hbody (by decide)

end Script

/-! ### Names and keywords -/

namespace Token

/-- A name is a word that is no keyword. -/
theorem isName_iff {w : String} : isName w.toList = true ↔
    (∃ c cs, w.toList = c :: cs ∧ isWordStart c = true ∧ cs.all isWordChar = true) ∧
      w ∉ keywords := by
  have hreserved : w.toList ∈ reserved ↔ w ∈ keywords :=
    List.mem_map_of_injective fun _ _ => String.toList_injective
  rw [← hreserved]
  cases hw : w.toList with
  | nil => simp [isName]
  | cons c cs => simp [isName, and_assoc]

end Token

namespace Peg

/-- **A keyword is matched as a whole word**, however it is read. -/
theorem ends_word_iff {k : String} (hk : k ∈ keywords) {m : Mode} {c : Cursor} :
    (∃ x, Ends m (word k) c (some x)) ↔
      ∃ rest, c.rest = k.toList ++ rest ∧ Stops isWordChar rest := by
  have hmem : k.toList ∈ reserved := List.mem_map_of_mem hk
  have hall := (reserved_isWord _ hmem).2.1
  -- the lookahead succeeds at a word only, before which there is no trivia
  have hskip : ∀ {ts : List Tree} {c' : Cursor}, Matches m (.ahead (.call .keyword)) c ts c' →
      (m.skip c).2.rest = c.rest :=
    fun h => Mode.rest_skip_of_piece?_none (piece?_of_ahead h)
  constructor
  · rintro ⟨⟨ts, c'⟩, hends⟩
    cases hends.matches with
    | seq ha hb =>
      obtain ⟨-, -, -, hrest⟩ := matches_word ha hb
      rw [hskip ha] at hrest
      have hlead : k.toList = lead c.rest :=
        reserved_prefixFree _ hmem _ (lead_of_ahead ha) (prefix_lead hall ⟨_, hrest.symm⟩)
      refine ⟨c.rest.dropWhile isWordChar, ?_, stops_dropWhile _ _⟩
      rw [hlead]
      exact (List.takeWhile_append_dropWhile ..).symm
  · rintro ⟨rest, hrest, hstop⟩
    obtain ⟨ts, o, hkeyword, -⟩ := takes_keyword hmem hstop c.offset
    rw [← hrest] at hkeyword
    have hahead : Ends m (.ahead (.call .keyword)) c (some ([], c)) :=
      (Ends.call_some (m := m.ahead) (r := .keyword) hkeyword).ahead
    have htext : Matches m (.text k.toList) (m.skip c).2 _ _ :=
      .text (by rw [hskip hahead.matches, hrest])
    exact ⟨_, Ends.seq_some hahead htext.ends⟩

end Peg

/-- A rule matches at the start of a text exactly if its body does. -/
theorem Rule.read_isOk_iff (r : Rule) (u : List Char) : (∃ ts, r.read u = .ok ts) ↔
    ∃ x, Ends (Mode.normal.enter r.kind) r.body (.ofText u) (some x) := by
  constructor
  · rintro ⟨ts, hts⟩
    obtain ⟨c, hreads⟩ := Rule.read_eq_ok_iff.mp hts
    cases hreads with
    | call hb => exact ⟨_, hb.ends⟩
  · rintro ⟨⟨parts, c⟩, h⟩
    exact ⟨_, Rule.read_eq_ok_iff.mpr ⟨c, .call h.matches⟩⟩

/-- Every keyword has a rule of its own. -/
theorem Rule.exists_word : ∀ k ∈ keywords, ∃ r : Rule, r.body = word k := by
  simp only [keywords, List.forall_mem_cons]
  exact ⟨⟨.kwAuto, rfl⟩, ⟨.kArray, rfl⟩, ⟨.kwBoolean, rfl⟩, ⟨.kBreak, rfl⟩, ⟨.kContinue, rfl⟩,
    ⟨.kDo, rfl⟩, ⟨.kElse, rfl⟩, ⟨.kwFalse, rfl⟩, ⟨.kwFloat, rfl⟩, ⟨.kFor, rfl⟩, ⟨.kFunction, rfl⟩,
    ⟨.kIf, rfl⟩, ⟨.kInherit, rfl⟩, ⟨.kwInteger, rfl⟩, ⟨.kOf, rfl⟩, ⟨.kwOut, rfl⟩, ⟨.kReturn, rfl⟩,
    ⟨.kwString, rfl⟩, ⟨.kwTrue, rfl⟩, ⟨.kwVoid, rfl⟩, ⟨.kWhile, rfl⟩, nofun⟩

namespace Script

/-- **Names and keywords.**  A word before a colon and a type declares one variable of that very name
exactly if it is an identifier and no keyword.  The rules that test for a keyword match exactly where
it stands as a whole word. -/
theorem program_of_name_iff (name w : String) :
    ((∃ v : VarDecl, (ofSource name (w ++ ": integer;")).program = .ok ⟨[.var v]⟩ ∧ v.name = w) ↔
      (∃ c cs, w.toList = c :: cs ∧ isWordStart c = true ∧ cs.all isWordChar = true) ∧
        w ∉ keywords) ∧
    ∀ k ∈ keywords, (∃ r : Rule, r.body = word k) ∧
      ∀ r : Rule, r.body = word k → ∀ u : List Char,
        (∃ ts, r.read u = .ok ts) ↔ ∃ rest, u = k.toList ++ rest ∧ Stops isWordChar rest := by
  refine ⟨?_, fun k hk => ⟨Rule.exists_word k hk, fun r hr u => ?_⟩⟩
  · rw [← isName_iff]
    constructor
    · rintro ⟨v, hv, rfl⟩
      exact names_isName hv v.name (by simp [Program.names, Program.vars, Decl.vars])
    · intro h
      obtain ⟨y, hy, hyv⟩ := Ty.drawn_integer
      obtain ⟨t, ht, htv⟩ := VarDecl.grown_bare h hy
      have hsource : (ofSource name (w ++ ": integer;")).source = w.toList ++ ": integer;".toList :=
        String.toList_append
      refine ⟨⟨w, .prim .integer, none⟩, program_of_variable ht ?_ (by rw [htv, hyv]; rfl), rfl⟩
      rw [hsource]
      exact lays_around [] (s := []) rfl (by decide) (isLexeme_name h).1
        (by rintro h'; rw [h'] at h; cases h) (fun _ => stops_cons rfl)
  · rw [r.read_isOk_iff, hr]
    exact ends_word_iff hk

/-- A keyword is no name, but a longer word that starts with it is one and does not match it. -/
theorem program_of_name_iff_longer :
    (∃ v : VarDecl, (ofSource "a" ("if_" ++ ": integer;")).program = .ok ⟨[.var v]⟩ ∧ v.name = "if_") ∧
    (¬ ∃ v : VarDecl, (ofSource "a" ("if" ++ ": integer;")).program = .ok ⟨[.var v]⟩ ∧ v.name = "if") ∧
    (∃ ts, Rule.kIf.read "if(".toList = .ok ts) ∧ ¬ ∃ ts, Rule.kIf.read "if_(".toList = .ok ts := by
  have hwords := (program_of_name_iff "a" "if").2 "if" (by decide)
  refine ⟨(program_of_name_iff "a" "if_").1.mpr (isName_iff.mp (by decide)), fun h => ?_,
    (hwords.2 .kIf rfl _).mpr ⟨"(".toList, by decide, stops_cons rfl⟩, fun h => ?_⟩
  · exact ((program_of_name_iff "a" "if").1.mp h).2 (by decide)
  · obtain ⟨rest, hrest, hstop⟩ := (hwords.2 .kIf rfl _).mp h
    have hrest : "if".toList ++ "_(".toList = "if".toList ++ rest := hrest
    obtain rfl := List.append_cancel_left hrest
    exact absurd (hstop '_' rfl) (by decide)

end Script

end Mt22
